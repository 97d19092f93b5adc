import Mathlib.Logic.Equiv.Basic
import Mathlib.Order.RelClasses

/-!
Sifting in a binary heap that is reached through a view. The positions are `0, 1, …, n`; the
parent of `k` is `k / 2`, so the root `0` has the one child `1`. A view says which value stands
at a position of a state and how two positions of the state are exchanged, so the state may
keep other books about its values. Sifting repairs a heap in which one value does not fit:
downwards when its children may belong above it, upwards when it may belong above its parent.
-/
namespace Monzero.SiftHeap

/-- The values of a state by position, and an exchange of two positions. -/
structure View (σ α : Type) where
  key : σ → ℕ → α
  exchange : σ → ℕ → ℕ → σ
  key_exchange : ∀ s i j, key (exchange s i j) = key s ∘ Equiv.swap i j

section Sifting

variable {σ α : Type} (V : View σ α) (lt : α → α → Prop) [DecidableRel lt] (n : ℕ)

/-- The child of `p` that belongs above the other one; the first one when neither does. -/
def upperChild (s : σ) (p : ℕ) : ℕ :=
  if 2 * p < n ∧ lt (V.key s (2 * p + 1)) (V.key s (2 * p)) then 2 * p + 1 else 2 * p

/-- The value at `p` moves down until no child belongs above it. -/
def siftDownFrom : ℕ → σ → ℕ → σ
  | 0, s, _ => s
  | fuel + 1, s, p =>
      if n < 2 * p then s
      else
        let c := upperChild V lt n s p
        if lt (V.key s c) (V.key s (c / 2)) then siftDownFrom fuel (V.exchange s c (c / 2)) c
        else s

/-- The position at least doubles, so there are at most `n` turns. -/
def siftDown (s : σ) (p : ℕ) : σ := siftDownFrom V lt n n s p

/-- The value at `i` moves up until it does not belong above its parent. The answer is whether
it has arrived at the root. -/
def siftUpFrom : ℕ → σ → ℕ → σ × Bool
  | 0, s, i => (s, i = 0)
  | fuel + 1, s, i =>
      if 0 < i ∧ lt (V.key s i) (V.key s (i / 2)) then
        siftUpFrom fuel (V.exchange s i (i / 2)) (i / 2)
      else (s, i = 0)

def siftUp (s : σ) (i : ℕ) : σ × Bool := siftUpFrom V lt i s i

end Sifting

variable {σ α : Type} {V : View σ α} {lt : α → α → Prop} {n : ℕ}

/-- No value belongs above its parent. -/
def Heap (lt : α → α → Prop) (n : ℕ) (key : ℕ → α) : Prop :=
  ∀ k, 1 ≤ k → k ≤ n → ¬lt (key k) (key (k / 2))

/-- A heap but for the children of `p`, which still do not belong above the parent of `p`. -/
structure DownOrder (lt : α → α → Prop) (n : ℕ) (key : ℕ → α) (p : ℕ) : Prop where
  others : ∀ k, 1 ≤ k → k ≤ n → k / 2 ≠ p → ¬lt (key k) (key (k / 2))
  children : ∀ k, k ≤ n → k / 2 = p → ¬lt (key k) (key (p / 2))

/-- A heap but for the value at `p`; its children still do not belong above its parent. -/
structure UpOrder (lt : α → α → Prop) (n : ℕ) (key : ℕ → α) (p : ℕ) : Prop where
  others : ∀ k, 1 ≤ k → k ≤ n → k ≠ p → ¬lt (key k) (key (k / 2))
  children : ∀ k, k ≤ n → 1 ≤ p → k / 2 = p → ¬lt (key k) (key (p / 2))

theorem key_exchange_left {s : σ} {i j : ℕ} : V.key (V.exchange s i j) i = V.key s j := by
  rw [V.key_exchange, Function.comp_apply, Equiv.swap_apply_left]

theorem key_exchange_right {s : σ} {i j : ℕ} : V.key (V.exchange s i j) j = V.key s i := by
  rw [V.key_exchange, Function.comp_apply, Equiv.swap_apply_right]

theorem key_exchange_other {s : σ} {i j : ℕ} (k : ℕ) (hi : k ≠ i) (hj : k ≠ j) :
    V.key (V.exchange s i j) k = V.key s k := by
  rw [V.key_exchange, Function.comp_apply, Equiv.swap_apply_of_ne_of_ne hi hj]

/-- Values are compared by a strict weak order. -/
structure WeakOrder (lt : α → α → Prop) : Prop where
  asymm : ∀ a b, lt a b → ¬lt b a
  not_trans : ∀ a b c, ¬lt a b → ¬lt b c → ¬lt a c

theorem WeakOrder.irrefl (h : WeakOrder lt) (a : α) : ¬lt a a := fun hlt => h.asymm a a hlt hlt

variable {key : ℕ → α}

theorem Heap.root (hlt : WeakOrder lt) (h : Heap lt n key) (k : ℕ) (hk : k ≤ n) :
    ¬lt (key k) (key 0) := by
  induction k using Nat.strongRecOn with
  | ind k ih =>
    by_cases hzero : k = 0
    · rw [hzero]
      exact hlt.irrefl _
    · exact hlt.not_trans _ _ _ (h k (by omega) hk) (ih (k / 2) (by omega) (by omega))

theorem Heap.first (hlt : WeakOrder lt) (h : Heap lt n key) (k : ℕ) (hk : 1 ≤ k)
    (hkn : k ≤ n) : ¬lt (key k) (key 1) := by
  induction k using Nat.strongRecOn with
  | ind k ih =>
    by_cases hone : k = 1
    · rw [hone]
      exact hlt.irrefl _
    · exact hlt.not_trans _ _ _ (h k hk hkn) (ih (k / 2) (by omega) (by omega) (by omega))

variable {key' : ℕ → α} {i : ℕ}

theorem Heap.replace_down (hlt : WeakOrder lt) (h : Heap lt n key)
    (hi : 1 ≤ i) (hin : i ≤ n) (hsame : ∀ k, k ≤ n → k ≠ i → key' k = key k)
    (hlower : ¬lt (key' i) (key i)) : DownOrder lt n key' i := by
  have hup := h i hi hin
  have hpar : key' (i / 2) = key (i / 2) := hsame _ (by omega) (by omega)
  constructor
  · intro k hk hkn hki
    by_cases hk' : k = i
    · subst hk'
      rw [hpar]
      exact hlt.not_trans _ _ _ hlower hup
    · rw [hsame k hkn hk', hsame (k / 2) (by omega) hki]
      exact h k hk hkn
  · intro k hkn hki
    have hchild := h k (by omega) hkn
    rw [hki] at hchild
    rw [hpar, hsame k hkn (by omega)]
    exact hlt.not_trans _ _ _ hchild hup

theorem Heap.replace_up (hlt : WeakOrder lt) (h : Heap lt n key)
    (hi : 1 ≤ i) (hin : i ≤ n) (hsame : ∀ k, k ≤ n → k ≠ i → key' k = key k)
    (hhigher : ¬lt (key i) (key' i)) : UpOrder lt n key' i := by
  constructor
  · intro k hk hkn hki
    rw [hsame k hkn hki]
    by_cases hpar : k / 2 = i
    · have hchild := h k hk hkn
      rw [hpar] at hchild ⊢
      exact hlt.not_trans _ _ _ hchild hhigher
    · rw [hsame (k / 2) (by omega) hpar]
      exact h k hk hkn
  · intro k hkn _ hki
    have hchild := h k (by omega) hkn
    rw [hki] at hchild
    rw [hsame k hkn (by omega), hsame (i / 2) (by omega) (by omega)]
    exact hlt.not_trans _ _ _ hchild (h i hi hin)

theorem Heap.append_up (h : Heap lt n key)
    (hsame : ∀ k, k ≤ n → key' k = key k) : UpOrder lt (n + 1) key' (n + 1) := by
  constructor
  · intro k hk hkn hlast
    rw [hsame k (by omega), hsame (k / 2) (by omega)]
    exact h k hk (by omega)
  · intro k hkn _ hhalf
    omega

/-- A heap in which root and first child are exchanged because the child belongs above. -/
theorem DownOrder.of_exchanged (hlt : WeakOrder lt)
    (h : ∀ k, 2 ≤ k → k ≤ n → ¬lt (key k) (key (k / 2))) (hroot : key' 0 = key 1)
    (hchild : key' 1 = key 0) (hsame : ∀ k, 2 ≤ k → key' k = key k) (habove : lt (key 1) (key 0)) :
    DownOrder lt n key' 1 := by
  constructor
  · intro k hk hkn hhalf
    by_cases hone : k = 1
    · subst hone
      rw [show 1 / 2 = 0 from rfl, hroot, hchild]
      exact hlt.asymm _ _ habove
    · rw [hsame k (by omega), hsame (k / 2) (by omega)]
      exact h k (by omega) hkn
  · intro k hkn hhalf
    have hbelow := h k (by omega) hkn
    rw [hhalf] at hbelow
    rw [show 1 / 2 = 0 from rfl, hroot, hsame k (by omega)]
    exact hbelow

section Down

variable [DecidableRel lt]

variable (V lt n) in
theorem upperChild_half (s : σ) (p : ℕ) : upperChild V lt n s p / 2 = p := by
  unfold upperChild
  split <;> omega

variable (V lt n) in
theorem upperChild_le (s : σ) (p : ℕ) (h : 2 * p ≤ n) : upperChild V lt n s p ≤ n := by
  unfold upperChild
  split <;> omega

theorem upperChild_upper (hlt : WeakOrder lt) (s : σ) (p k : ℕ) (hk : k ≤ n) (hhalf : k / 2 = p) :
    ¬lt (V.key s k) (V.key s (upperChild V lt n s p)) := by
  have hcases : k = 2 * p ∨ k = 2 * p + 1 := by omega
  unfold upperChild
  split
  · rename_i hsnd
    rcases hcases with rfl | rfl
    · exact hlt.asymm _ _ hsnd.2
    · exact hlt.irrefl _
  · rename_i hfst
    rcases hcases with rfl | rfl
    · exact hlt.irrefl _
    · intro hbelow
      exact hfst ⟨by omega, hbelow⟩

variable {s : σ} {p : ℕ}

theorem DownOrder.move (hlt : WeakOrder lt) (h : DownOrder lt n (V.key s) p) (hp : 1 ≤ p)
    (hle : 2 * p ≤ n) (hmove : lt (V.key s (upperChild V lt n s p)) (V.key s p)) :
    DownOrder lt n (V.key (V.exchange s (upperChild V lt n s p) p)) (upperChild V lt n s p) := by
  have hhalf := upperChild_half V lt n s p
  have hcle := upperChild_le V lt n s p hle
  have hupper := fun k => upperChild_upper (V := V) (n := n) hlt s p k
  generalize upperChild V lt n s p = c at hmove hhalf hcle hupper ⊢
  constructor
  · intro k hk hkn hkc
    by_cases hc : k = c
    · subst hc
      rw [key_exchange_left, hhalf, key_exchange_right]
      exact hlt.asymm _ _ hmove
    by_cases hkp : k = p
    · subst hkp
      rw [key_exchange_right, key_exchange_other _ (by omega) (by omega)]
      exact h.children c hcle hhalf
    rw [key_exchange_other k hc hkp]
    by_cases hpar : k / 2 = p
    · rw [hpar, key_exchange_right]
      exact hupper k hkn hpar
    · rw [key_exchange_other _ hkc hpar]
      exact h.others k hk hkn hpar
  · intro k hkn hkc
    rw [hhalf, key_exchange_right, key_exchange_other _ (by omega) (by omega), ← hkc]
    exact h.others k (by omega) hkn (by omega)

omit [DecidableRel lt] in
theorem DownOrder.finish (h : DownOrder lt n key p)
    (hstop : ∀ k, k ≤ n → k / 2 = p → ¬lt (key k) (key p)) : Heap lt n key := by
  intro k hk hkn
  by_cases hpar : k / 2 = p
  · rw [hpar]
    exact hstop k hkn hpar
  · exact h.others k hk hkn hpar

theorem siftDown_heap (hlt : WeakOrder lt) (hp : 1 ≤ p)
    (h : DownOrder lt n (V.key s) p) : Heap lt n (V.key (siftDown V lt n s p)) := by
  have hfuel : ∀ fuel s p, 1 ≤ p → n ≤ fuel + p → DownOrder lt n (V.key s) p →
      Heap lt n (V.key (siftDownFrom V lt n fuel s p)) := by
    intro fuel
    induction fuel with
    | zero =>
      intro s p hp hfuel h
      exact h.finish fun k hk hhalf => by omega
    | succ fuel ih =>
      intro s p hp hfuel h
      rw [siftDownFrom]
      split
      · exact h.finish fun k hk hhalf => by omega
      · rename_i hle
        have hhalf := upperChild_half V lt n s p
        dsimp only
        rw [hhalf]
        split
        · rename_i hmove
          exact ih _ _ (by omega) (by omega) (h.move hlt hp (by omega) hmove)
        · rename_i hstop
          exact h.finish fun k hk hpar =>
            hlt.not_trans _ _ _ (upperChild_upper hlt s p k hk hpar) hstop
  exact hfuel n s p hp (by omega) h

theorem siftDown_invariant (P : σ → Prop) (hp : 1 ≤ p) (hs : P s)
    (hstep : ∀ s i j, p ≤ j → j < i → i ≤ n → P s → P (V.exchange s i j)) :
    P (siftDown V lt n s p) := by
  have hfuel : ∀ fuel s q, p ≤ q → P s → P (siftDownFrom V lt n fuel s q) := by
    intro fuel
    induction fuel with
    | zero =>
      intro s q _ hs
      exact hs
    | succ fuel ih =>
      intro s q hq hs
      rw [siftDownFrom]
      split
      · exact hs
      · rename_i hle
        have hhalf := upperChild_half V lt n s q
        have hcle := upperChild_le V lt n s q (by omega)
        dsimp only
        split
        · exact ih _ _ (by omega) (hstep s _ _ (by omega) (by omega) hcle hs)
        · exact hs
  exact hfuel n s p (Nat.le_refl _) hs

end Down

section Up

variable [DecidableRel lt]

omit [DecidableRel lt] in
theorem UpOrder.move (hlt : WeakOrder lt) {s : σ} (h : UpOrder lt n (V.key s) i)
    (hi : 1 ≤ i) (hin : i ≤ n) (hmove : lt (V.key s i) (V.key s (i / 2))) :
    UpOrder lt n (V.key (V.exchange s i (i / 2))) (i / 2) := by
  constructor
  · intro k hk hkn hkq
    by_cases hki : k = i
    · subst hki
      rw [key_exchange_left, key_exchange_right]
      exact hlt.asymm _ _ hmove
    rw [key_exchange_other k hki hkq]
    by_cases hpar : k / 2 = i
    · rw [hpar, key_exchange_left]
      exact h.children k hkn hi hpar
    by_cases hsibling : k / 2 = i / 2
    · rw [hsibling, key_exchange_right]
      have hk' := h.others k hk hkn hki
      rw [hsibling] at hk'
      exact hlt.not_trans _ _ _ hk' (hlt.asymm _ _ hmove)
    · rw [key_exchange_other _ hpar hsibling]
      exact h.others k hk hkn hki
  · intro k hkn hq hkq
    have hup := h.others (i / 2) hq (by omega) (by omega)
    rw [key_exchange_other (i / 2 / 2) (by omega) (by omega)]
    by_cases hki : k = i
    · subst hki
      rw [key_exchange_left]
      exact hup
    · rw [key_exchange_other k hki (by omega)]
      have hk' := h.others k (by omega) hkn hki
      rw [hkq] at hk'
      exact hlt.not_trans _ _ _ hk' hup

omit [DecidableRel lt] in
theorem UpOrder.finish (h : UpOrder lt n key i)
    (hstop : ¬(0 < i ∧ lt (key i) (key (i / 2)))) : Heap lt n key := by
  intro k hk hkn
  by_cases hki : k = i
  · subst hki
    exact fun hbelow => hstop ⟨by omega, hbelow⟩
  · exact h.others k hk hkn hki

theorem siftUp_heap (hlt : WeakOrder lt) {s : σ} (hin : i ≤ n)
    (h : UpOrder lt n (V.key s) i) : Heap lt n (V.key (siftUp V lt s i).1) := by
  have hfuel : ∀ fuel s i, i ≤ fuel → i ≤ n → UpOrder lt n (V.key s) i →
      Heap lt n (V.key (siftUpFrom V lt fuel s i).1) := by
    intro fuel
    induction fuel with
    | zero =>
      intro s i hfuel _ h
      exact h.finish fun hstop => by omega
    | succ fuel ih =>
      intro s i hfuel hin h
      rw [siftUpFrom]
      split
      · rename_i hmove
        exact ih _ _ (by omega) (by omega) (h.move hlt (by omega) hin hmove.2)
      · rename_i hstop
        exact h.finish hstop
  exact hfuel i s i (Nat.le_refl _) hin h

theorem siftUp_invariant (P : σ → Prop) {s : σ} (hs : P s)
    (hstep : ∀ s k j, j < k → k ≤ i → P s → P (V.exchange s k j)) : P (siftUp V lt s i).1 := by
  have hfuel : ∀ fuel s k, k ≤ i → P s → P (siftUpFrom V lt fuel s k).1 := by
    intro fuel
    induction fuel with
    | zero =>
      intro s k _ hs
      exact hs
    | succ fuel ih =>
      intro s k hk hs
      rw [siftUpFrom]
      split
      · exact ih _ _ (by omega) (hstep s _ _ (by omega) hk hs)
      · exact hs
  exact hfuel i s i (Nat.le_refl _) hs

variable (V lt) in
/-- The root after sifting up: it is new exactly when the value has arrived there, and then the old
root is its child. -/
theorem siftUp_root (s : σ) (hi : 1 ≤ i) :
    ((siftUp V lt s i).2 = false → V.key (siftUp V lt s i).1 0 = V.key s 0) ∧
    ((siftUp V lt s i).2 = true → V.key (siftUp V lt s i).1 0 = V.key s i ∧
      V.key (siftUp V lt s i).1 1 = V.key s 0) := by
  have hfuel : ∀ fuel s i, 1 ≤ i →
      ((siftUpFrom V lt fuel s i).2 = false → V.key (siftUpFrom V lt fuel s i).1 0 = V.key s 0) ∧
      ((siftUpFrom V lt fuel s i).2 = true → V.key (siftUpFrom V lt fuel s i).1 0 = V.key s i ∧
        V.key (siftUpFrom V lt fuel s i).1 1 = V.key s 0) := by
    intro fuel
    induction fuel with
    | zero =>
      intro s i hi
      rw [siftUpFrom]
      refine ⟨fun _ => rfl, fun hroot => ?_⟩
      have hzero : i = 0 := of_decide_eq_true hroot
      omega
    | succ fuel ih =>
      intro s i hi
      rw [siftUpFrom]
      split
      · by_cases hone : i / 2 = 0
        · -- the next turn starts at the root and ends there
          obtain rfl : i = 1 := by omega
          have hlast : siftUpFrom V lt fuel (V.exchange s 1 0) 0 = (V.exchange s 1 0, true) := by
            cases fuel with
            | zero => rfl
            | succ fuel => rw [siftUpFrom, if_neg (by omega)]; rfl
          rw [show 1 / 2 = 0 from rfl, hlast]
          refine ⟨nofun, fun _ => ?_⟩
          exact ⟨key_exchange_right, key_exchange_left⟩
        · obtain ⟨hstays, harrives⟩ := ih (V.exchange s i (i / 2)) (i / 2) (by omega)
          have hroot : V.key (V.exchange s i (i / 2)) 0 = V.key s 0 :=
            key_exchange_other _ (by omega) (by omega)
          rw [hroot] at hstays harrives
          rw [key_exchange_right] at harrives
          exact ⟨hstays, harrives⟩
      · refine ⟨fun _ => rfl, fun hroot => ?_⟩
        have hzero : i = 0 := of_decide_eq_true hroot
        omega
  exact hfuel i s i hi

end Up

end Monzero.SiftHeap
