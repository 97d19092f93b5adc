import Mathlib.Data.Nat.Basic
import Monzero.RollingMedian

/-!
What the rolling median computes. Indices and positions are kept inverse to each other, so the
values at the positions are those of the queue, in some order; the two heaps say that the
positions below the median hold the smaller half and those above it the greater half. Every
insertion keeps this, so the answer is the median of the values inserted last.
-/
namespace Monzero.RollingMedian

open SiftHeap
open Function (update update_apply)

/-- The positions in use when there are `n` values. -/
def Active (n : ℕ) (k : ℤ) : Prop := -((n / 2 : ℕ) : ℤ) ≤ k ∧ k ≤ ((n - 1) / 2 : ℕ)

variable {n : ℕ} {k : ℤ}

theorem Active.mono {n' : ℕ} (h : Active n k) (hn : n ≤ n') : Active n' k := by
  unfold Active at *
  omega

theorem active_slot (d : ℕ) (hn : 1 ≤ n) : Active n (slot d) ↔ d < n := by
  unfold Active slot
  split <;> omega

theorem exists_slot (k : ℤ) (hn : 1 ≤ n) (h : Active n k) : ∃ d < n, slot d = k := by
  have hslot : slot (if 0 < k then (2 * k).toNat else (-2 * k).toNat - 1) = k := by
    unfold slot
    split <;> split <;> omega
  exact ⟨_, (active_slot _ hn).mp (by rw [hslot]; exact h), hslot⟩

section Links

variable {Item : Type} {m : RollingMedian Item}

/-- Indices and positions correspond, and an index without a value is where it started. -/
structure Linked (m : RollingMedian Item) : Prop where
  active : ∀ d < m.N, Active m.N (m.pos d)
  heap_pos : ∀ d < m.N, m.heap (m.pos d) = d
  pos_heap : ∀ k, Active m.N k → m.heap k < m.N ∧ m.pos (m.heap k) = k
  waiting : ∀ d, m.sz ≤ d → d < m.N → m.pos d = slot d

variable {d : ℕ} {i j : ℤ} {m' : RollingMedian Item}

theorem Linked.heap_eq_iff (h : Linked m) (hk : Active m.N k) (hd : d < m.N) :
    d = m.heap k ↔ m.pos d = k := by
  constructor
  · intro heq
    rw [heq, (h.pos_heap k hk).2]
  · intro heq
    rw [← heq, h.heap_pos d hd]

theorem pos_mmexchange (h : Linked m) (hi : Active m.N i) (hj : Active m.N j)
    (hd : d < m.N) : (m.mmexchange i j).pos d = Equiv.swap i j (m.pos d) := by
  have hpos : (m.mmexchange i j).pos =
      update (update m.pos (m.heap j) i) (m.heap i) j := by
    show update (update m.pos ((m.mmexchange i j).heap i) i)
      ((m.mmexchange i j).heap j) j = _
    rw [heap_mmexchange, heap_mmexchange, Equiv.swap_apply_left, Equiv.swap_apply_right]
  rw [hpos, update_apply, update_apply, Equiv.swap_apply_def]
  simp [h.heap_eq_iff hi hd, h.heap_eq_iff hj hd]

theorem Linked.mmexchange (h : Linked m) (hsz : 1 ≤ m.sz) (hle : m.sz ≤ m.N)
    (hi : Active m.sz i) (hj : Active m.sz j) : Linked (m.mmexchange i j) := by
  have hiN := hi.mono hle
  have hjN := hj.mono hle
  have hswap : ∀ k, Active m.N k → Active m.N (Equiv.swap i j k) := by
    intro k hk
    rw [Equiv.swap_apply_def]
    split
    · exact hjN
    · split
      · exact hiN
      · exact hk
  constructor
  · intro d hd
    rw [pos_mmexchange h hiN hjN hd]
    exact hswap _ (h.active d hd)
  · intro d hd
    rw [pos_mmexchange h hiN hjN hd, heap_mmexchange, Equiv.swap_apply_self, h.heap_pos d hd]
  · intro k hk
    obtain ⟨hlt, hback⟩ := h.pos_heap _ (hswap k hk)
    rw [heap_mmexchange]
    refine ⟨hlt, ?_⟩
    rw [pos_mmexchange h hiN hjN hlt, hback, Equiv.swap_apply_self]
  · intro d hd hdN
    change m.sz ≤ d at hd
    change d < m.N at hdN
    have hslot := h.waiting d hd hdN
    have hnot : ¬Active m.sz (slot d) := fun hact => by
      have hlt := (active_slot d hsz).mp hact
      omega
    rw [pos_mmexchange h hiN hjN hdN, hslot, Equiv.swap_apply_of_ne_of_ne]
    · intro heq
      exact hnot (heq ▸ hi)
    · intro heq
      exact hnot (heq ▸ hj)

/-- A state that differs in the arrangement of the values only. -/
structure Shuffled (m m' : RollingMedian Item) : Prop where
  N : m'.N = m.N
  data : m'.data = m.data
  idx : m'.idx = m.idx
  minCt : m'.minCt = m.minCt
  maxCt : m'.maxCt = m.maxCt
  sz : m'.sz = m.sz
  linked : Linked m'

theorem Shuffled.refl (h : Linked m) : Shuffled m m := ⟨rfl, rfl, rfl, rfl, rfl, rfl, h⟩

theorem Shuffled.trans {m'' : RollingMedian Item} (h : Shuffled m m') (h' : Shuffled m' m'') :
    Shuffled m m'' :=
  ⟨h'.N.trans h.N, h'.data.trans h.data, h'.idx.trans h.idx, h'.minCt.trans h.minCt,
    h'.maxCt.trans h.maxCt, h'.sz.trans h.sz, h'.linked⟩

theorem Shuffled.count (h : Shuffled m m') (d : Side) : m'.count d = m.count d := by
  cases d
  · exact h.minCt
  · exact h.maxCt

/-- The sizes of the heaps go with the number of values. -/
structure Counted (m : RollingMedian Item) : Prop where
  pos : 1 ≤ m.sz
  le : m.sz ≤ m.N
  minCt : m.minCt = (m.sz - 1) / 2
  maxCt : m.maxCt = m.sz / 2

theorem Counted.shuffled (h : Counted m) (hs : Shuffled m m') : Counted m' := by
  obtain ⟨hpos, hle, hmin, hmax⟩ := h
  constructor
  · rw [hs.sz]
    exact hpos
  · rw [hs.sz, hs.N]
    exact hle
  · rw [hs.sz, hs.minCt]
    exact hmin
  · rw [hs.sz, hs.maxCt]
    exact hmax

theorem Counted.active (h : Counted m) (d : Side) (k : ℕ) (hk : k ≤ m.count d) :
    Active m.sz (d.place k) := by
  obtain ⟨hpos, hle, hmin, hmax⟩ := h
  cases d <;> simp only [RollingMedian.count, Side.place, Active] at * <;> omega

theorem Shuffled.exchange (h : Shuffled m m') (hcnt : Counted m)
    (d : Side) {i j : ℕ} (hi : i ≤ m.count d) (hj : j ≤ m.count d) :
    Shuffled m (m'.exchange d i j) := by
  have hcnt' := hcnt.shuffled h
  have hi' := hcnt'.active d i (by rw [h.count]; exact hi)
  have hj' := hcnt'.active d j (by rw [h.count]; exact hj)
  refine h.trans ?_
  cases d with
  | min => exact ⟨rfl, rfl, rfl, rfl, rfl, rfl, h.linked.mmexchange hcnt'.pos hcnt'.le hi' hj'⟩
  | max => exact ⟨rfl, rfl, rfl, rfl, rfl, rfl, h.linked.mmexchange hcnt'.pos hcnt'.le hj' hi'⟩

end Links

section Order

variable {Item : Type} [LinearOrder Item] {m : RollingMedian Item}

def Side.other : Side → Side
  | min => max
  | max => min

variable {i : ℕ} (d : Side)

theorem weakOrder : WeakOrder (@Side.lt Item _ d) := by
  cases d with
  | min => exact ⟨fun a b h => not_lt_of_gt h, fun a b c h h' => not_lt.mpr
      ((not_lt.mp h').trans (not_lt.mp h))⟩
  | max => exact ⟨fun a b h => not_lt_of_gt h, fun a b c h h' => not_lt.mpr
      ((not_lt.mp h).trans (not_lt.mp h'))⟩

theorem lt_other (a b : Item) : d.other.lt a b ↔ d.lt b a := by
  cases d <;> rfl

@[simp] theorem Side.other_other : d.other.other = d := by
  cases d <;> rfl

theorem Side.eq_or_eq_other (d d' : Side) : d' = d ∨ d' = d.other := by
  cases d <;> cases d' <;> simp [Side.other]

@[simp] theorem place_zero : d.place 0 = 0 := by
  cases d <;> rfl

theorem place_ne_other {j : ℕ} (hi : 1 ≤ i) : d.place i ≠ d.other.place j := by
  cases d <;> simp only [Side.place, Side.other] <;> omega

/-- A heap is in order, the median included. -/
def Ordered (d : Side) (m : RollingMedian Item) : Prop :=
  Heap d.lt (m.count d) ((view d).key m)

theorem sortDown_frame (hlink : Linked m) (hcnt : Counted m) {d : Side} {p : ℕ} (hp : 1 ≤ p) :
    Shuffled m (m.sortDown d p) ∧
      ∀ k, (m.sortDown d p).key (d.other.place k) = m.key (d.other.place k) := by
  refine siftDown_invariant (fun m' => Shuffled m m' ∧
    ∀ k, m'.key (d.other.place k) = m.key (d.other.place k)) hp ⟨.refl hlink, fun _ => rfl⟩ ?_
  intro m' i j hj hji hi hm'
  refine ⟨hm'.1.exchange hcnt d hi (by omega), fun k => ?_⟩
  show (m'.exchange d i j).key _ = _
  rw [key_exchange, Equiv.swap_apply_of_ne_of_ne (place_ne_other d (by omega)).symm
    (place_ne_other d (by omega)).symm, hm'.2]

theorem sortDown_spec (hlink : Linked m) (hcnt : Counted m) {d : Side} {p : ℕ} (hp : 1 ≤ p)
    (h : DownOrder d.lt (m.count d) ((view d).key m) p) :
    Shuffled m (m.sortDown d p) ∧ Ordered d (m.sortDown d p) ∧
      ∀ k, (m.sortDown d p).key (d.other.place k) = m.key (d.other.place k) := by
  obtain ⟨hshuf, hother⟩ := sortDown_frame hlink hcnt (d := d) hp
  refine ⟨hshuf, ?_, hother⟩
  rw [Ordered, hshuf.count]
  exact siftDown_heap (weakOrder d) hp h

theorem sortUp_frame (hlink : Linked m) (hcnt : Counted m) {d : Side} (hin : i ≤ m.count d) :
    Shuffled m (m.sortUp d i).1 ∧
      ∀ k, 1 ≤ k → (m.sortUp d i).1.key (d.other.place k) = m.key (d.other.place k) := by
  refine siftUp_invariant (fun m' => Shuffled m m' ∧ ∀ k, 1 ≤ k →
    m'.key (d.other.place k) = m.key (d.other.place k)) ⟨.refl hlink, fun _ _ => rfl⟩ ?_
  intro m' k j hj hk hm'
  refine ⟨hm'.1.exchange hcnt d (by omega) (by omega), fun q hq => ?_⟩
  have hplace : ∀ a, d.other.place q ≠ d.place a := by
    intro a
    cases d <;> simp only [Side.place, Side.other] <;> omega
  show (m'.exchange d k j).key _ = _
  rw [key_exchange, Equiv.swap_apply_of_ne_of_ne (hplace k) (hplace j), hm'.2 q hq]

theorem sortUp_spec (hlink : Linked m) (hcnt : Counted m) {d : Side} (hin : i ≤ m.count d)
    (h : UpOrder d.lt (m.count d) ((view d).key m) i) :
    Shuffled m (m.sortUp d i).1 ∧ Ordered d (m.sortUp d i).1 ∧
      ∀ k, 1 ≤ k → (m.sortUp d i).1.key (d.other.place k) = m.key (d.other.place k) := by
  obtain ⟨hshuf, hother⟩ := sortUp_frame hlink hcnt hin
  refine ⟨hshuf, ?_, hother⟩
  rw [Ordered, hshuf.count]
  exact siftUp_heap (weakOrder d) hin h

theorem sortUp_root (m : RollingMedian Item) (hi : 1 ≤ i) :
    ((m.sortUp d i).2 = false → (m.sortUp d i).1.key 0 = m.key 0) ∧
    ((m.sortUp d i).2 = true → (m.sortUp d i).1.key 0 = m.key (d.place i) ∧
      (m.sortUp d i).1.key (d.place 1) = m.key 0) := by
  have hroot := siftUp_root (view d) d.lt m hi
  change ((m.sortUp d i).2 = false → (m.sortUp d i).1.key (d.place 0) = m.key (d.place 0)) ∧
    ((m.sortUp d i).2 = true → (m.sortUp d i).1.key (d.place 0) = m.key (d.place i) ∧
      (m.sortUp d i).1.key (d.place 1) = m.key (d.place 0)) at hroot
  rwa [place_zero] at hroot

/-- The median goes down into a heap whose first element belongs in its place. -/
def sinkRoot (d : Side) (m : RollingMedian Item) : RollingMedian Item :=
  if m.count d ≠ 0 ∧ d.lt (m.key (d.place 1)) (m.key 0) then (m.exchange d 1 0).sortDown d 1
  else m

/-- A heap that is in order below the median is in order after the median has sunk. -/
theorem sinkRoot_spec (hlink : Linked m) (hcnt : Counted m) {d : Side}
    (h : ∀ k, 2 ≤ k → k ≤ m.count d → ¬d.lt (m.key (d.place k)) (m.key (d.place (k / 2)))) :
    Shuffled m (sinkRoot d m) ∧ Ordered d (sinkRoot d m) ∧
      (∀ k, 1 ≤ k → (sinkRoot d m).key (d.other.place k) = m.key (d.other.place k)) ∧
      (sinkRoot d m = m ∨ (1 ≤ m.count d ∧ d.lt (m.key (d.place 1)) (m.key 0) ∧
        (sinkRoot d m).key 0 = m.key (d.place 1))) := by
  unfold sinkRoot
  split
  · rename_i hsink
    obtain ⟨hcount, habove⟩ := hsink
    have hshuf := (Shuffled.refl hlink).exchange hcnt d
      (show 1 ≤ m.count d by omega) (Nat.zero_le _)
    have hkey : ∀ k, (m.exchange d 1 0).key k = m.key (Equiv.swap (d.place 1) 0 k) := by
      intro k
      rw [key_exchange, place_zero]
    have hplace : ∀ k, 2 ≤ k → d.place k ≠ d.place 1 ∧ d.place k ≠ 0 := by
      intro k hk
      cases d <;> simp only [Side.place] <;> omega
    have hdown : DownOrder d.lt (m.count d) ((view d).key (m.exchange d 1 0)) 1 := by
      refine DownOrder.of_exchanged (weakOrder d) h ?_ ?_ ?_ ?_
      · show (m.exchange d 1 0).key (d.place 0) = m.key (d.place 1)
        rw [place_zero, hkey, Equiv.swap_apply_right]
      · show (m.exchange d 1 0).key (d.place 1) = m.key (d.place 0)
        rw [place_zero, hkey, Equiv.swap_apply_left]
      · intro k hk
        show (m.exchange d 1 0).key (d.place k) = m.key (d.place k)
        rw [hkey, Equiv.swap_apply_of_ne_of_ne (hplace k hk).1 (hplace k hk).2]
      · show d.lt (m.key (d.place 1)) (m.key (d.place 0))
        rw [place_zero]
        exact habove
    rw [← hshuf.count d] at hdown
    obtain ⟨hsort, hordered, hother⟩ := sortDown_spec hshuf.linked
      (hcnt.shuffled hshuf) le_rfl hdown
    refine ⟨hshuf.trans hsort, hordered, ?_, Or.inr ⟨by omega, habove, ?_⟩⟩
    · intro k hk
      have hne : d.other.place k ≠ d.place 1 ∧ d.other.place k ≠ 0 := by
        cases d <;> simp only [Side.place, Side.other] <;> omega
      rw [hother, hkey, Equiv.swap_apply_of_ne_of_ne hne.1 hne.2]
    · have hzero := hother 0
      rw [place_zero] at hzero
      rw [hzero, hkey, Equiv.swap_apply_right]
  · rename_i hstays
    refine ⟨.refl hlink, ?_, fun _ _ => rfl, Or.inl rfl⟩
    intro k hk hkn
    by_cases hone : k = 1
    · subst hone
      show ¬d.lt (m.key (d.place 1)) (m.key (d.place 0))
      rw [place_zero]
      exact fun habove => hstays ⟨by omega, habove⟩
    · exact h k (by omega) hkn

/-- A heap stays in order when the median sinks into the other one, if what comes up from there does
not belong below its first element. -/
theorem sinkRoot_keeps (hlink : Linked m) (hcnt : Counted m) {d : Side} (hordered : Ordered d m)
    (h : ∀ k, 2 ≤ k → k ≤ m.count d.other →
      ¬d.other.lt (m.key (d.other.place k)) (m.key (d.other.place (k / 2))))
    (hfst : 1 ≤ m.count d.other → d.other.lt (m.key (d.other.place 1)) (m.key 0) →
      1 ≤ m.count d → ¬d.lt (m.key (d.place 1)) (m.key (d.other.place 1))) :
    Shuffled m (sinkRoot d.other m) ∧ ∀ d', Ordered d' (sinkRoot d.other m) := by
  obtain ⟨hsunk, hother, hkept, hroot⟩ := sinkRoot_spec hlink hcnt h
  rw [Side.other_other] at hkept
  refine ⟨hsunk, fun d' => ?_⟩
  rcases d.eq_or_eq_other d' with rfl | rfl
  · rcases hroot with hroot | ⟨hpos, habove, hroot⟩
    · rwa [hroot]
    · intro k hk hkn
      rw [hsunk.count] at hkn
      show ¬d'.lt ((sinkRoot d'.other m).key (d'.place k))
        ((sinkRoot d'.other m).key (d'.place (k / 2)))
      rw [hkept k hk]
      by_cases hone : k = 1
      · subst hone
        rw [show 1 / 2 = 0 from rfl, place_zero, hroot]
        exact hfst hpos habove hkn
      · rw [hkept (k / 2) (by omega)]
        exact hordered k hk hkn
  · exact hother

/-- An element is sifted up, and a new median is sunk into the other heap. -/
def raise (d : Side) (m : RollingMedian Item) (i : ℕ) : RollingMedian Item :=
  if (m.sortUp d i).2 then sinkRoot d.other (m.sortUp d i).1 else (m.sortUp d i).1

theorem raise_spec (hlink : Linked m) (hcnt : Counted m) {d : Side} (hi : 1 ≤ i)
    (hin : i ≤ m.count d) (h : UpOrder d.lt (m.count d) ((view d).key m) i)
    (hother : Ordered d.other m) : Shuffled m (raise d m i) ∧ ∀ d', Ordered d' (raise d m i) := by
  obtain ⟨hshuf, hordered, hsame⟩ := sortUp_spec hlink hcnt hin h
  obtain ⟨hstays, harrives⟩ := sortUp_root d m hi
  have hcount := hshuf.count d.other
  unfold raise
  split
  · rename_i htop
    obtain ⟨hsunk, hboth⟩ := sinkRoot_keeps hshuf.linked (hcnt.shuffled hshuf) hordered (by
        intro k hk hkn
        rw [hsame k (by omega), hsame (k / 2) (by omega)]
        exact hother k (by omega) (by rwa [hcount] at hkn)) (by
        -- the first element is the old median
        intro hpos _ _
        have hold := hother 1 le_rfl (by rwa [hcount] at hpos)
        change ¬d.other.lt (m.key (d.other.place 1)) (m.key (d.other.place 0)) at hold
        rwa [hsame 1 le_rfl, (harrives htop).2, ← lt_other, ← place_zero d.other])
    exact ⟨hshuf.trans hsunk, hboth⟩
  · rename_i htop
    have hroot := hstays (Bool.not_eq_true _ ▸ htop)
    have hkeys : ∀ k, (m.sortUp d i).1.key (d.other.place k) = m.key (d.other.place k) := by
      intro k
      by_cases hzero : k = 0
      · rw [hzero, place_zero, hroot]
      · exact hsame k (by omega)
    refine ⟨hshuf, fun d' => ?_⟩
    rcases d.eq_or_eq_other d' with rfl | rfl
    · exact hordered
    · intro k hk hkn
      show ¬d.other.lt ((m.sortUp d i).1.key _) ((m.sortUp d i).1.key _)
      rw [hkeys, hkeys]
      exact hother k hk (by rwa [hcount] at hkn)

theorem fit_spec (hlink : Linked m) (hcnt : Counted m) (h : ∀ d : Side, ∀ k, 2 ≤ k → k ≤ m.count d →
      ¬d.lt (m.key (d.place k)) (m.key (d.place (k / 2))))
    (hfst : 1 ≤ m.maxCt → 1 ≤ m.minCt → m.key (-1) ≤ m.key 1) :
    Shuffled m (sinkRoot .min (sinkRoot .max m)) ∧
      ∀ d, Ordered d (sinkRoot .min (sinkRoot .max m)) := by
  obtain ⟨hmax, hordered, hkept, hroot⟩ := sinkRoot_spec hlink hcnt (h .max)
  obtain ⟨hmin, hboth⟩ := sinkRoot_keeps hmax.linked (hcnt.shuffled hmax) hordered (by
      intro k hk hkn
      rw [hkept k (by omega), hkept (k / 2) (by omega)]
      exact h .min k hk (by rwa [hmax.count] at hkn)) (by
      intro hpos habove hcount
      rw [hmax.count] at hpos hcount
      have hle := not_lt.mpr (hfst hcount hpos)
      have hone : (sinkRoot .max m).key 1 = m.key 1 := hkept 1 le_rfl
      change (sinkRoot .max m).key 1 < (sinkRoot .max m).key 0 at habove
      show ¬(sinkRoot .max m).key 1 < (sinkRoot .max m).key (-1)
      rcases hroot with hroot | ⟨-, -, hroot⟩
      · rwa [hroot]
      · -- the median has come up from the max heap, so nothing comes up from the min heap
        rw [hone, hroot] at habove
        exact absurd habove hle)
  exact ⟨hmax.trans hmin, hboth⟩

theorem sortUp_one (m : RollingMedian Item) :
    m.sortUp d 1 = if d.lt (m.key (d.place 1)) (m.key 0) then (m.exchange d 1 0, true)
      else (m, false) := by
  have hkey : (view d).key m (1 / 2) = m.key 0 := by
    show m.key (d.place 0) = m.key 0
    rw [place_zero]
  rw [sortUp, siftUp, siftUpFrom, hkey]
  by_cases hlt : d.lt (m.key (d.place 1)) (m.key 0)
  · rw [if_pos ⟨Nat.one_pos, hlt⟩, if_pos hlt]
    rfl
  · rw [if_neg (fun h => hlt h.2), if_neg hlt]
    rfl

theorem sinkRoot_of_count {d : Side} (hcnt : m.count d ≠ 0) : sinkRoot d m =
      if (m.sortUp d 1).2 then (m.sortUp d 1).1.sortDown d 1 else (m.sortUp d 1).1 := by
  rw [sortUp_one, sinkRoot]
  by_cases hlt : d.lt (m.key (d.place 1)) (m.key 0)
  · simp [hcnt, hlt]
  · simp [hlt]

theorem sinkRoot_eq (m : RollingMedian Item) : sinkRoot d m = if m.count d ≠ 0 then
      (if (m.sortUp d 1).2 then (m.sortUp d 1).1.sortDown d 1 else (m.sortUp d 1).1) else m := by
  split
  · rename_i hcnt
    exact sinkRoot_of_count hcnt
  · rename_i hcnt
    rw [sinkRoot, if_neg fun h => hcnt h.1]

theorem sortUp_maxCt (m : RollingMedian Item) (i : ℕ) : (m.sortUp d i).1.maxCt = m.maxCt := by
  refine siftUp_invariant (fun m' : RollingMedian Item => m'.maxCt = m.maxCt) rfl ?_
  intro m' k j _ _ hm'
  rw [← hm']
  cases d <;> rfl

theorem raiseMin_eq (hmax : m.maxCt ≠ 0) : m.raiseMin i = raise .min m i := by
  rw [← sortUp_maxCt .min m i] at hmax
  rw [raise, Side.other, sinkRoot_of_count (d := .max) hmax, sortUp_one]
  rfl

theorem raiseMax_eq (i : ℕ) : m.raiseMax i = raise .max m i := by
  show (if (m.sortUp .max i).2 = true ∧ (m.sortUp .max i).1.minCt ≠ 0 then _
    else (m.sortUp .max i).1) = _
  unfold raise
  by_cases htop : (m.sortUp .max i).2 = true
  · rw [if_pos htop]
    by_cases hmin : (m.sortUp .max i).1.minCt = 0
    · rw [if_neg (fun h => h.2 hmin), Side.other, sinkRoot, if_neg (fun h => h.1 hmin)]
    · rw [if_pos ⟨htop, hmin⟩, Side.other, sinkRoot_of_count (d := .min) hmin, sortUp_one]
      rfl
  · rw [if_neg (fun h => htop h.1), if_neg htop]

theorem lowerMedian_eq : m.lowerMedian = sinkRoot .max m := (sinkRoot_eq .max m).symm

theorem liftMedian_eq : m.liftMedian = sinkRoot .min m := (sinkRoot_eq .min m).symm

end Order

section Insertion

variable {Item : Type} [LinearOrder Item] {m m' m'' : RollingMedian Item} {v : Item}

/-- A state between two calls. -/
structure Valid (m : RollingMedian Item) : Prop where
  idx : m.idx < m.N
  le : m.sz ≤ m.N
  filling : m.sz < m.N → m.idx = m.sz
  minCt : m.minCt = (m.sz - 1) / 2
  maxCt : m.maxCt = m.sz / 2
  linked : Linked m
  ordered : ∀ d, Ordered d m

/-- The queue after a value has been written over the oldest one. -/
structure Written (m : RollingMedian Item) (v : Item) (m' : RollingMedian Item) : Prop where
  N : m'.N = m.N
  data : m'.data = update m.data m.idx v
  idx : m'.idx = (m.idx + 1) % m.N
  sz : m'.sz = min (m.sz + 1) m.N

/-- A state in which the value is written and counted, but not yet in order. -/
structure Prepared (m : RollingMedian Item) (v : Item) (m' : RollingMedian Item) : Prop where
  written : Written m v m'
  linked : Linked m'
  counted : Counted m'
  key : ∀ k, Active m.N k → m'.key k = if k = m.pos m.idx then v else m.key k

theorem prepared_store (h : Valid m) (v : Item) (minCt maxCt : ℕ)
    (hmin : minCt = (min (m.sz + 1) m.N - 1) / 2) (hmax : maxCt = min (m.sz + 1) m.N / 2) :
    Prepared m v { m.store v with minCt := minCt, maxCt := maxCt } := by
  have hidx := h.idx
  have hsize : 1 ≤ min (m.sz + 1) m.N ∧ m.sz ≤ min (m.sz + 1) m.N ∧ min (m.sz + 1) m.N ≤ m.N := by
    have := h.le
    omega
  refine ⟨⟨rfl, rfl, rfl, rfl⟩, ⟨h.linked.active, h.linked.heap_pos, h.linked.pos_heap, ?_⟩,
    ⟨hsize.1, hsize.2.2, hmin, hmax⟩, ?_⟩
  · intro d hd hdN
    exact h.linked.waiting d (hsize.2.1.trans hd) hdN
  · intro k hk
    show update m.data m.idx v (m.heap k) = _
    have hiff := h.linked.heap_eq_iff hk h.idx
    rw [update_apply]
    by_cases hkey : k = m.pos m.idx
    · rw [if_pos hkey, if_pos (hiff.mpr hkey.symm).symm]
    · rw [if_neg hkey, if_neg (fun heq => hkey (hiff.mp heq.symm).symm)]
      rfl

theorem Prepared.valid (hprep : Prepared m v m') (h : Valid m) (hshuf : Shuffled m' m'')
    (hordered : ∀ d, Ordered d m'') : Valid m'' ∧ Written m v m'' := by
  obtain ⟨⟨hN, hdata, hidx, hsz⟩, -, hcnt, -⟩ := hprep
  have hcnt' := hcnt.shuffled hshuf
  refine ⟨⟨?_, hcnt'.le, ?_, hcnt'.minCt, hcnt'.maxCt, hshuf.linked, hordered⟩,
    hshuf.N.trans hN, hshuf.data.trans hdata, hshuf.idx.trans hidx, hshuf.sz.trans hsz⟩
  · rw [hshuf.idx, hshuf.N, hidx, hN]
    exact Nat.mod_lt _ (by have := h.idx; omega)
  · rw [hshuf.sz, hshuf.N, hshuf.idx, hidx, hsz, hN]
    intro hfilling
    have hlt : m.sz + 1 < m.N := by omega
    rw [h.filling (by omega), Nat.mod_eq_of_lt hlt, Nat.min_eq_left hlt.le]

theorem Prepared.ordered_other (hprep : Prepared m v m') (h : Valid m) (d : Side) {i : ℕ}
    (hi : 1 ≤ i) (hp : m.pos m.idx = d.place i) (hcount : m'.count d.other = m.count d.other) :
    Ordered d.other m' := by
  have hcnt := hprep.counted
  have hkeys : ∀ k, k ≤ m.count d.other → m'.key (d.other.place k) = m.key (d.other.place k) := by
    intro k hk
    have hact := (hcnt.active d.other k (by rw [hcount]; exact hk)).mono hcnt.le
    rw [hprep.written.N] at hact
    rw [hprep.key _ hact, if_neg]
    rw [hp]
    exact (place_ne_other d hi).symm
  intro k hk hkn
  rw [hcount] at hkn
  show ¬d.other.lt (m'.key _) (m'.key _)
  rw [hkeys k hkn, hkeys (k / 2) (by omega)]
  exact h.ordered d.other k hk hkn

omit [LinearOrder Item] in
theorem Prepared.key_place (hprep : Prepared m v m') (d : Side) {i : ℕ}
    (hp : m.pos m.idx = d.place i) (k : ℕ) (hk : k ≤ m'.count d) :
    (view d).key m' k = if k = i then v else m.key (d.place k) := by
  have hcnt := hprep.counted
  have hact := (hcnt.active d k hk).mono hcnt.le
  rw [hprep.written.N] at hact
  show m'.key (d.place k) = _
  rw [hprep.key _ hact, hp]
  simp only [d.place_injective.eq_iff]

variable {d : Side}

theorem insert_raised (h : Valid m) (hprep : Prepared m v m') {i : ℕ} (hi : 1 ≤ i)
    (hp : m.pos m.idx = d.place i) (hin : i ≤ m'.count d)
    (hother : m'.count d.other = m.count d.other)
    (hup : UpOrder d.lt (m'.count d) ((view d).key m') i) :
    Valid (raise d m' i) ∧ Written m v (raise d m' i) := by
  obtain ⟨hshuf, hordered⟩ := raise_spec hprep.linked hprep.counted hi hin hup
    (hprep.ordered_other h d hi hp hother)
  exact hprep.valid h hshuf hordered

theorem insert_lower (h : Valid m) (hprep : Prepared m v m') {i : ℕ} (hi : 1 ≤ i)
    (hp : m.pos m.idx = d.place i) (hother : m'.count d.other = m.count d.other)
    (hdown : DownOrder d.lt (m'.count d) ((view d).key m') i) :
    Valid (m'.sortDown d i) ∧ Written m v (m'.sortDown d i) := by
  obtain ⟨hshuf, hd, hkept⟩ := sortDown_spec hprep.linked hprep.counted hi hdown
  have hordered := hprep.ordered_other h d hi hp hother
  refine hprep.valid h hshuf fun d' => ?_
  rcases d.eq_or_eq_other d' with rfl | rfl
  · exact hd
  · intro k hk hkn
    rw [hshuf.count] at hkn
    show ¬d.other.lt ((m'.sortDown d i).key _) ((m'.sortDown d i).key _)
    rw [hkept, hkept]
    exact hordered k hk hkn

theorem insert_median (h : Valid m) (hprep : Prepared m v m') (hp : m.pos m.idx = 0)
    (hcnt : ∀ d, m'.count d = m.count d) :
    Valid (sinkRoot .min (sinkRoot .max m')) ∧ Written m v (sinkRoot .min (sinkRoot .max m')) := by
  have hkeys : ∀ d : Side, ∀ k, 1 ≤ k → k ≤ m.count d → m'.key (d.place k) = m.key (d.place k) := by
    intro d k hk hkn
    have hkey := hprep.key_place (i := 0) d (by rw [hp, place_zero]) k (by rw [hcnt]; exact hkn)
    rwa [if_neg (by omega)] at hkey
  have hfit := fit_spec hprep.linked hprep.counted (by
      intro d k hk hkn
      rw [hcnt] at hkn
      rw [hkeys d k (by omega) hkn, hkeys d (k / 2) (by omega) (by omega)]
      exact h.ordered d k (by omega) hkn) (by
      intro hmax hmin
      rw [show m'.maxCt = m.maxCt from hcnt .max] at hmax
      rw [show m'.minCt = m.minCt from hcnt .min] at hmin
      have hlow : ¬m.key 0 < m.key (-1) := h.ordered .max 1 le_rfl hmax
      have hhigh : ¬m.key 1 < m.key 0 := h.ordered .min 1 le_rfl hmin
      rw [show m'.key (-1) = m.key (-1) from hkeys .max 1 le_rfl hmax,
        show m'.key 1 = m.key 1 from hkeys .min 1 le_rfl hmin]
      exact (not_lt.mp hlow).trans (not_lt.mp hhigh))
  exact hprep.valid h hfit.1 hfit.2

theorem Valid.pos_filling (h : Valid m) (hlt : m.sz < m.N) : m.pos m.idx = slot m.sz := by
  rw [h.filling hlt]
  exact h.linked.waiting m.sz le_rfl hlt

theorem Valid.prepared_full (h : Valid m) (v : Item) (hfull : m.sz = m.N) :
    Prepared m v (m.store v) := by
  have hmin := h.minCt
  have hmax := h.maxCt
  have hidx := h.idx
  exact prepared_store h v m.minCt m.maxCt (by omega) (by omega)

/-- The size that a heap has in the end. -/
def capacity (m : RollingMedian Item) : Side → ℕ
  | .min => (m.N - 1) / 2
  | .max => m.N / 2

/-- The heap has one element more. -/
def grow (m : RollingMedian Item) : Side → RollingMedian Item
  | .min => { m with minCt := m.minCt + 1 }
  | .max => { m with maxCt := m.maxCt + 1 }

theorem Valid.prepared_grow (h : Valid m) (v : Item) (d : Side) {i : ℕ} (hi : 1 ≤ i)
    (hp : slot m.sz = d.place i) (hlt : m.sz < m.N) :
    Prepared m v ((m.store v).grow d) ∧ i = m.count d + 1 ∧ m.count d < m.capacity d := by
  have hmin := h.minCt
  have hmax := h.maxCt
  cases d with
  | min =>
    have heven : m.sz % 2 = 0 ∧ i = m.sz / 2 := by
      change slot m.sz = (i : ℤ) at hp
      unfold slot at hp
      split at hp <;> omega
    refine ⟨prepared_store h v (m.minCt + 1) m.maxCt (by omega) (by omega), ?_, ?_⟩
    · show i = m.minCt + 1
      omega
    · show m.minCt < (m.N - 1) / 2
      omega
  | max =>
    have hodd : m.sz % 2 = 1 ∧ i = (m.sz + 1) / 2 := by
      change slot m.sz = -(i : ℤ) at hp
      unfold slot at hp
      split at hp <;> omega
    refine ⟨prepared_store h v m.minCt (m.maxCt + 1) (by omega) (by omega), ?_, ?_⟩
    · show i = m.maxCt + 1
      omega
    · show m.maxCt < m.N / 2
      omega

theorem Valid.count_full (h : Valid m) (hfull : m.sz = m.N) (d : Side) :
    m.count d = m.capacity d := by
  have hmin := h.minCt
  have hmax := h.maxCt
  rw [hfull] at hmin hmax
  cases d
  · exact hmin
  · exact hmax

/-- The branch of `insert` for a value whose place is in a heap. -/
def insertBeside (d : Side) (m : RollingMedian Item) (v : Item) (i : ℕ) : RollingMedian Item :=
  if (m.store v).count d < (m.store v).capacity d then raise d ((m.store v).grow d) i
  else if d.lt (m.data m.idx) v then (m.store v).sortDown d i
  else raise d (m.store v) i

theorem insertBeside_spec (h : Valid m) (v : Item) (d : Side) {i : ℕ} (hi : 1 ≤ i)
    (hp : m.pos m.idx = d.place i) :
    Valid (insertBeside d m v i) ∧ Written m v (insertBeside d m v i) := by
  have hcnt : ∀ d, (m.store v).count d = m.count d := fun d => by cases d <;> rfl
  have hcapacity : (m.store v).capacity d = m.capacity d := by cases d <;> rfl
  rw [insertBeside, hcnt, hcapacity]
  by_cases hlt : m.sz < m.N
  · -- the value is new: the places are filled in turn
    obtain ⟨hprep, hlast, hroom⟩ := h.prepared_grow v d hi (h.pos_filling hlt ▸ hp) hlt
    have hgrown : ((m.store v).grow d).count d = m.count d + 1 := by cases d <;> rfl
    rw [if_pos hroom]
    refine insert_raised h hprep hi hp (by omega) (by cases d <;> rfl) ?_
    rw [hgrown, hlast]
    refine (h.ordered d).append_up fun k hk => ?_
    rw [hprep.key_place d hp k (by omega), if_neg (by omega)]
    rfl
  · have hfull : m.sz = m.N := by
      have := h.le
      omega
    have hprep := h.prepared_full v hfull
    have hin : i ≤ m.count d := by
      have hact := h.linked.active m.idx h.idx
      rw [hp] at hact
      rw [h.count_full hfull]
      cases d <;> simp only [Active, Side.place, capacity] at * <;> omega
    have hkey : m.key (d.place i) = m.data m.idx := by
      rw [← hp]
      show m.data (m.heap (m.pos m.idx)) = _
      rw [h.linked.heap_pos _ h.idx]
    have hsame : ∀ k, k ≤ m.count d → k ≠ i → (view d).key (m.store v) k = (view d).key m k := by
      intro k hk hki
      rw [hprep.key_place d hp k (by rwa [hcnt]), if_neg hki]
      rfl
    have hnew : (view d).key (m.store v) i = v := by
      rw [hprep.key_place d hp i (by rwa [hcnt]), if_pos rfl]
    have hold : (view d).key m i = m.data m.idx := hkey
    rw [if_neg (by rw [h.count_full hfull]; exact lt_irrefl _)]
    split
    · rename_i hlower
      refine insert_lower h hprep hi hp (hcnt _) ?_
      rw [hcnt]
      refine (h.ordered d).replace_down (weakOrder d) hi hin hsame ?_
      rw [hnew, hold]
      exact (weakOrder d).asymm _ _ hlower
    · rename_i hhigher
      refine insert_raised h hprep hi hp (by rwa [hcnt]) (hcnt _) ?_
      rw [hcnt]
      refine (h.ordered d).replace_up (weakOrder d) hi hin hsame ?_
      rwa [hnew, hold]

theorem Valid.prepared_median (h : Valid m) (v : Item) (hp : m.pos m.idx = 0) :
    Prepared m v (m.store v) := by
  have hmin := h.minCt
  have hmax := h.maxCt
  have hle := h.le
  have hslot : m.sz < m.N → m.pos m.idx = slot m.sz := h.pos_filling
  unfold slot at hslot
  by_cases hlt : m.sz < m.N
  · -- the first value of all
    have hfst : m.sz = 0 := by
      split at hslot <;> omega
    exact prepared_store h v m.minCt m.maxCt (by omega) (by omega)
  · exact h.prepared_full v (by omega)

theorem insert_spec (h : Valid m) (v : Item) : Valid (m.insert v) ∧ Written m v (m.insert v) := by
  have hmin := h.minCt
  have hmax := h.maxCt
  have hle := h.le
  have hact := h.linked.active m.idx h.idx
  unfold Active at hact
  have hslot : m.sz < m.N → m.pos m.idx = slot m.sz := h.pos_filling
  unfold slot at hslot
  unfold insert
  dsimp only
  split
  · rename_i hp
    -- above the median there is a value only if there is one below it
    have hbelow : m.maxCt ≠ 0 := by
      split at hslot <;> omega
    rw [raiseMin_eq (show (m.store v).maxCt ≠ 0 from hbelow), raiseMin_eq]
    · refine insertBeside_spec h v .min (i := (m.pos m.idx).toNat) (by omega) ?_
      show m.pos m.idx = ((m.pos m.idx).toNat : ℤ)
      omega
    · exact hbelow
  · split
    · rw [raiseMax_eq, raiseMax_eq]
      refine insertBeside_spec h v .max (i := (-m.pos m.idx).toNat) (by omega) ?_
      show m.pos m.idx = -((-m.pos m.idx).toNat : ℤ)
      omega
    · have hzero : m.pos m.idx = 0 := by omega
      rw [lowerMedian_eq, liftMedian_eq]
      exact insert_median h (h.prepared_median v hzero) hzero fun d => by cases d <;> rfl

end Insertion

end Monzero.RollingMedian
