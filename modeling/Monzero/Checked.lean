import Mathlib.Data.List.Forall2
import Mathlib.Data.List.Nodup

/-!
Fallible code that reports through an error value: guards, sequences of
guards over a list, and loops that thread a state. Each combinator comes with
the statement of when it succeeds, so that a successful run can be taken
apart into the facts it established.
-/
namespace Monzero.Checked

open List

variable {ε α β σ : Type}

/-- `if (condition) return fail(message);` -/
def failIf (p : Prop) [Decidable p] (message : ε) : Except ε Unit :=
  if p then .error message else .ok ()

theorem failIf_eq_ok (p : Prop) [Decidable p] (msg : ε) (u : Unit) : failIf p msg = .ok u ↔ ¬p := by
  by_cases hp : p <;> simp [failIf, hp]

theorem failIf_eq_error (p : Prop) [Decidable p] (msg e : ε) :
    failIf p msg = .error e ↔ p ∧ msg = e := by
  by_cases hp : p <;> simp [failIf, hp]

theorem failIf_of_not {p : Prop} [Decidable p] (msg : ε) (hp : ¬p) : failIf p msg = .ok () := by
  simp [failIf, hp]

variable (a : α) {R : α → β → Prop} (x : Except ε α) (f : α → Except ε β) {l : List α}
  (step : σ → α → Except ε σ)

/-- A sequence succeeds exactly when its first part does and the rest does on that value. -/
theorem bind_eq_ok (b : β) : (x >>= f) = .ok b ↔ ∃ a, x = .ok a ∧ f a = .ok b := by
  cases x <;> simp [bind, Except.bind]

theorem bind_eq_error (e : ε) :
    (x >>= f) = .error e ↔ x = .error e ∨ ∃ a, x = .ok a ∧ f a = .error e := by
  cases x <;> simp [bind, Except.bind]

/-- Code none of whose parts fails with a message does not fail with it. -/
theorem bind_ne_error {x : Except ε α} {f : α → Except ε β} {e : ε} (hx : x ≠ .error e)
    (hf : ∀ a, f a ≠ .error e) : (x >>= f) ≠ .error e := by
  rw [ne_eq, bind_eq_error]
  rintro (h | ⟨a, -, h⟩)
  · exact hx h
  · exact hf a h

theorem failIf_ne_error (p : Prop) [Decidable p] {msg e : ε} (h : msg ≠ e) :
    failIf p msg ≠ .error e :=
  fun hfail => h ((failIf_eq_error ..).mp hfail).2

@[simp] theorem ok_bind : (Except.ok a >>= f) = f a := rfl

theorem pure_eq_ok (a b : α) : (pure a : Except ε α) = .ok b ↔ a = b := by
  simp [pure, Except.pure]

theorem mapError_eq_ok (f : ε → β) (a : α) : x.mapError f = .ok a ↔ x = .ok a := by
  cases x <;> simp [Except.mapError]

theorem mapError_eq_error (f : ε → β) (b : β) :
    x.mapError f = .error b ↔ ∃ e, x = .error e ∧ f e = b := by
  cases x <;> simp [Except.mapError]

theorem exists_unit (p : Unit → Prop) : (∃ u, p u) ↔ p () :=
  ⟨fun ⟨_, h⟩ => h, fun h => ⟨(), h⟩⟩

theorem exists_of_isOk {x : Except ε α} (h : x.isOk = true) : ∃ a, x = .ok a := by
  cases x with
  | error e => simp [Except.isOk, Except.toBool] at h
  | ok a => exact ⟨a, rfl⟩

/-- A loop whose body only checks: it stops at the first element that fails. -/
def checkAll (check : α → Except ε Unit) : List α → Except ε Unit
  | [] => .ok ()
  | a :: rest => do
      check a
      checkAll check rest

theorem checkAll_eq_ok (check : α → Except ε Unit) (l : List α) (u : Unit) :
    checkAll check l = .ok u ↔ ∀ a ∈ l, check a = .ok () := by
  induction l with
  | nil => simp [checkAll]
  | cons a rest ih =>
    simp [checkAll, bind_eq_ok, exists_unit, ih]

theorem checkAll_congr {check check' : α → Except ε Unit} (h : ∀ a ∈ l, check a = check' a) :
    checkAll check l = checkAll check' l := by
  induction l with
  | nil => rfl
  | cons a rest ih =>
    simp [checkAll, h a mem_cons_self, ih fun b hb => h b (mem_cons_of_mem _ hb)]

/-- A loop that threads a state and stops at the first element that fails. -/
def loop (step : σ → α → Except ε σ) : List α → σ → Except ε σ
  | [], s => .ok s
  | a :: rest, s => do
      let s' ← step s a
      loop step rest s'

@[simp] theorem loop_nil (s : σ) : loop step [] s = .ok s := rfl

variable {step} in
theorem loop_cons_eq_ok {a : α} {rest : List α} {s t : σ} :
    loop step (a :: rest) s = .ok t ↔ ∃ s', step s a = .ok s' ∧ loop step rest s' = .ok t :=
  bind_eq_ok ..

theorem loop_congr {step step' : σ → α → Except ε σ} (h : ∀ s, ∀ a ∈ l, step s a = step' s a)
    (s : σ) : loop step l s = loop step' l s := by
  induction l generalizing s with
  | nil => rfl
  | cons a rest ih =>
    simp [loop, h s a mem_cons_self, ih fun s b hb => h s b (mem_cons_of_mem _ hb)]

theorem loop_turn (l : List α) (s t : σ) (h : loop step l s = .ok t) (a : α) (ha : a ∈ l) :
    ∃ s' t', step s' a = .ok t' := by
  induction l generalizing s with
  | nil => simp at ha
  | cons b rest ih =>
    obtain ⟨next, hstep, hrest⟩ := loop_cons_eq_ok.mp h
    rcases mem_cons.mp ha with rfl | ha
    · exact ⟨s, next, hstep⟩
    · exact ih next hrest ha

theorem loop_eq_error (l : List α) (s : σ) (e : ε) (h : loop step l s = .error e) :
    ∃ a ∈ l, ∃ s', step s' a = .error e := by
  induction l generalizing s with
  | nil => cases h
  | cons a rest ih =>
    rcases (bind_eq_error _ _ _).mp h with ha | ⟨s', -, hrest⟩
    · exact ⟨a, mem_cons_self, s, ha⟩
    · obtain ⟨b, hb, hstep⟩ := ih s' hrest
      exact ⟨b, mem_cons_of_mem _ hb, hstep⟩

theorem loop_append (l l' : List α) (s : σ) :
    loop step (l ++ l') s = loop step l s >>= loop step l' := by
  induction l generalizing s with
  | nil => rfl
  | cons a rest ih =>
    simp only [cons_append, loop, bind_assoc]
    congr 1
    funext s'
    exact ih s'

theorem loop_component {τ : Type} (inner : τ → β → Except ε τ) (wrap : τ → σ) (inject : β → α)
    (h : ∀ u b, step (wrap u) (inject b) = inner u b >>= fun u' => pure (wrap u')) (l : List β)
    (u : τ) : loop step (l.map inject) (wrap u) = loop inner l u >>= fun u' => pure (wrap u') := by
  induction l generalizing u with
  | nil => rfl
  | cons b rest ih => simp only [map_cons, loop, h, bind_assoc, pure_bind, ih]

theorem loop_invariant {step : σ → α → Except ε σ} (I : σ → Prop)
    (hstep : ∀ s a s', a ∈ l → I s → step s a = .ok s' → I s') {s t : σ} (hs : I s)
    (h : loop step l s = .ok t) : I t := by
  induction l generalizing s with
  | nil =>
    cases h
    exact hs
  | cons a rest ih =>
    obtain ⟨s', ha, hrest⟩ := loop_cons_eq_ok.mp h
    exact ih (fun s b s' hb => hstep s b s' (mem_cons_of_mem _ hb))
      (hstep s a s' mem_cons_self hs ha) hrest

theorem exists_forall₂ (l : List α) (h : ∀ a ∈ l, ∃ b, R a b) : ∃ l', List.Forall₂ R l l' := by
  induction l with
  | nil => exact ⟨[], List.Forall₂.nil⟩
  | cons a rest ih =>
    obtain ⟨b, hb⟩ := h a mem_cons_self
    obtain ⟨bs, hbs⟩ := ih fun a ha => h a (mem_cons_of_mem _ ha)
    exact ⟨b :: bs, List.Forall₂.cons hb hbs⟩

theorem forall₂_partner {l' : List β} (h : List.Forall₂ R l l') :
    (∀ a ∈ l, ∃ b ∈ l', R a b) ∧ ∀ b ∈ l', ∃ a ∈ l, R a b := by
  induction h with
  | nil => simp
  | cons hab _ ih =>
    constructor
    · intro a ha
      rcases mem_cons.mp ha with rfl | ha
      · exact ⟨_, mem_cons_self, hab⟩
      · obtain ⟨b, hb, hR⟩ := ih.1 a ha
        exact ⟨b, mem_cons_of_mem _ hb, hR⟩
    · intro b hb
      rcases mem_cons.mp hb with rfl | hb
      · exact ⟨_, mem_cons_self, hab⟩
      · obtain ⟨a, ha, hR⟩ := ih.2 b hb
        exact ⟨a, mem_cons_of_mem _ ha, hR⟩

theorem map_eq_of_forall₂ {γ : Type} {f : α → γ} {g : β → γ} (hR : ∀ a b, R a b → g b = f a)
    {l' : List β} (h : List.Forall₂ R l l') : l'.map g = l.map f := by
  induction h with
  | nil => rfl
  | cons hab _ ih => rw [map_cons, map_cons, hR _ _ hab, ih]

theorem forall₂_zip_partner {l' : List β} (h : List.Forall₂ R l l') {a : α} (ha : a ∈ l) :
    ∃ b, (b, a) ∈ l'.zip l ∧ R a b := by
  induction h with
  | nil => simp at ha
  | cons hab _ ih =>
    rcases mem_cons.mp ha with rfl | ha
    · exact ⟨_, mem_cons_self, hab⟩
    · obtain ⟨b, hb, hR⟩ := ih ha
      exact ⟨b, mem_cons_of_mem _ hb, hR⟩

/-- A loop that computes one value per element and stops at the first that fails. -/
def mapAll (f : α → Except ε β) : List α → Except ε (List β)
  | [] => .ok []
  | a :: rest => do
      let b ← f a
      let bs ← mapAll f rest
      return b :: bs

theorem mapAll_eq_ok (l : List α) (bs : List β) :
    mapAll f l = .ok bs ↔ List.Forall₂ (fun a b => f a = .ok b) l bs := by
  induction l generalizing bs with
  | nil => simp [mapAll, eq_comm]
  | cons a rest ih =>
    simp only [mapAll, bind_eq_ok, pure_eq_ok, ih, forall₂_cons_left_iff]
    constructor
    · rintro ⟨b, hb, bs', hbs', rfl⟩
      exact ⟨b, bs', hb, hbs', rfl⟩
    · rintro ⟨b, bs', hb, hbs', rfl⟩
      exact ⟨b, hb, bs', hbs', rfl⟩

theorem mapAll_congr {f g : α → Except ε β} (h : ∀ a ∈ l, f a = g a) : mapAll f l = mapAll g l := by
  induction l with
  | nil => rfl
  | cons a rest ih =>
    simp [mapAll, h a mem_cons_self, ih fun b hb => h b (mem_cons_of_mem _ hb)]

/-- A loop of writes on a store. A write that fails ends the loop, and the store
keeps what was written before it. -/
def performAll (write : σ → α → Except ε σ) : List α → σ → Except ε Unit × σ
  | [], s => (.ok (), s)
  | a :: rest, s =>
      match write s a with
      | .error e => (.error e, s)
      | .ok s' => performAll write rest s'

/-- A loop of writes reports success exactly when the state-threading loop succeeds,
and then both end in the same store. -/
theorem performAll_eq_ok (write : σ → α → Except ε σ) {l : List α} {s t : σ} (u : Unit) :
    performAll write l s = (.ok u, t) ↔ loop write l s = .ok t := by
  induction l generalizing s with
  | nil => simp [performAll, loop]
  | cons a rest ih =>
    rw [loop_cons_eq_ok, performAll]
    cases write s a <;> simp [ih]

/-- A loop of writes that may each fail half way: the store keeps what the failing write
did as well. -/
def performEach (write : σ → α → Except ε Unit × σ) : List α → σ → Except ε Unit × σ
  | [], s => (.ok (), s)
  | a :: rest, s =>
      match write s a with
      | (.error e, s') => (.error e, s')
      | (.ok (), s') => performEach write rest s'

/-- The outcome of a write that is all or nothing on the images of another store. -/
def settle {τ : Type} (image : τ → σ) (u : τ) : Except ε τ → Except ε Unit × σ
  | .error e => (.error e, image u)
  | .ok u' => (.ok (), image u')

theorem performEach_image {τ : Type} (write : σ → α → Except ε Unit × σ)
    (inner : τ → α → Except ε τ) (image : τ → σ)
    (h : ∀ u a, write (image u) a = settle image u (inner u a)) (l : List α) (u : τ) :
    performEach write l (image u) = ((performAll inner l u).1, image (performAll inner l u).2) := by
  induction l generalizing u with
  | nil => rfl
  | cons a rest ih =>
    rw [performEach, performAll, h]
    cases inner u a with
    | error e => rfl
    | ok u' => exact ih u'

end Monzero.Checked
