import Mathlib.Logic.Relation
import Mathlib.Logic.Function.Basic
import Mathlib.Data.Set.Insert
import Mathlib.Data.List.TakeWhile
import Mathlib.Order.Basic

/-!
A keyed store that logs its changes with the time of a clock, so that a reader who has seen it
once can catch up. What is stored may be hidden from some of the readers. An addition
overwrites the time of the key, removals are kept in a list by time. Removals are forgotten from
the oldest on, and both logs may be dropped as a whole. Each log has a start: the time from
which on it is known to go back, zero for none. A reader whose time is later than both starts
gets what was added and removed since, and the store as it is now from them. This holds
although the clock may stand still over many changes.
-/
namespace ChangeLog

open List
open Function (update)

variable {κ ν α : Type*}

/-- A map from times to values, several of which may have one time. -/
structure Timeline (α : Type*) where
  entries : List (ℕ × α)
  sorted : entries.Pairwise fun a b => a.1 ≤ b.1

namespace Timeline

def empty : Timeline α := ⟨[], List.Pairwise.nil⟩

private theorem le_of_mem_dropWhile {p : ℕ × α → Bool} {n : ℕ} (hp : ∀ a, p a = false → n ≤ a.1)
    {es : List (ℕ × α)} (h : es.Pairwise fun a b => a.1 ≤ b.1) : ∀ a ∈ es.dropWhile p, n ≤ a.1 := by
  induction es with
  | nil => exact fun a ha => by cases ha
  | cons e rest ih =>
    rw [pairwise_cons] at h
    intro a ha
    by_cases he : p e
    · rw [dropWhile_cons_of_pos he] at ha
      exact ih h.2 a ha
    · rw [dropWhile_cons_of_neg he] at ha
      have hn := hp e (by simpa using he)
      rcases mem_cons.mp ha with rfl | ha
      · exact hn
      · exact hn.trans (h.1 a ha)

/-- A new entry comes after those of the same time. -/
def insert (t : Timeline α) (time : ℕ) (value : α) : Timeline α where
  entries := (t.entries.takeWhile fun a => a.1 ≤ time) ++
    (time, value) :: t.entries.dropWhile fun a => a.1 ≤ time
  sorted := by
    have hbefore : ∀ a ∈ t.entries.takeWhile fun a => a.1 ≤ time, a.1 ≤ time := fun a ha => by
      simpa using mem_takeWhile_imp ha
    have hafter : ∀ a ∈ t.entries.dropWhile fun a => a.1 ≤ time, time ≤ a.1 :=
      le_of_mem_dropWhile (fun a ha => (Nat.lt_of_not_le (of_decide_eq_false ha)).le) t.sorted
    refine pairwise_append.mpr ⟨t.sorted.sublist (takeWhile_sublist _), ?_, ?_⟩
    · exact pairwise_cons.mpr ⟨hafter, t.sorted.sublist (dropWhile_sublist _)⟩
    · intro a ha b hb
      rcases mem_cons.mp hb with rfl | hb
      · exact hbefore a ha
      · exact (hbefore a ha).trans (hafter b hb)

/-- The first entries are erased. -/
def drop (t : Timeline α) (n : ℕ) : Timeline α :=
  ⟨t.entries.drop n, t.sorted.sublist (drop_sublist _ _)⟩

/-- The entries before a time are erased. -/
def since (t : Timeline α) (time : ℕ) : Timeline α :=
  ⟨t.entries.dropWhile fun a => a.1 < time, t.sorted.sublist (dropWhile_sublist _)⟩

theorem mem_insert (t : Timeline α) (time : ℕ) (value : α) (a : ℕ × α) :
    a ∈ (t.insert time value).entries ↔ a = (time, value) ∨ a ∈ t.entries := by
  have hsplit : a ∈ t.entries ↔ a ∈ (t.entries.takeWhile fun a => a.1 ≤ time) ∨
      a ∈ t.entries.dropWhile fun a => a.1 ≤ time := by
    rw [← mem_append, takeWhile_append_dropWhile]
  rw [insert, mem_append, mem_cons, hsplit]
  exact or_left_comm

theorem mem_since (t : Timeline α) (time : ℕ) (a : ℕ × α) :
    a ∈ (t.since time).entries ↔ a ∈ t.entries ∧ time ≤ a.1 := by
  constructor
  · intro ha
    refine ⟨(dropWhile_sublist _).mem ha, ?_⟩
    exact le_of_mem_dropWhile (fun a ha => Nat.le_of_not_lt (of_decide_eq_false ha)) t.sorted a ha
  · rintro ⟨ha, htime⟩
    rw [← takeWhile_append_dropWhile (p := fun a => decide (a.1 < time)) (l := t.entries),
      mem_append] at ha
    rcases ha with ha | ha
    · have hlt : a.1 < time := by simpa using mem_takeWhile_imp ha
      omega
    · exact ha

theorem exists_before_of_since (t : Timeline α) (time : ℕ)
    (hshorter : (t.since time).entries.length < t.entries.length) :
    ∃ a ∈ t.entries, a.1 < time := by
  change (t.entries.dropWhile fun a => a.1 < time).length < t.entries.length at hshorter
  cases hentries : t.entries with
  | nil => simp [hentries] at hshorter
  | cons first rest =>
    refine ⟨first, mem_cons_self, ?_⟩
    by_contra hlate
    rw [hentries, dropWhile_cons_of_neg (by simpa using hlate)] at hshorter
    exact lt_irrefl _ hshorter

/-- What is erased from the front is not later than the first entry that is left, and what is
left is not earlier. -/
theorem drop_spec (t : Timeline α) (n : ℕ) (first : ℕ × α)
    (hfst : (t.drop n).entries.head? = some first) :
    (∀ a ∈ t.entries, a ∉ (t.drop n).entries → a.1 ≤ first.1) ∧
      ∀ a ∈ (t.drop n).entries, first.1 ≤ a.1 := by
  obtain ⟨rest, hrest⟩ : ∃ rest, t.entries.drop n = first :: rest :=
    head?_eq_some_iff.mp hfst
  have hsort := t.sorted
  rw [← take_append_drop n t.entries, hrest, pairwise_append] at hsort
  obtain ⟨_, hlater, hcross⟩ := hsort
  rw [pairwise_cons] at hlater
  show (∀ a ∈ t.entries, a ∉ t.entries.drop n → a.1 ≤ first.1) ∧
    ∀ a ∈ t.entries.drop n, first.1 ≤ a.1
  constructor
  · intro a ha hdropped
    rw [← take_append_drop n t.entries, mem_append] at ha
    rcases ha with ha | ha
    · exact hcross a ha first mem_cons_self
    · exact absurd ha hdropped
  · intro a ha
    rw [hrest, mem_cons] at ha
    rcases ha with rfl | ha
    · exact le_rfl
    · exact hlater.1 a ha

end Timeline

/-- A removal as it is logged. -/
structure Removal (κ : Type*) where
  time : ℕ
  key : κ
  hidden : Bool

/-- A store with its logs: each key with its value and whether it is hidden. -/
@[ext] structure State (κ ν : Type*) where
  items : κ → Option (ν × Bool)
  added : κ → Option ℕ
  addedStart : ℕ
  removals : Set (Removal κ)
  removedStart : ℕ
  clock : ℕ

namespace State

/-- The store as a reader sees it, who may be shown everything or not. -/
def visible (s : State κ ν) (all : Bool) (k : κ) : Option ν :=
  (s.items k).bind fun item => if all || !item.2 then some item.1 else none

/-- The key was added at a time or later. -/
def AddedSince (s : State κ ν) (start : ℕ) (k : κ) : Prop := ∃ t, s.added k = some t ∧ start ≤ t

/-- The removal of the key at a time or later is logged, for a reader. -/
def RemovedSince (s : State κ ν) (all : Bool) (start : ℕ) (k : κ) : Prop :=
  ∃ r ∈ s.removals, r.key = k ∧ start ≤ r.time ∧ (all = true ∨ r.hidden = false)

theorem visible_eq_none_iff {s : State κ ν} {all : Bool} (k : κ) :
    s.visible all k = none ↔ ∀ item, s.items k = some item → all = false ∧ item.2 = true := by
  cases hitem : s.items k with
  | none => simp [visible, hitem]
  | some item => cases all <;> simp [visible, hitem]

/-- Only some of the removals stay in the log, which starts anew. -/
def trim (s : State κ ν) (kept : Set (Removal κ)) (start : ℕ) : State κ ν :=
  { s with removals := kept, removedStart := start }

/-- Both logs are dropped. -/
def clear (s : State κ ν) : State κ ν :=
  { s with added := fun _ => none, addedStart := 0, removals := ∅, removedStart := 0 }

variable [DecidableEq κ]

/-- A key is stored, or stored again, and logged. -/
def add (s : State κ ν) (k : κ) (v : ν) (hidden : Bool) (now : ℕ) : State κ ν :=
  { s with
    items := update s.items k (some (v, hidden))
    added := update s.added k (some now)
    addedStart := if s.addedStart = 0 then now else s.addedStart
    clock := now }

/-- A key is removed and logged. -/
def remove (s : State κ ν) (k : κ) (hidden : Bool) (now : ℕ) : State κ ν :=
  { s with
    items := update s.items k none
    added := update s.added k none
    removals := Insert.insert ⟨now, k, hidden⟩ s.removals
    removedStart := if s.removedStart = 0 then now else s.removedStart
    clock := now }

end State

open State

/-- What holds of the logs at any time. Up to `lost` they may have holes: later changes are
all there. -/
structure Dated (lost : ℕ) (s : State κ ν) : Prop where
  lost_le : lost ≤ s.clock
  starts : s.addedStart ≠ 0 → s.removedStart ≠ 0 → lost ≤ max s.addedStart s.removedStart
  removals : ∀ r ∈ s.removals, lost ≤ r.time ∧ r.time ≤ s.clock
  /-- What was removed and is there again was added again since. -/
  again : ∀ r ∈ s.removals, s.items r.key ≠ none → s.AddedSince r.time r.key

/-- What a view taken at a time and the logs since say about the store. -/
structure Follows (all : Bool) (view : κ → Option ν) (moment lost : ℕ) (s : State κ ν) : Prop
    extends Dated lost s where
  moment_le : moment ≤ s.clock
  shown : ∀ start ≤ moment, lost < start → ∀ k v, s.visible all k = some v →
    s.AddedSince start k ∨ view k = some v
  gone : ∀ start ≤ moment, lost < start → ∀ k, s.visible all k = none →
    view k = none ∨ s.RemovedSince all start k

theorem dated_of_empty {s : State κ ν} (hremovals : s.removals = ∅) (hstart : s.addedStart = 0) :
    Dated 0 s where
  lost_le := Nat.zero_le _
  starts h := absurd hstart h
  removals r hr := by simp [hremovals] at hr
  again r hr := by simp [hremovals] at hr

namespace Follows

variable {all : Bool} {view : κ → Option ν} {moment lost : ℕ} {s : State κ ν}

theorem start (h : Dated lost s) : Follows all (s.visible all) s.clock lost s where
  toDated := h
  moment_le := le_rfl
  shown _ _ _ _ _ hv := Or.inr hv
  gone _ _ _ _ hv := Or.inl hv

theorem trim (h : Follows all view moment lost s) {kept : Set (Removal κ)} {start : ℕ}
    (hkept : kept ⊆ s.removals) (hdropped : ∀ r ∈ s.removals, r ∉ kept → r.time ≤ start)
    (hlater : ∀ r ∈ kept, start ≤ r.time) (hfst : ∃ r ∈ s.removals, r.time ≤ start)
    (hlast : ∃ r ∈ s.removals, start ≤ r.time) :
    Follows all view moment start (s.trim kept start) where
  lost_le := by
    obtain ⟨r, hr, hle⟩ := hlast
    exact hle.trans (h.removals r hr).2
  starts _ _ := le_max_right _ _
  removals r hr := ⟨hlater r hr, (h.removals r (hkept hr)).2⟩
  again r hr := h.again r (hkept hr)
  moment_le := h.moment_le
  shown := by
    obtain ⟨r, hr, hle⟩ := hfst
    have hlost := (h.removals r hr).1
    exact fun time htime hlate => h.shown time htime (by omega)
  gone := by
    obtain ⟨r, hr, hle⟩ := hfst
    have hlost := (h.removals r hr).1
    intro time htime hlate k hv
    refine (h.gone time htime (by omega) k hv).imp_right ?_
    rintro ⟨q, hq, hkey, hsince, htold⟩
    refine ⟨q, ?_, hkey, hsince, htold⟩
    by_contra hnot
    have := hdropped q hq hnot
    omega

theorem clear (h : Follows all view moment lost s) : Follows all view moment s.clock s.clear where
  lost_le := le_rfl
  starts ha := absurd rfl ha
  removals _ hr := absurd hr (Set.notMem_empty _)
  again _ hr := absurd hr (Set.notMem_empty _)
  moment_le := h.moment_le
  shown := by
    have hmoment := h.moment_le
    intro start hstart hlost
    omega
  gone := by
    have hmoment := h.moment_le
    intro start hstart hlost
    omega

theorem wait (h : Follows all view moment lost s) {now : ℕ} (hnow : s.clock ≤ now) :
    Follows all view moment lost { s with clock := now } where
  lost_le := h.lost_le.trans hnow
  starts := h.starts
  removals r hr := ⟨(h.removals r hr).1, (h.removals r hr).2.trans hnow⟩
  again := h.again
  moment_le := h.moment_le.trans hnow
  shown := h.shown
  gone := h.gone

end Follows

variable [DecidableEq κ]

/-- The changes of a store. What is shown to everybody is not hidden by storing it again. A log
of removals is cut at a time among those it holds. -/
inductive Step : State κ ν → State κ ν → Prop
  | add {s : State κ ν} {k : κ} {v : ν} {hidden : Bool} {now : ℕ} (hnow : s.clock ≤ now)
      (hshown : ∀ item, s.items k = some item → item.2 = false → hidden = false) :
      Step s (s.add k v hidden now)
  | remove {s : State κ ν} {k : κ} {v : ν} {hidden : Bool} {now : ℕ} (hnow : s.clock ≤ now)
      (hitem : s.items k = some (v, hidden)) : Step s (s.remove k hidden now)
  | trim {s : State κ ν} {kept : Set (Removal κ)} {start : ℕ} (hkept : kept ⊆ s.removals)
      (hdropped : ∀ r ∈ s.removals, r ∉ kept → r.time ≤ start)
      (hlater : ∀ r ∈ kept, start ≤ r.time) (hfirst : ∃ r ∈ s.removals, r.time ≤ start)
      (hlast : ∃ r ∈ s.removals, start ≤ r.time) : Step s (s.trim kept start)
  | clear {s : State κ ν} : Step s s.clear
  | wait {s : State κ ν} {now : ℕ} (hnow : s.clock ≤ now) : Step s { s with clock := now }

theorem visible_update {s : State κ ν} (all : Bool) {k k' : κ} {item : Option (ν × Bool)}
    (hne : k' ≠ k) {t : State κ ν} (ht : t.items = update s.items k item) :
    t.visible all k' = s.visible all k' := by
  rw [visible, visible, ht, Function.update_of_ne hne]

theorem State.AddedSince.update {s t : State κ ν} {start : ℕ} {k k' : κ} (h : s.AddedSince start k')
    (hne : k' ≠ k) {time : Option ℕ} (ht : t.added = update s.added k time) :
    t.AddedSince start k' := by
  rwa [AddedSince, ht, Function.update_of_ne hne]

namespace Follows

variable {all : Bool} {view : κ → Option ν} {moment lost : ℕ} {s : State κ ν}

theorem add (h : Follows all view moment lost s) {k : κ} {v : ν} {hidden : Bool} {now : ℕ}
    (hnow : s.clock ≤ now)
    (hshown : ∀ item, s.items k = some item → item.2 = false → hidden = false) :
    Follows all view moment lost (s.add k v hidden now) where
  lost_le := h.lost_le.trans hnow
  starts := by
    intro ha hr
    have hlost := h.lost_le
    by_cases hzero : s.addedStart = 0
    · simp only [State.add, hzero, if_true]
      omega
    · have hstarts := h.starts hzero hr
      simpa [State.add, hzero] using hstarts
  removals r hr := ⟨(h.removals r hr).1, (h.removals r hr).2.trans hnow⟩
  again := by
    intro r hr hitem
    by_cases hk : r.key = k
    · exact ⟨now, by simp [State.add, hk], (h.removals r hr).2.trans hnow⟩
    · have hold : s.items r.key ≠ none := by simpa [State.add, hk] using hitem
      exact (h.again r hr hold).update hk rfl
  moment_le := h.moment_le.trans hnow
  shown := by
    intro start hstart hlost k' v' hv
    by_cases hk : k' = k
    · have hmoment := h.moment_le
      exact Or.inl ⟨now, by simp [State.add, hk], by omega⟩
    · rw [visible_update all hk rfl] at hv
      exact (h.shown start hstart hlost k' v' hv).imp_left fun hsince => hsince.update hk rfl
  gone := by
    intro start hstart hlost k' hv
    by_cases hk : k' = k
    · subst hk
      -- the new item is hidden, so the old one was not shown either
      have hhidden := (visible_eq_none_iff _).mp hv (v, hidden) (by simp [State.add])
      refine h.gone start hstart hlost k' ((visible_eq_none_iff _).mpr fun item hitem => ?_)
      refine ⟨hhidden.1, ?_⟩
      by_contra hopen
      have := hshown item hitem (by simpa using hopen)
      simp [this] at hhidden
    · rw [visible_update all hk rfl] at hv
      exact h.gone start hstart hlost k' hv

theorem remove (h : Follows all view moment lost s) {k : κ} {v : ν} {hidden : Bool} {now : ℕ}
    (hnow : s.clock ≤ now) (hitem : s.items k = some (v, hidden)) :
    Follows all view moment lost (s.remove k hidden now) where
  lost_le := h.lost_le.trans hnow
  starts := by
    intro ha hr
    have hlost := h.lost_le
    by_cases hzero : s.removedStart = 0
    · simp only [State.remove, hzero, if_true]
      omega
    · have hstarts := h.starts ha hzero
      simpa [State.remove, hzero] using hstarts
  removals := by
    rintro r (rfl | hr)
    · exact ⟨h.lost_le.trans hnow, le_rfl⟩
    · exact ⟨(h.removals r hr).1, (h.removals r hr).2.trans hnow⟩
  again := by
    intro r hr hst
    by_cases hk : r.key = k
    · exact absurd (by simp [State.remove, hk]) hst
    · have hold : r ∈ s.removals := hr.resolve_left fun hnew => hk (by rw [hnew])
      exact (h.again r hold (by simpa [State.remove, hk] using hst)).update hk rfl
  moment_le := h.moment_le.trans hnow
  shown := by
    intro start hstart hlost k' v' hv
    by_cases hk : k' = k
    · simp [visible, State.remove, hk] at hv
    · rw [visible_update all hk rfl] at hv
      exact (h.shown start hstart hlost k' v' hv).imp_left fun hsince => hsince.update hk rfl
  gone := by
    intro start hstart hlost k' hv
    have hkeeps : s.RemovedSince all start k' →
        (s.remove k hidden now).RemovedSince all start k' := by
      rintro ⟨r, hr, hrest⟩
      exact ⟨r, Or.inr hr, hrest⟩
    by_cases hk : k' = k
    · subst hk
      by_cases htold : all = true ∨ hidden = false
      · have hmoment := h.moment_le
        exact Or.inr ⟨⟨now, k', hidden⟩, Or.inl rfl, rfl, by show start ≤ now; omega, htold⟩
      · -- the reader was not shown the item
        refine (h.gone start hstart hlost k' ((visible_eq_none_iff _).mpr ?_)).imp_right hkeeps
        rintro item hsome
        obtain rfl : (v, hidden) = item := by simpa [hitem] using hsome
        simpa using htold
    · rw [visible_update all hk rfl] at hv
      exact (h.gone start hstart hlost k' hv).imp_right hkeeps

theorem step (h : Follows all view moment lost s) {t : State κ ν} (hstep : Step s t) :
    ∃ lost', Follows all view moment lost' t := by
  cases hstep with
  | add hnow hshown => exact ⟨lost, h.add hnow hshown⟩
  | remove hnow hitem => exact ⟨lost, h.remove hnow hitem⟩
  | trim hkept hdropped hlater hfst hlast =>
    exact ⟨_, h.trim hkept hdropped hlater hfst hlast⟩
  | clear => exact ⟨_, h.clear⟩
  | wait hnow => exact ⟨lost, h.wait hnow⟩

theorem run (h : Follows all view moment lost s) {t : State κ ν}
    (hrun : Relation.ReflTransGen Step s t) : ∃ lost', Follows all view moment lost' t := by
  induction hrun with
  | refl => exact ⟨lost, h⟩
  | tail _ hstep ih =>
    obtain ⟨_, hbefore⟩ := ih
    exact hbefore.step hstep

end Follows

/-- A view without some of the keys. -/
def deleteAll (removed : List κ) (view : κ → Option ν) : κ → Option ν :=
  removed.foldl (fun view k => update view k none) view

/-- A view with keys inserted, or replaced. -/
def insertAll (added : List (κ × ν)) (view : κ → Option ν) : κ → Option ν :=
  added.foldl (fun view p => update view p.1 (some p.2)) view

theorem deleteAll_apply (removed : List κ) (view : κ → Option ν) (k : κ) :
    deleteAll removed view k = if k ∈ removed then none else view k := by
  rw [deleteAll]
  induction removed generalizing view with
  | nil => simp
  | cons r rest ih =>
    rw [foldl_cons, ih]
    by_cases hk : k = r
    · simp [hk]
    · simp [hk]

theorem insertAll_eq {added : List (κ × ν)} {view store : κ → Option ν}
    (hadded : ∀ p ∈ added, store p.1 = some p.2)
    (hrest : ∀ k, k ∉ added.map Prod.fst → view k = store k) : insertAll added view = store := by
  rw [insertAll]
  induction added generalizing view with
  | nil => exact funext fun k => hrest k not_mem_nil
  | cons p rest ih =>
    refine ih (fun q hq => hadded q (mem_cons_of_mem _ hq)) fun k hk => ?_
    by_cases hkey : k = p.1
    · simp [hkey, hadded p mem_cons_self]
    · simpa [hkey] using hrest k (by simpa [hkey] using hk)

/-- A reader who saw the store at a moment, and deletes and inserts what the logs hold since a
time that is not after it, has the store as it is now. -/
theorem catch_up {all : Bool} {s₀ s₁ s : State κ ν} (hremovals : s₀.removals = ∅)
    (hemp : s₀.addedStart = 0) (hbefore : Relation.ReflTransGen Step s₀ s₁)
    (hafter : Relation.ReflTransGen Step s₁ s) {start : ℕ} (hstart : start ≤ s₁.clock)
    (haddedStart : s.addedStart ≠ 0 ∧ s.addedStart < start)
    (hremovedStart : s.removedStart ≠ 0 ∧ s.removedStart < start) {removed : List κ}
    {added : List (κ × ν)} (hrem : ∀ k, k ∈ removed ↔ s.RemovedSince all start k)
    (hadded : ∀ k v, (k, v) ∈ added ↔ s.AddedSince start k ∧ s.visible all k = some v) :
    insertAll added (deleteAll removed (s₁.visible all)) = s.visible all := by
  have hfresh : Follows all (s₀.visible all) s₀.clock 0 s₀ :=
    Follows.start (dated_of_empty hremovals hemp)
  obtain ⟨before, hmoment⟩ := hfresh.run hbefore
  have hseen : Follows all (s₁.visible all) s₁.clock before s₁ := Follows.start hmoment.toDated
  obtain ⟨lost, h⟩ := hseen.run hafter
  have hlost : lost < start := by
    have := h.starts haddedStart.1 hremovedStart.1
    omega
  refine insertAll_eq (fun p hp => ((hadded p.1 p.2).mp hp).2) fun k hk => ?_
  rw [deleteAll_apply]
  cases hv : s.visible all k with
  | none =>
    rcases h.gone start hstart hlost k hv with hnone | hlogged
    · rw [hnone, ite_self]
    · rw [if_pos ((hrem k).mpr hlogged)]
  | some v =>
    have hnot : ¬s.AddedSince start k := fun hsince =>
      hk (mem_map.mpr ⟨(k, v), (hadded k v).mpr ⟨hsince, hv⟩, rfl⟩)
    -- had it been removed since, it would have been added since
    have hkept : ¬s.RemovedSince all start k := by
      rintro ⟨r, hr, rfl, hsince, _⟩
      have hst : s.items r.key ≠ none := fun hnone => by simp [visible, hnone] at hv
      obtain ⟨t, ht, hle⟩ := h.again r hr hst
      exact hnot ⟨t, ht, hsince.trans hle⟩
    rw [if_neg fun hmem => hkept ((hrem k).mp hmem)]
    exact (h.shown start hstart hlost k v hv).resolve_left hnot

end ChangeLog
