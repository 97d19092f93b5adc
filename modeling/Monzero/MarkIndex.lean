import Mathlib.Data.Set.Lattice
import Mathlib.Logic.Relation

/-!
Items that list marks, and an index of the marks that are listed. The index does not count:
what an item lists is marked when the item is put in, and no longer marked once the item is
dropped. The index never marks too much. It is exact as long as no two items list one mark,
and from an exact index no drop goes wrong only then.
-/
namespace Monzero.MarkIndex

variable {α μ : Type} {lists : α → Set μ}

@[ext]
structure Index (lists : α → Set μ) where
  items : Set α
  marked : Set μ

namespace Index

def put (x : Index lists) (a : α) : Index lists := ⟨insert a x.items, x.marked ∪ lists a⟩

def drop (x : Index lists) (a : α) : Index lists := ⟨x.items \ {a}, x.marked \ lists a⟩

def Sound (x : Index lists) : Prop := x.marked ⊆ ⋃ a ∈ x.items, lists a

def Exact (x : Index lists) : Prop := x.marked = ⋃ a ∈ x.items, lists a

/-- No two items list one mark. -/
def Apart (x : Index lists) : Prop :=
  ∀ a ∈ x.items, ∀ b ∈ x.items, a ≠ b → ∀ m ∈ lists a, m ∉ lists b

variable {x : Index lists}

theorem Exact.sound (h : x.Exact) : x.Sound := h.subset

theorem Sound.put (h : x.Sound) (a : α) : (x.put a).Sound := by
  rw [Sound, Index.put, Set.biUnion_insert, Set.union_comm]
  exact Set.union_subset_union_right _ h

theorem Sound.drop (h : x.Sound) (a : α) : (x.drop a).Sound := by
  rintro m ⟨hm, hma⟩
  obtain ⟨b, hb, hmb⟩ := Set.mem_iUnion₂.mp (h hm)
  refine Set.mem_iUnion₂.mpr ⟨b, ⟨hb, ?_⟩, hmb⟩
  rintro rfl
  exact hma hmb

theorem Exact.put (h : x.Exact) (a : α) : (x.put a).Exact := by
  rw [Exact, Index.put, Set.biUnion_insert, ← h, Set.union_comm]

theorem Exact.drop (h : x.Exact) (a : α)
    (hapart : ∀ b ∈ x.items, b ≠ a → ∀ m ∈ lists b, m ∉ lists a) : (x.drop a).Exact := by
  refine (h.sound.drop a).antisymm ?_
  intro m hm
  obtain ⟨b, ⟨hb, hba⟩, hmb⟩ := Set.mem_iUnion₂.mp hm
  refine ⟨?_, hapart b hb hba m hmb⟩
  rw [h]
  exact Set.mem_iUnion₂.mpr ⟨b, hb, hmb⟩

theorem Apart.drop (h : x.Apart) (a : α) : (x.drop a).Apart :=
  fun b hb c hc => h b hb.1 c hc.1

theorem Apart.exact_drop (h : x.Apart) (hexact : x.Exact) {a : α} (ha : a ∈ x.items) :
    (x.drop a).Exact :=
  hexact.drop a fun b hb hba => h b hb a ha hba

theorem Apart.put_of_lists_eq_empty (h : x.Apart) {a : α} (ha : lists a = ∅) : (x.put a).Apart := by
  intro b hb c hc hbc m hmb hmc
  have hother (d : α) (hmd : m ∈ lists d) : d ≠ a := by
    rintro rfl
    rw [ha] at hmd
    exact hmd
  exact h b (hb.resolve_left (hother b hmb)) c (hc.resolve_left (hother c hmc)) hbc m hmb hmc

theorem forall_drop_exact_iff (h : x.Exact) : (∀ a ∈ x.items, (x.drop a).Exact) ↔ x.Apart := by
  constructor
  · intro hdrop a ha b hb hab m hma hmb
    have hlisted : m ∈ ⋃ c ∈ (x.drop a).items, lists c :=
      Set.mem_iUnion₂.mpr ⟨b, ⟨hb, Ne.symm hab⟩, hmb⟩
    rw [← hdrop a ha] at hlisted
    exact hlisted.2 hma
  · intro hapart a ha
    exact hapart.exact_drop h ha

/-- A step that lists nothing new. -/
inductive Quiet : Index lists → Index lists → Prop
  | drop (x : Index lists) {a : α} (ha : a ∈ x.items) : Quiet x (x.drop a)
  | put (x : Index lists) {a : α} (ha : lists a = ∅) : Quiet x (x.put a)

/-- Quiet steps and after them, if anything, one item that is put in. -/
def Changes (x z : Index lists) : Prop :=
  ∃ y, Relation.ReflTransGen Quiet x y ∧ (z = y ∨ ∃ a, z = y.put a)

theorem Quiet.sound {x y : Index lists} (step : Quiet x y) (h : x.Sound) : y.Sound := by
  cases step with
  | drop ha => exact h.drop _
  | put ha => exact h.put _

theorem Quiet.exact_apart {x y : Index lists} (step : Quiet x y) (h : x.Exact ∧ x.Apart) :
    y.Exact ∧ y.Apart := by
  cases step with
  | drop ha => exact ⟨h.2.exact_drop h.1 ha, h.2.drop _⟩
  | put ha => exact ⟨h.1.put _, h.2.put_of_lists_eq_empty ha⟩

theorem Changes.sound {x z : Index lists} (change : Changes x z) (h : x.Sound) : z.Sound := by
  obtain ⟨y, steps, hz⟩ := change
  have hy : y.Sound := by
    clear hz
    induction steps with
    | refl => exact h
    | tail _ step ih => exact step.sound ih
  rcases hz with rfl | ⟨a, rfl⟩
  · exact hy
  · exact hy.put a

theorem Changes.exact {x z : Index lists} (change : Changes x z) (h : x.Exact) (hapart : x.Apart) :
    z.Exact := by
  obtain ⟨y, steps, hz⟩ := change
  have hy : y.Exact ∧ y.Apart := by
    clear hz
    induction steps with
    | refl => exact ⟨h, hapart⟩
    | tail _ step ih => exact step.exact_apart ih
  rcases hz with rfl | ⟨a, rfl⟩
  · exact hy.1
  · exact hy.1.put a

end Index

end Monzero.MarkIndex
