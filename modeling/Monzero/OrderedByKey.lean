import Mathlib.Data.List.Nodup
import Mathlib.Data.List.Pairwise

/-!
Sets that are ordered by a key of their elements. Two elements with one key count as the same:
an element is not inserted when its key is taken, and erasing takes the element of a key.
-/
namespace Monzero.OrderedByKey

open List

/-- A set of elements in the order of their keys, which are distinct. -/
structure KeyedSet {α : Type} (key : α → ℕ) where
  elems : List α
  sorted : elems.Pairwise fun a b => key a < key b

variable {α : Type} {key : α → ℕ}

/-- An element at its place among sorted ones, unless its key is taken. -/
def insertInto (key : α → ℕ) (a : α) : List α → List α
  | [] => [a]
  | b :: rest =>
      if key a < key b then a :: b :: rest
      else if key b < key a then b :: insertInto key a rest
      else b :: rest

theorem mem_insertInto {a : α} (x : α) {l : List α} (hl : l.Pairwise fun a b => key a < key b) :
    x ∈ insertInto key a l ↔ x ∈ l ∨ (x = a ∧ ∀ b ∈ l, key b ≠ key a) := by
  induction l with
  | nil => simp [insertInto]
  | cons b rest ih =>
    obtain ⟨hb, hrest⟩ := pairwise_cons.mp hl
    rw [insertInto]
    split
    case isTrue hbefore =>
      have hfree : ∀ c ∈ b :: rest, key c ≠ key a := by
        intro c hc
        rcases mem_cons.mp hc with rfl | hc
        · omega
        · have := hb c hc
          omega
      rw [mem_cons, or_comm, and_iff_left hfree]
    case isFalse hbefore =>
      split
      case isTrue hafter =>
        rw [mem_cons, ih hrest, mem_cons, forall_mem_cons, or_assoc,
          and_iff_right (show key b ≠ key a by omega)]
      case isFalse hafter =>
        have htaken : ¬∀ c ∈ b :: rest, key c ≠ key a := by
          intro hfree
          exact hfree b mem_cons_self (by omega)
        rw [or_iff_left (fun h => htaken h.2)]

theorem pairwise_insertInto {a : α} {l : List α} (hl : l.Pairwise fun a b => key a < key b) :
    (insertInto key a l).Pairwise fun a b => key a < key b := by
  induction l with
  | nil => exact pairwise_singleton _ a
  | cons b rest ih =>
    obtain ⟨hb, hrest⟩ := pairwise_cons.mp hl
    rw [insertInto]
    split
    case isTrue hbefore =>
      refine pairwise_cons.mpr ⟨?_, hl⟩
      intro c hc
      rcases mem_cons.mp hc with rfl | hc
      · exact hbefore
      · exact Nat.lt_trans hbefore (hb c hc)
    case isFalse hbefore =>
      split
      case isTrue hafter =>
        refine pairwise_cons.mpr ⟨?_, ih hrest⟩
        intro c hc
        rcases (mem_insertInto c hrest).mp hc with hc | ⟨rfl, -⟩
        · exact hb c hc
        · exact hafter
      case isFalse hafter => exact hl

namespace KeyedSet

instance : Membership α (KeyedSet key) := ⟨fun s a => a ∈ s.elems⟩

def empty : KeyedSet key := ⟨[], .nil⟩

/-- `std::set::insert`. -/
def insert (s : KeyedSet key) (a : α) : KeyedSet key :=
  ⟨insertInto key a s.elems, pairwise_insertInto s.sorted⟩

/-- `std::set::erase`. -/
def erase (s : KeyedSet key) (a : α) : KeyedSet key :=
  ⟨s.elems.filter fun b => key b ≠ key a, s.sorted.filter _⟩

theorem mem_def (s : KeyedSet key) (a : α) : a ∈ s ↔ a ∈ s.elems := Iff.rfl

theorem mem_empty (a : α) : a ∈ (empty : KeyedSet key) ↔ False := mem_nil_iff a

theorem mem_insert (s : KeyedSet key) (a x : α) :
    x ∈ s.insert a ↔ x ∈ s ∨ (x = a ∧ ∀ b ∈ s, key b ≠ key a) :=
  mem_insertInto x s.sorted

theorem eq_of_key_eq (s : KeyedSet key) {a b : α} (ha : a ∈ s) (hb : b ∈ s)
    (h : key a = key b) : a = b := by
  have hkeys : (s.elems.map key).Nodup := pairwise_map.mpr (s.sorted.imp Nat.ne_of_lt)
  exact inj_on_of_nodup_map hkeys ha hb h

theorem mem_erase (s : KeyedSet key) {a : α} (ha : a ∈ s) (x : α) :
    x ∈ s.erase a ↔ x ∈ s ∧ x ≠ a := by
  simp only [mem_def, erase, mem_filter, decide_eq_true_eq]
  refine and_congr_right fun hx => not_congr ?_
  exact ⟨s.eq_of_key_eq hx ha, fun h => h ▸ rfl⟩

theorem find?_eq_some (s : KeyedSet key) {a : α} (ha : a ∈ s) (p : α → Bool) (hp : p a = true)
    (hkey : ∀ b, p b = true → key b = key a) : s.elems.find? p = some a := by
  cases hfind : s.elems.find? p with
  | none => exact absurd hp (find?_eq_none.mp hfind a ha)
  | some b =>
    have hb := hkey b (find?_some hfind)
    rw [s.eq_of_key_eq (mem_of_find?_eq_some hfind) ha hb]

end KeyedSet

end Monzero.OrderedByKey
