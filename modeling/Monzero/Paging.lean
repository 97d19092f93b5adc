import Monzero.Tally
import Mathlib.Data.List.Sort
import Mathlib.Data.List.Dedup

/-!
Pages of a list. A page is asked for by 64-bit offset and count; where their sum leaves 64
bits the page runs to the end of the list. Consecutive pages are consecutive parts of the
list, so pages that cover its indexes give all of it, and a page of a list stays the front
of the same page when the list grows at its end.
-/
namespace Monzero.Paging

open Tally List

variable {α : Type}

/-- One past the last index of a page. -/
def pageEnd (size : ℕ) (offset count : UInt64) : ℕ :=
  min size (if offset > 18446744073709551615 - count then (18446744073709551615 : UInt64)
    else offset + count).toNat

/-- The indexes of a page, in the order of the loop over them. -/
def pageIndices (size : ℕ) (offset count : UInt64) : List ℕ :=
  List.range' offset.toNat (pageEnd size offset count - offset.toNat)

/-- The elements of a list at some indexes. -/
def pick (l : List α) (indices : List ℕ) : List α := indices.filterMap fun index => l[index]?

theorem pick_range' (l : List α) (start n : ℕ) :
    pick l (List.range' start n) = (l.drop start).take n := by
  induction n generalizing start with
  | zero => simp [pick]
  | succ n ih =>
    have hrest := ih (start + 1)
    rw [pick] at hrest ⊢
    rw [range'_succ, filterMap_cons, hrest]
    cases hget : l[start]? with
    | none =>
      have hlen := List.getElem?_eq_none_iff.mp hget
      simp [drop_eq_nil_of_le hlen, drop_eq_nil_of_le (hlen.trans (Nat.le_succ _))]
    | some a =>
      obtain ⟨hlen, rfl⟩ := List.getElem?_eq_some_iff.mp hget
      rw [drop_eq_getElem_cons hlen, take_succ_cons]

theorem pick_page {l : List α} (hsize : l.length < 2 ^ 64) (offset count : UInt64) :
    pick l (pageIndices l.length offset count) = (l.drop offset.toNat).take count.toNat := by
  rw [pageIndices, pick_range', take_eq_take_iff, length_drop, pageEnd]
  by_cases hover : offset > 18446744073709551615 - count
  · rw [if_pos hover]
    rw [gt_sub_iff] at hover
    simp only [UInt64.reduceToNat]
    omega
  · rw [if_neg hover]
    rw [gt_sub_iff] at hover
    rw [UInt64.toNat_add, Nat.mod_eq_of_lt (by omega)]
    omega

/-- Requests that follow each other without a gap, from one index to another. -/
def Consecutive : ℕ → List (UInt64 × UInt64) → ℕ → Prop
  | start, [], stop => start = stop
  | start, (offset, count) :: rest, stop =>
      offset.toNat = start ∧ Consecutive (start + count.toNat) rest stop

variable {start stop : ℕ} {requests : List (UInt64 × UInt64)}

theorem Consecutive.start_le (h : Consecutive start requests stop) : start ≤ stop := by
  induction requests generalizing start with
  | nil => exact Nat.le_of_eq h
  | cons request rest ih => exact (Nat.le_add_right _ _).trans (ih h.2)

theorem flatMap_consecutive (l : List α) (h : Consecutive start requests stop) :
    (requests.flatMap fun r => (l.drop r.1.toNat).take r.2.toNat) =
      (l.drop start).take (stop - start) := by
  induction requests generalizing start with
  | nil =>
    rw [show start = stop from h]
    simp
  | cons request rest ih =>
    obtain ⟨rfl, hrest⟩ := h
    have hle := hrest.start_le
    rw [flatMap_cons, ih hrest, ← drop_drop, ← take_add]
    congr 1
    omega

theorem flatMap_cover {l : List α} (h : Consecutive 0 requests stop) (hstop : l.length ≤ stop) :
    (requests.flatMap fun r => (l.drop r.1.toNat).take r.2.toNat) = l := by
  rw [flatMap_consecutive l h, drop_zero, Nat.sub_zero, take_of_length_le hstop]

theorem page_prefix {l more : List α} {offset count : ℕ} :
    (l.drop offset).take count <+: ((l ++ more).drop offset).take count := by
  rw [drop_append, take_append]
  exact prefix_append _ _

/-- `std::set<size_t>` in the order of its iteration. -/
def orderedSet (indices : List ℕ) : List ℕ := indices.dedup.insertionSort (· ≤ ·)

theorem orderedSet_range' {start n : ℕ} :
    orderedSet (List.range' start n) = List.range' start n := by
  rw [orderedSet, List.Nodup.dedup nodup_range']
  apply List.Pairwise.insertionSort_eq
  exact pairwise_le_range' _

end Monzero.Paging
