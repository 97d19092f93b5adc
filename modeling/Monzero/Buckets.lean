import Mathlib.Data.List.Basic
import Mathlib.Data.List.Perm.Basic

/-!
Sorting by collecting. For each key of an order, the elements with that key are taken out in
the order they stand in, and put behind what was taken out before. The result has the same
elements, does not exchange elements with the same key, and is collected into itself.
-/
namespace Monzero.Buckets

open List

variable {α κ : Type} [DecidableEq κ] (key : α → κ)

/-- The elements of a list, key by key. -/
def gather (order : List κ) (l : List α) : List α := order.flatMap fun k => l.filter (key · = k)

@[simp] theorem gather_nil (l : List α) : gather key [] l = [] := rfl

theorem gather_cons (k : κ) (order : List κ) (l : List α) :
    gather key (k :: order) l = l.filter (key · = k) ++ gather key order l := rfl

theorem gather_append (order more : List κ) (l : List α) :
    gather key (order ++ more) l = gather key order l ++ gather key more l :=
  flatMap_append

variable {key} {order : List κ} {l : List α}

theorem mem_gather {a : α} : a ∈ gather key order l ↔ a ∈ l ∧ key a ∈ order := by
  simp only [gather, mem_flatMap, mem_filter, decide_eq_true_eq]
  constructor
  · rintro ⟨k, hk, ha, rfl⟩
    exact ⟨ha, hk⟩
  · rintro ⟨ha, hk⟩
    exact ⟨key a, hk, ha, rfl⟩

theorem gather_filter_ne {k : κ} (hk : k ∉ order) :
    gather key order (l.filter (key · ≠ k)) = gather key order l := by
  refine flatMap_congr fun k' hk' => ?_
  rw [filter_filter]
  refine filter_congr fun a _ => ?_
  have hne : k' ≠ k := fun h => hk (h ▸ hk')
  by_cases ha : key a = k'
  · simp [ha, hne]
  · simp [ha]

theorem gather_perm (hnd : order.Nodup) (hall : ∀ a ∈ l, key a ∈ order) :
    (gather key order l).Perm l := by
  induction order generalizing l with
  | nil =>
    have hnil : l = [] := eq_nil_iff_forall_not_mem.mpr fun a ha =>
      not_mem_nil (hall a ha)
    rw [hnil]
    exact List.Perm.refl _
  | cons k rest ih =>
    obtain ⟨hk, hrest⟩ := nodup_cons.mp hnd
    have hothers : ∀ a ∈ l.filter (key · ≠ k), key a ∈ rest := by
      intro a ha
      obtain ⟨hmem, hne⟩ := mem_filter.mp ha
      exact (mem_cons.mp (hall a hmem)).resolve_left (of_decide_eq_true hne)
    have hsplit : (l.filter (key · = k) ++ l.filter (key · ≠ k)).Perm l := by
      simpa using filter_append_perm (key · = k) l
    rw [gather_cons, ← gather_filter_ne hk]
    exact ((ih hrest hothers).append_left _).trans hsplit

theorem filter_gather (hnd : order.Nodup) {k : κ} (hk : k ∈ order) :
    (gather key order l).filter (key · = k) = l.filter (key · = k) := by
  induction order with
  | nil => cases hk
  | cons k' rest ih =>
    obtain ⟨hnot, hrest⟩ := nodup_cons.mp hnd
    rw [gather_cons, filter_append]
    by_cases heq : k = k'
    · subst heq
      have hnone : (gather key rest l).filter (key · = k) = [] := by
        refine filter_eq_nil_iff.mpr fun a ha => ?_
        intro hkey
        exact hnot (of_decide_eq_true hkey ▸ (mem_gather.mp ha).2)
      rw [hnone, append_nil, filter_filter]
      simp
    · have hnone : (l.filter (key · = k')).filter (key · = k) = [] := by
        refine filter_eq_nil_iff.mpr fun a ha => ?_
        have hkey := of_decide_eq_true (mem_filter.mp ha).2
        rw [hkey, decide_eq_true_eq]
        exact fun h => heq h.symm
      rw [hnone, nil_append, ih hrest ((mem_cons.mp hk).resolve_left heq)]

theorem gather_concat (order : List κ) {k : κ} (hk : k ∉ order) {a : α} (ha : key a = k) :
    gather key (order ++ [k]) (l ++ [a]) = gather key (order ++ [k]) l ++ [a] := by
  have hfront : gather key order (l ++ [a]) = gather key order l := by
    refine flatMap_congr fun k' hk' => ?_
    have hne : key a ≠ k' := fun h => hk (ha ▸ h ▸ hk')
    rw [filter_append, filter_singleton, decide_eq_false hne]
    simp
  rw [gather_append, gather_append, hfront]
  simp [gather_cons, ha]

theorem gather_gather (hnd : order.Nodup) :
    gather key order (gather key order l) = gather key order l :=
  flatMap_congr fun _ hk => filter_gather hnd hk

end Monzero.Buckets
