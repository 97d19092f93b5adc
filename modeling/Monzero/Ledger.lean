import Mathlib.Algebra.BigOperators.Group.List.Basic
import Mathlib.Data.ZMod.Basic
import Mathlib.Algebra.Order.BigOperators.Group.List

/-!
Sums of amounts. A ledger is a list of entries, each an amount under a key, with the
total of every key. Amounts that are known as residues only can be summed as numbers
when there are few of them and they are small: if the modulus exceeds the number of
terms times their bound, no sum wraps, and equal sums of residues are equal sums of
numbers.
-/
namespace Monzero.Ledger

open List

variable {κ : Type} [DecidableEq κ]

/-- The sum of the amounts under a key. -/
def total (a : κ) (entries : List (κ × ℕ)) : ℕ :=
  (entries.map fun e => if e.1 = a then e.2 else 0).sum

@[simp] theorem total_nil (a : κ) : total a [] = 0 := rfl

@[simp] theorem total_cons (a : κ) (e : κ × ℕ) (es : List (κ × ℕ)) :
    total a (e :: es) = (if e.1 = a then e.2 else 0) + total a es := by
  simp [total]

@[simp] theorem total_append (a : κ) (l l' : List (κ × ℕ)) :
    total a (l ++ l') = total a l + total a l' := by
  simp [total]

theorem total_perm (a : κ) {l l' : List (κ × ℕ)} (h : l.Perm l') : total a l = total a l' :=
  (h.map _).sum_eq

theorem total_flatMap {α : Type} (a : κ) (l : List α) (f : α → List (κ × ℕ)) :
    total a (l.flatMap f) = (l.map fun x => total a (f x)).sum := by
  induction l with
  | nil => rfl
  | cons x rest ih => rw [flatMap_cons, total_append, ih, map_cons, sum_cons]

theorem total_map_key {α : Type} (a key : κ) (l : List α) (f : α → ℕ) :
    total a (l.map fun x => (key, f x)) = if key = a then (l.map f).sum else 0 := by
  induction l with
  | nil => simp
  | cons x rest ih =>
    rw [map_cons, total_cons, ih]
    by_cases hkey : key = a
    · simp [hkey]
    · simp [hkey]

theorem total_of_forall_ne (a : κ) (es : List (κ × ℕ)) (h : ∀ e ∈ es, e.1 ≠ a) :
    total a es = 0 := by
  induction es with
  | nil => rfl
  | cons e rest ih =>
    rw [total_cons, if_neg (h e mem_cons_self), ih fun e he => h e (mem_cons_of_mem _ he)]

theorem total_of_nodup (es : List (κ × ℕ)) (hnd : (es.map Prod.fst).Nodup)
    (e : κ × ℕ) (he : e ∈ es) : total e.1 es = e.2 := by
  induction es with
  | nil => cases he
  | cons x rest ih =>
    rw [map_cons, nodup_cons] at hnd
    rcases mem_cons.mp he with rfl | he
    · have hrest : total e.1 rest = 0 := by
        apply total_of_forall_ne
        intro e' he' heq
        exact hnd.1 (heq ▸ mem_map_of_mem he')
      rw [total_cons, if_pos rfl, hrest, Nat.add_zero]
    · have hne : x.1 ≠ e.1 := by
        intro heq
        exact hnd.1 (heq ▸ mem_map_of_mem he)
      rw [total_cons, if_neg hne, Nat.zero_add, ih hnd.2 he]

variable {order : ℕ}

theorem sum_le_length_mul (l : List ℕ) (bound : ℕ) (h : ∀ n ∈ l, n ≤ bound) :
    l.sum ≤ l.length * bound := by
  simpa [smul_eq_mul] using sum_le_card_nsmul l bound h

theorem val_sum_of_bounded [NeZero order] {l : List (ZMod order)} {bound count : ℕ}
    (hbound : ∀ x ∈ l, x.val < bound) (hcnt : l.length ≤ count)
    (horder : count * bound < order) : l.sum.val = (l.map ZMod.val).sum := by
  have hsum : (l.map ZMod.val).sum ≤ (l.map ZMod.val).length * bound := by
    apply sum_le_length_mul
    intro n hn
    obtain ⟨x, hx, rfl⟩ := mem_map.mp hn
    exact (hbound x hx).le
  have hlt : (l.map ZMod.val).sum < order := by
    rw [length_map] at hsum
    calc (l.map ZMod.val).sum ≤ l.length * bound := hsum
      _ ≤ count * bound := Nat.mul_le_mul_right bound hcnt
      _ < order := horder
  have hcast : ((l.map ZMod.val).sum : ZMod order) = l.sum := by
    have hid : (l.map ZMod.val).map (Nat.castRingHom (ZMod order)) = l := by
      rw [map_map]
      exact map_id'' (fun x => ZMod.natCast_zmod_val x) l
    have hsums := map_list_sum (Nat.castRingHom (ZMod order)) (l.map ZMod.val)
    rw [hid] at hsums
    exact hsums
  rw [← hcast, ZMod.val_natCast_of_lt hlt]

theorem sum_val_eq_of_sum_eq [NeZero order] {l l' : List (ZMod order)} {bound count : ℕ}
    (hl : ∀ x ∈ l, x.val < bound) (hl' : ∀ x ∈ l', x.val < bound) (hcnt : l.length ≤ count)
    (hcnt' : l'.length ≤ count) (horder : count * bound < order) (h : l.sum = l'.sum) :
    (l.map ZMod.val).sum = (l'.map ZMod.val).sum := by
  rw [← val_sum_of_bounded hl hcnt horder, ← val_sum_of_bounded hl' hcnt' horder, h]

end Monzero.Ledger
