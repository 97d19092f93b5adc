import Mathlib.Algebra.BigOperators.Group.List.Basic
import Mathlib.Algebra.Order.BigOperators.Group.List
import Mathlib.Algebra.Order.Group.Nat
import Mathlib.Algebra.Ring.Nat
import Mathlib.Data.List.Perm.Subperm

/-!
Covering an amount with few elements of a list. When the elements stand with the heaviest
in front, no selection of `n` of them outweighs the first `n`. So the shortest front part
that covers an amount has the smallest number of elements any cover can have, and where no
front part of a given length covers it, no selection of that size does.
-/
namespace Monzero.GreedyCover

variable {α : Type} (weight : α → ℕ)

/-- The total weight of a selection. -/
def weigh (l : List α) : ℕ := (l.map weight).sum

/-- The heaviest elements stand in front. -/
def HeaviestFirst (l : List α) : Prop := l.Pairwise fun a b => weight b ≤ weight a

variable {weight}

@[simp] theorem weigh_nil : weigh weight ([] : List α) = 0 := rfl

@[simp] theorem weigh_cons (a : α) (l : List α) :
    weigh weight (a :: l) = weight a + weigh weight l := by
  simp [weigh]

@[simp] theorem weigh_append (l l' : List α) :
    weigh weight (l ++ l') = weigh weight l + weigh weight l' := by
  simp [weigh]

theorem weigh_perm {l l' : List α} (h : l.Perm l') : weigh weight l = weigh weight l' :=
  (h.map weight).sum_eq

theorem weigh_sublist {l l' : List α} (h : l.Sublist l') : weigh weight l ≤ weigh weight l' :=
  (h.map weight).sum_le_sum fun _ _ => Nat.zero_le _

theorem weigh_take_le_of_le {m n : ℕ} (h : m ≤ n) {l : List α} :
    weigh weight (l.take m) ≤ weigh weight (l.take n) :=
  weigh_sublist (List.take_sublist_take_left h)

/-- With a heavier element in front, the first `n` elements weigh at least as much. -/
theorem weigh_take_cons {a : α} {l : List α} (h : ∀ b ∈ l, weight b ≤ weight a) {n : ℕ} :
    weigh weight (l.take n) ≤ weigh weight ((a :: l).take n) := by
  cases n with
  | zero => simp
  | succ n =>
    rw [List.take_add_one, weigh_append, List.take_succ_cons, weigh_cons, Nat.add_comm]
    refine Nat.add_le_add_right ?_ _
    cases hget : l[n]? with
    | none => simp
    | some b => simpa using h b (List.mem_of_getElem? hget)

theorem weigh_le_front {s l : List α} (hsub : s.Subperm l) (hsort : HeaviestFirst weight l) :
    weigh weight s ≤ weigh weight (l.take s.length) := by
  obtain ⟨s', hperm, hsub'⟩ := hsub
  rw [← weigh_perm hperm, ← hperm.length_eq]
  clear hperm
  induction hsub' with
  | slnil => simp
  | @cons s l a _ ih =>
    have hsplit := List.pairwise_cons.mp hsort
    exact (ih hsplit.2).trans (weigh_take_cons hsplit.1)
  | @cons_cons s l a _ ih =>
    rw [weigh_cons, List.length_cons, List.take_succ_cons, weigh_cons]
    exact Nat.add_le_add_left (ih (List.pairwise_cons.mp hsort).2) _

theorem length_le_of_covers {l s : List α} {amt n : ℕ} (hsort : HeaviestFirst weight l)
    (hshorter : ∀ m < n, weigh weight (l.take m) < amt) (hsub : s.Subperm l)
    (hcovers : amt ≤ weigh weight s) : n ≤ s.length := by
  by_contra hlt
  have hfront := hshorter s.length (Nat.lt_of_not_le hlt)
  exact absurd (hcovers.trans (weigh_le_front hsub hsort)) (Nat.not_le.mpr hfront)

end Monzero.GreedyCover
