import Mathlib.Data.List.Sort
import Mathlib.Data.List.Lex
import Mathlib.Data.Prod.Lex

/-!
Sorting with a comparator. A comparator compares by a key when it says "before" exactly
where the key is smaller in a linear order. Sorting a list with such a comparator puts
every element after those before it, and its result depends only on the elements when
no two of them share a key.
-/
namespace Monzero.ComparatorSort

variable {α κ : Type} [LinearOrder κ]

/-- The comparator says "before" exactly where the key is smaller. -/
def ComparesBy (before : α → α → Bool) (key : α → κ) : Prop :=
  ∀ a b, before a b = true ↔ key a < key b

/-- `std::sort` with a comparator. -/
def sortBy (before : α → α → Bool) (l : List α) : List α :=
  l.insertionSort fun a b => before b a = false

theorem sortBy_perm (before : α → α → Bool) (l : List α) : (sortBy before l).Perm l :=
  List.perm_insertionSort _ l

variable {key : α → κ} {before : α → α → Bool}

theorem ComparesBy.eq_false_iff (h : ComparesBy before key) (a b : α) :
    before a b = false ↔ key b ≤ key a := by
  rw [← not_lt, ← h a b, Bool.not_eq_true]

theorem sortBy_pairwise (h : ComparesBy before key) (l : List α) :
    (sortBy before l).Pairwise fun a b => key a ≤ key b := by
  have : Std.Total fun a b => before b a = false := ⟨fun a b => by
    simp only [h.eq_false_iff]
    exact le_total (key a) (key b)⟩
  have : IsTrans α fun a b => before b a = false := ⟨fun a b c => by
    simp only [h.eq_false_iff]
    exact le_trans⟩
  have hsort := List.pairwise_insertionSort (fun a b => before b a = false) l
  refine hsort.imp ?_
  intro a b hab
  exact (h.eq_false_iff b a).mp hab

theorem mem_front_of_before (h : ComparesBy before key) {l front back : List α} {a b : α}
    (hsplit : sortBy before l = front ++ a :: back) (hb : b ∈ l) (hba : before b a = true) :
    b ∈ front := by
  have hmem : b ∈ front ++ a :: back := by
    rw [← hsplit]
    exact (sortBy_perm before l).mem_iff.mpr hb
  have hsort := sortBy_pairwise h l
  rw [hsplit, List.pairwise_append, List.pairwise_cons] at hsort
  have hlt := (h b a).mp hba
  rcases List.mem_append.mp hmem with hfront | hrest
  · exact hfront
  · rcases List.mem_cons.mp hrest with rfl | hback
    · exact absurd hlt (lt_irrefl _)
    · exact absurd hlt (not_lt.mpr (hsort.2.1.1 b hback))

theorem sortBy_eq_self (h : ComparesBy before key) {l : List α}
    (hsort : l.Pairwise fun a b => key a < key b) : sortBy before l = l := by
  apply List.Pairwise.insertionSort_eq
  refine hsort.imp ?_
  intro a b hab
  exact (h.eq_false_iff b a).mpr hab.le

theorem sortBy_congr (h : ComparesBy before key) {l l' : List α} (hperm : l.Perm l')
    (hkeys : ∀ a ∈ l, ∀ b ∈ l, key a = key b → a = b) : sortBy before l = sortBy before l' := by
  have hperm' := (sortBy_perm before l).trans (hperm.trans (sortBy_perm before l').symm)
  refine List.Perm.eq_of_pairwise ?_ (sortBy_pairwise h l) (sortBy_pairwise h l') hperm'
  intro a b ha hb hab hba
  have ha' := (sortBy_perm before l).mem_iff.mp ha
  have hb' := hperm.mem_iff.mpr ((sortBy_perm before l').mem_iff.mp hb)
  exact hkeys a ha' b hb' (le_antisymm hab hba)

theorem sortBy_strict (h : ComparesBy before key) {l : List α} (hkeys : (l.map key).Nodup) :
    (sortBy before l).Pairwise fun a b => key a < key b := by
  have hnd : ((sortBy before l).map key).Nodup :=
    ((sortBy_perm before l).map key).nodup_iff.mpr hkeys
  rw [List.Nodup, List.pairwise_map] at hnd
  refine (sortBy_pairwise h l).imp₂ ?_ hnd
  intro a b hle hne
  exact lt_of_le_of_ne hle hne

theorem sortBy_append (h : ComparesBy before key) {l l' : List α}
    (hlt : ∀ a ∈ l, ∀ b ∈ l', key a < key b)
    (hkeys : ∀ a ∈ l ++ l', ∀ b ∈ l ++ l', key a = key b → a = b) :
    sortBy before (l ++ l') = sortBy before l ++ sortBy before l' := by
  have hperm : (sortBy before (l ++ l')).Perm (sortBy before l ++ sortBy before l') :=
    (sortBy_perm before _).trans ((sortBy_perm before l).symm.append (sortBy_perm before l').symm)
  have hsort : (sortBy before l ++ sortBy before l').Pairwise fun a b => key a ≤ key b := by
    rw [List.pairwise_append]
    refine ⟨sortBy_pairwise h l, sortBy_pairwise h l', fun a ha b hb => ?_⟩
    exact (hlt a ((sortBy_perm before l).mem_iff.mp ha) b
      ((sortBy_perm before l').mem_iff.mp hb)).le
  refine List.Perm.eq_of_pairwise ?_ (sortBy_pairwise h _) hsort hperm
  intro a b ha hb hab hba
  have ha' := (sortBy_perm before _).mem_iff.mp ha
  have hb' := (sortBy_perm before _).mem_iff.mp (hperm.mem_iff.mpr hb)
  exact hkeys a ha' b hb' (le_antisymm hab hba)

end Monzero.ComparatorSort
