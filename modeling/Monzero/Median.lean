import Mathlib.Data.List.GetD
import Mathlib.Data.List.Sort

/-!
The median of a list of numbers: the middle element of the sorted list, or the mean of
the two middle ones, rounded down. It depends on the elements only, not on their order.
-/
namespace Monzero.Median

open List

def getMid (a b : ℕ) : ℕ := a / 2 + b / 2 + ((a - 2 * (a / 2)) + (b - 2 * (b / 2))) / 2

/-- `epee::misc_utils::median`. -/
def median (v : List ℕ) : ℕ :=
  let n := v.length / 2
  let sorted := v.insertionSort (· ≤ ·)
  if v.length = 0 then 0
  else if v.length = 1 then v.getD 0 0
  else if v.length % 2 = 1 then sorted.getD n 0
  else getMid (sorted.getD (n - 1) 0) (sorted.getD n 0)

theorem insertionSort_perm {v w : List ℕ} (h : v.Perm w) :
    v.insertionSort (· ≤ ·) = w.insertionSort (· ≤ ·) :=
  List.Perm.eq_of_pairwise' (pairwise_insertionSort _ v) (pairwise_insertionSort _ w)
    ((perm_insertionSort _ v).trans (h.trans (perm_insertionSort _ w).symm))

theorem median_perm {v w : List ℕ} (h : v.Perm w) : median v = median w := by
  by_cases hone : v.length = 1
  · obtain ⟨a, rfl⟩ := length_eq_one_iff.mp hone
    rw [singleton_perm.mp h]
  · have hlen := h.length_eq
    simp only [median, insertionSort_perm h, hlen, if_neg (hlen ▸ hone)]

theorem getMid_comm (a b : ℕ) : getMid a b = getMid b a := by
  unfold getMid
  omega

section Split

variable {low high : List ℕ} {c : ℕ}

theorem insertionSort_split (hlow : ∀ a ∈ low, a ≤ c) (hhigh : ∀ a ∈ high, c ≤ a) :
    (low ++ c :: high).insertionSort (· ≤ ·) =
      low.insertionSort (· ≤ ·) ++ c :: high.insertionSort (· ≤ ·) := by
  refine List.Perm.eq_of_pairwise' (pairwise_insertionSort _ _) ?_ ?_
  · rw [pairwise_append]
    refine ⟨pairwise_insertionSort _ _, ?_, ?_⟩
    · rw [pairwise_cons]
      refine ⟨fun a ha => hhigh a ((mem_insertionSort _).mp ha), pairwise_insertionSort _ _⟩
    · intro a ha b hb
      have hac := hlow a ((mem_insertionSort _).mp ha)
      rcases mem_cons.mp hb with rfl | hb
      · exact hac
      · exact hac.trans (hhigh b ((mem_insertionSort _).mp hb))
  · exact (perm_insertionSort _ _).trans ((perm_insertionSort _ low).symm.append
        ((perm_insertionSort _ high).symm.cons c))

/-- With as many smaller as greater values, the value between them is the median. -/
theorem median_of_even_split (hlow : ∀ a ∈ low, a ≤ c) (hhigh : ∀ a ∈ high, c ≤ a)
    (hlen : low.length = high.length) : median (low ++ c :: high) = c := by
  have hsize : (low ++ c :: high).length = 2 * low.length + 1 := by
    rw [length_append, length_cons]
    omega
  have hsort := insertionSort_split hlow hhigh
  by_cases hnil : low = []
  · subst hnil
    rw [eq_nil_of_length_eq_zero hlen.symm]
    rfl
  · have hpos : 0 < low.length := length_pos_iff.mpr hnil
    simp only [median, hsort, hsize]
    rw [if_neg (by omega), if_neg (by omega), if_pos (by omega),
      show (2 * low.length + 1) / 2 = (low.insertionSort (· ≤ ·)).length by
        rw [length_insertionSort]; omega,
      getD_append_right _ _ _ _ le_rfl, Nat.sub_self]
    rfl

theorem getD_insertionSort_last {t : ℕ} (ht : t ∈ low) (hmax : ∀ a ∈ low, a ≤ t) :
    (low.insertionSort (· ≤ ·)).getD (low.length - 1) 0 = t := by
  have hpos : 0 < low.length := length_pos_iff.mpr (ne_nil_of_mem ht)
  have hlast : low.length - 1 < (low.insertionSort (· ≤ ·)).length := by
    rw [length_insertionSort]
    omega
  rw [getD_eq_getElem _ _ hlast]
  refine le_antisymm (hmax _ ((mem_insertionSort _).mp (getElem_mem hlast))) ?_
  obtain ⟨i, hi, rfl⟩ := mem_iff_getElem.mp ((mem_insertionSort (· ≤ ·)).mpr ht)
  rcases Nat.lt_or_ge i (low.length - 1) with hlt | hge
  · exact pairwise_iff_getElem.mp (pairwise_insertionSort (· ≤ ·) low) i _ hi hlast hlt
  · have hlen := length_insertionSort (· ≤ ·) low
    have hsame : i = low.length - 1 := by omega
    subst hsame
    exact le_rfl

/-- With one smaller value more, the median is the mean of the greatest of these and the value
between. -/
theorem median_of_odd_split {t : ℕ} (hlow : ∀ a ∈ low, a ≤ c) (hhigh : ∀ a ∈ high, c ≤ a)
    (hlen : low.length = high.length + 1) (ht : t ∈ low) (hmax : ∀ a ∈ low, a ≤ t) :
    median (low ++ c :: high) = getMid t c := by
  have hsize : (low ++ c :: high).length = 2 * low.length := by
    rw [length_append, length_cons]
    omega
  have hsort := insertionSort_split hlow hhigh
  have hsortedLength := length_insertionSort (· ≤ ·) low
  simp only [median, hsort, hsize]
  rw [if_neg (by omega), if_neg (by omega), if_neg (by omega),
    show 2 * low.length / 2 = low.length by omega, getD_append _ _ _ _ (by omega),
    getD_insertionSort_last ht hmax, getD_append_right _ _ _ _ (by omega), hsortedLength,
    Nat.sub_self]
  rfl

end Split

end Monzero.Median
