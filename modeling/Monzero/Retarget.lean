import Monzero.Difficulty
import Monzero.WorkCheck
import Mathlib.Algebra.Order.Floor.Div

/-!
The difficulty of the next block as a formula. The times of the last blocks are sorted and
the outliers cut off at both ends; the work between the two positions that remain, times
the target, is divided by the time between them and rounded up. The computation of the first
versions, on words, gives the same number whenever it gives one at all.
-/
namespace Monzero.Retarget

open Difficulty WorkCheck Words List
open UInt64 (toNat)

def nextDifficulty64 (m : Multiplication) (timestamps cumulativeDifficulties : List UInt64)
    (targetSeconds : UInt64) : UInt64 :=
  let timestamps := timestamps.take difficultyWindow
  let cumulativeDifficulties := cumulativeDifficulties.take difficultyWindow
  if timestamps.length ≤ 1 then 1
  else
    let sorted := timestamps.insertionSort (· ≤ ·)
    let cut := cutBounds timestamps.length
    let timeSpan := sorted.getD (cut.2 - 1) 0 - sorted.getD cut.1 0
    let timeSpan := if timeSpan = 0 then 1 else timeSpan
    let totalWork := cumulativeDifficulties.getD (cut.2 - 1) 0 - cumulativeDifficulties.getD cut.1 0
    let (low, high) := m.mul totalWork targetSeconds
    if high ≠ 0 ∨ low + timeSpan - 1 < low then 0
    else (low + timeSpan - 1) / timeSpan

theorem cutBounds_spec {length : ℕ} (htwo : 2 ≤ length) :
    (cutBounds length).1 + 2 ≤ (cutBounds length).2 ∧ (cutBounds length).2 ≤ length := by
  have hkept : difficultyWindow - 2 * difficultyCut = 600 := rfl
  simp only [cutBounds, hkept]
  split <;> dsimp only <;> omega

/-- The time and the work between the cut positions: the times are those of a sorted list, the
work is that of the chain's own order. -/
structure CutAt (times works : List ℕ) (time work : ℕ) : Prop where
  sorted : ∃ sorted : List ℕ, sorted.Perm times ∧ sorted.Pairwise (· ≤ ·) ∧
    sorted.getD ((cutBounds times.length).2 - 1) 0 =
      sorted.getD (cutBounds times.length).1 0 + time
  work_eq : works.getD ((cutBounds times.length).2 - 1) 0 =
    works.getD (cutBounds times.length).1 0 + work

/-- The exact next difficulty for a time and a work. -/
def retarget (time work targetSeconds : ℕ) : ℕ := work * targetSeconds ⌈/⌉ max 1 time

theorem pairwise_getD {R : ℕ → ℕ → Prop} {l : List ℕ} (hl : l.Pairwise R) {i j : ℕ} (hij : i < j)
    (hj : j < l.length) : R (l.getD i 0) (l.getD j 0) := by
  rw [getD_eq_getElem _ _ hj, getD_eq_getElem _ _ (hij.trans hj)]
  exact pairwise_iff_getElem.mp hl i j _ _ hij

theorem exists_cutAt {times works : List ℕ} (hlen : times.length = works.length)
    (hworks : works.Pairwise (· < ·)) (htwo : 2 ≤ times.length) :
    ∃ time work, CutAt times works time work ∧ 0 < work := by
  obtain ⟨hbegin, hend⟩ := cutBounds_spec htwo
  have hsort := times.pairwise_insertionSort (· ≤ ·)
  have htime := pairwise_getD hsort (i := (cutBounds times.length).1)
    (j := (cutBounds times.length).2 - 1) (by omega) (by rw [length_insertionSort]; omega)
  have hwork := pairwise_getD hworks (i := (cutBounds times.length).1)
    (j := (cutBounds times.length).2 - 1) (by omega) (by omega)
  refine ⟨_, _, ⟨⟨times.insertionSort (· ≤ ·), times.perm_insertionSort _, hsort,
    (Nat.add_sub_cancel' htime).symm⟩, (Nat.add_sub_cancel' hwork.le).symm⟩, ?_⟩
  exact Nat.sub_pos_of_lt hwork

section Cut

variable {times works : List ℕ} {time work : ℕ}

theorem CutAt.time_eq (h : CutAt times works time work) :
    (times.insertionSort (· ≤ ·)).getD ((cutBounds times.length).2 - 1) 0 =
      (times.insertionSort (· ≤ ·)).getD (cutBounds times.length).1 0 + time := by
  obtain ⟨sorted, hperm, hsort, htime⟩ := h.sorted
  have heq : sorted = times.insertionSort (· ≤ ·) :=
    (hperm.trans (times.perm_insertionSort _).symm).eq_of_pairwise' hsort
      (times.pairwise_insertionSort _)
  rw [← heq]
  exact htime

theorem max_one_eq (n : ℕ) : max 1 n = if n = 0 then 1 else n := by
  split <;> omega

theorem CutAt.work_lt (h : CutAt times works time work) {bound : ℕ}
    (hbound : ∀ d ∈ works, d < bound) (hpos : 0 < bound) : work < bound := by
  have hlast : works.getD ((cutBounds times.length).2 - 1) 0 < bound := by
    by_cases hi : (cutBounds times.length).2 - 1 < works.length
    · rw [getD_eq_getElem _ _ hi]
      exact hbound _ (getElem_mem hi)
    · rw [getD_eq_default _ _ (by omega)]
      exact hpos
  have hwork := h.work_eq
  omega

theorem nextDifficulty_of_cutAt {ts cds : List ℕ} (hcut : CutAt (ts.take difficultyWindow)
      (cds.take difficultyWindow) time work) (hwide : ∀ d ∈ cds, d < 2 ^ 128)
    (htwo : 2 ≤ (ts.take difficultyWindow).length) (secs : ℕ) : nextDifficulty ts cds secs =
      if retarget time work secs < 2 ^ 128 then retarget time work secs
      else 0 := by
  have hlt := hcut.work_lt (fun d hd => hwide d (mem_of_mem_take hd)) (by norm_num)
  rw [nextDifficulty]
  simp only
  rw [if_neg (by omega), hcut.time_eq, hcut.work_eq, Nat.add_sub_cancel_left, ← max_one_eq]
  generalize (cds.take difficultyWindow).getD _ 0 = first
  rw [show first + work + 2 ^ 128 - first = work + 2 ^ 128 by omega, Nat.add_mod_right,
    Nat.mod_eq_of_lt hlt, ← Nat.ceilDiv_eq_add_pred_div, ← retarget]
  by_cases hfits : retarget time work secs < 2 ^ 128
  · rw [if_neg (by omega), if_pos hfits]
  · rw [if_pos (by omega), if_neg hfits]

theorem retarget_pos {secs : ℕ} (hwork : 0 < work) (htarget : 0 < secs) :
    0 < retarget time work secs := by
  rw [Nat.pos_iff_ne_zero]
  intro hzero
  have hle := le_smul_ceilDiv (a := max 1 time) (b := work * secs) (by omega)
  rw [← retarget, hzero, smul_zero] at hle
  have hpos := Nat.mul_pos hwork htarget
  omega

end Cut

section Words

variable {times works : List UInt64} {time work : ℕ}

theorem toNat_getD_sub {l : List UInt64} {i j d : ℕ}
    (h : (l.map toNat).getD j 0 = (l.map toNat).getD i 0 + d) :
    (l.getD j 0 - l.getD i 0).toNat = d := by
  rw [← UInt64.toNat_zero, getD_map, getD_map] at h
  rw [UInt64.toNat_sub_of_le _ _ (UInt64.le_iff_toNat_le.mpr (by omega))]
  omega

theorem toNat_add_sub_one {a b : UInt64} (hpos : 0 < b.toNat) (h : ¬ a + b - 1 < a) :
    (a + b - 1).toNat = a.toNat + b.toNat - 1 := by
  have ha := a.toNat_lt
  have hb := b.toNat_lt
  have hone : (1 : UInt64).toNat = 1 := rfl
  rw [UInt64.lt_iff_toNat_lt, UInt64.toNat_sub, UInt64.toNat_add, hone] at h
  rw [UInt64.toNat_sub, UInt64.toNat_add, hone]
  omega

theorem toNat_max_one (n : UInt64) : (if n = 0 then 1 else n).toNat = max 1 n.toNat := by
  rw [max_one_eq]
  by_cases hzero : n = 0
  · rw [if_pos hzero, if_pos (by rw [hzero]; rfl)]
    rfl
  · have hpos : n.toNat ≠ 0 := fun h => hzero (UInt64.toNat_inj.mp h)
    rw [if_neg hzero, if_neg hpos]

theorem nextDifficulty64_of_cutAt {m : Multiplication} {ts works : List UInt64}
    (hcut : CutAt ((ts.take difficultyWindow).map toNat)
      ((works.take difficultyWindow).map toNat) time work)
    (htwo : 2 ≤ (ts.take difficultyWindow).length) {secs : UInt64}
    (hne : nextDifficulty64 m ts works secs ≠ 0) : (nextDifficulty64 m ts works secs).toNat =
      retarget time work secs.toNat := by
  have hsort := hcut.time_eq
  have hwork := hcut.work_eq
  rw [length_map] at hsort hwork
  rw [← map_insertionSort (· ≤ ·) (· ≤ ·) toNat _
    (fun _ _ _ _ => UInt64.le_iff_toNat_le)] at hsort
  have htime := toNat_getD_sub hsort
  replace hwork := toNat_getD_sub hwork
  rw [nextDifficulty64] at hne ⊢
  simp only at hne ⊢
  rw [if_neg (by omega)] at hne ⊢
  generalize ((ts.take difficultyWindow).insertionSort (· ≤ ·)).getD _ 0 - _ = span at htime hne ⊢
  generalize (works.take difficultyWindow).getD _ 0 - _ = total at hwork hne ⊢
  have hmax := toNat_max_one span
  generalize (if span = 0 then 1 else span) = divisor at hmax hne ⊢
  have hproduct := m.wide_mul total secs
  generalize m.mul total secs = product at hproduct hne ⊢
  obtain ⟨low, high⟩ := product
  by_cases hover : high ≠ 0 ∨ low + divisor - 1 < low
  · exact absurd (if_pos hover) hne
  · rw [not_or, not_not] at hover
    obtain ⟨hhigh, hfits⟩ := hover
    rw [if_neg (not_or.mpr ⟨not_not.mpr hhigh, hfits⟩)]
    rw [hhigh, wide_zero, hwork] at hproduct
    rw [UInt64.toNat_div, toNat_add_sub_one (by omega) hfits, hproduct, hmax, htime, retarget,
      Nat.ceilDiv_eq_add_pred_div]

end Words

theorem nextDifficulty_congr {times times' works works' : List ℕ}
    (htimes : (times'.take difficultyWindow).Perm (times.take difficultyWindow))
    (hworks : works'.take difficultyWindow = works.take difficultyWindow) (secs : ℕ) :
    nextDifficulty times' works' secs = nextDifficulty times works secs := by
  have hsort : (times'.take difficultyWindow).insertionSort (· ≤ ·) =
      (times.take difficultyWindow).insertionSort (· ≤ ·) :=
    (((perm_insertionSort _ _).trans htimes).trans
      (perm_insertionSort _ _).symm).eq_of_pairwise' (pairwise_insertionSort _ _)
        (pairwise_insertionSort _ _)
  simp only [nextDifficulty, hsort, hworks, htimes.length_eq]

theorem nextDifficulty_eq_of_words {m : Multiplication} {times works : List UInt64}
    (hlen : times.length = works.length) (hworks : (works.map toNat).Pairwise (· < ·))
    {secs : UInt64} (hne : nextDifficulty64 m times works secs ≠ 0) :
    nextDifficulty (times.map toNat) (works.map toNat) secs.toNat =
      (nextDifficulty64 m times works secs).toNat := by
  by_cases htwo : 2 ≤ (times.take difficultyWindow).length
  · have hequal : ((times.map toNat).take difficultyWindow).length =
        ((works.map toNat).take difficultyWindow).length := by
      simp [hlen]
    have hmap : ((times.map toNat).take difficultyWindow).length =
        (times.take difficultyWindow).length := by simp
    obtain ⟨time, work, hcut, -⟩ := exists_cutAt hequal (hworks.take) (by omega)
    have hwide : ∀ d ∈ works.map toNat, d < 2 ^ 128 := by
      intro d hd
      obtain ⟨w, -, rfl⟩ := mem_map.mp hd
      exact w.toNat_lt.trans (by norm_num)
    have hexact := nextDifficulty_of_cutAt hcut hwide (by omega) secs.toNat
    rw [← map_take, ← map_take] at hcut
    have hword := nextDifficulty64_of_cutAt hcut htwo hne
    have hlt := (nextDifficulty64 m times works secs).toNat_lt
    rw [hexact, ← hword, if_pos (by omega)]
  · have hshort : ((times.map toNat).take difficultyWindow).length ≤ 1 := by
      rw [← map_take, length_map]
      omega
    rw [nextDifficulty, nextDifficulty64, if_pos hshort, if_pos (by omega)]
    rfl

/-- The next difficulty for equally long lists of times and increasing work. -/
theorem next_difficulty_retargets (timestamps cumulativeDifficulties : List ℕ) (targetSeconds : ℕ)
    (hlength : timestamps.length = cumulativeDifficulties.length)
    (hwork : cumulativeDifficulties.Pairwise (· < ·))
    (hwide : ∀ d ∈ cumulativeDifficulties, d < 2 ^ 128) :
    (∀ timestamps' cumulativeDifficulties' : List ℕ,
      (timestamps'.take 720).Perm (timestamps.take 720) →
      cumulativeDifficulties'.take 720 = cumulativeDifficulties.take 720 →
        nextDifficulty timestamps' cumulativeDifficulties' targetSeconds =
          nextDifficulty timestamps cumulativeDifficulties targetSeconds) ∧
    (timestamps.length ≤ 1 →
      nextDifficulty timestamps cumulativeDifficulties targetSeconds = 1) ∧
    (2 ≤ timestamps.length →
      (cutBounds (timestamps.take 720).length).1 + 2 ≤ (cutBounds (timestamps.take 720).length).2 ∧
      (cutBounds (timestamps.take 720).length).2 ≤ (timestamps.take 720).length ∧
      ∃ time work, CutAt (timestamps.take 720) (cumulativeDifficulties.take 720) time work ∧
        nextDifficulty timestamps cumulativeDifficulties targetSeconds =
          (if work * targetSeconds ⌈/⌉ max 1 time < 2 ^ 128 then
            work * targetSeconds ⌈/⌉ max 1 time else 0) ∧
        (1 ≤ targetSeconds → work * targetSeconds ⌈/⌉ max 1 time < 2 ^ 128 →
          1 ≤ nextDifficulty timestamps cumulativeDifficulties targetSeconds)) ∧
    ∀ (m : Multiplication) (times works : List UInt64) (target : UInt64),
      times.map toNat = timestamps → works.map toNat = cumulativeDifficulties →
      target.toNat = targetSeconds → nextDifficulty64 m times works target ≠ 0 →
        nextDifficulty timestamps cumulativeDifficulties targetSeconds =
          (nextDifficulty64 m times works target).toNat := by
  refine ⟨fun _ _ htimes hworks => nextDifficulty_congr htimes hworks targetSeconds, ?_, ?_, ?_⟩
  · intro hshort
    rw [nextDifficulty, if_pos (by rw [length_take]; omega)]
  · intro htwo
    have htwo' : 2 ≤ (timestamps.take 720).length := by
      rw [length_take]
      omega
    have hequal : (timestamps.take 720).length = (cumulativeDifficulties.take 720).length := by
      rw [length_take, length_take, hlength]
    obtain ⟨hbegin, hend⟩ := cutBounds_spec htwo'
    obtain ⟨time, work, hcut, hpos⟩ := exists_cutAt hequal hwork.take htwo'
    have hexact := nextDifficulty_of_cutAt hcut hwide htwo' targetSeconds
    refine ⟨hbegin, hend, time, work, hcut, hexact, fun htarget hfits => ?_⟩
    rw [hexact, retarget, if_pos hfits]
    exact retarget_pos hpos htarget
  · rintro m times works target rfl rfl rfl hne
    rw [length_map, length_map] at hlength
    exact nextDifficulty_eq_of_words hlength hwork hne

/-- Two blocks a minute apart, with the later one first and a work of a thousand between them. -/
theorem next_difficulty_two_blocks :
    nextDifficulty [160, 100] [1000, 2000] 120 = nextDifficulty [100, 160] [1000, 2000] 120 ∧
      nextDifficulty [160, 100] [1000, 2000] 120 =
        (nextDifficulty64 .portable [160, 100] [1000, 2000] 120).toNat ∧
      nextDifficulty64 .portable [160, 100] [1000, 2000] 120 = 2000 := by
  obtain ⟨hperm, -, -, hwords⟩ := next_difficulty_retargets [160, 100] [1000, 2000] 120 rfl
    (by decide) (by decide)
  refine ⟨(hperm [100, 160] [1000, 2000] (by decide) rfl).symm, ?_, by decide +kernel⟩
  exact hwords .portable [160, 100] [1000, 2000] 120 rfl rfl rfl (by decide +kernel)

end Monzero.Retarget
