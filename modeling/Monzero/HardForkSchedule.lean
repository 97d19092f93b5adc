import Monzero.HardForks
import Mathlib.Data.List.GetD
import Mathlib.Data.List.Pairwise
import Mathlib.Data.Nat.Basic
import Mathlib.Order.Basic
import Mathlib.Order.Lattice

/-!
A schedule without votes. When every threshold is zero the entry in force is the last one
whose height is reached, whatever was voted, and each of the four procedures that keep
the index arrives at it: a count of the entries reached by a height stands for all of
them.
-/
namespace Monzero.HardForkSchedule

open HardForks HardFork List

/-- The number of entries whose height is reached. -/
def reachedBy (heights : List Fork) (height : ℕ) : ℕ :=
  heights.countP fun e => e.height ≤ height

/-- The index of the entry in force at a height. -/
def indexAt (heights : List Fork) (height : ℕ) : ℕ := reachedBy heights height - 1

/-- The version in force at a height. -/
def versionAt (heights : List Fork) (height : ℕ) : UInt8 :=
  (heights.getD (indexAt heights height) default).version

/-- A table that `add_fork` accepts: versions and heights go up, and no version is zero. -/
structure Increasing (heights : List Fork) : Prop where
  versions : heights.Pairwise fun a b => a.version < b.version
  ordered : heights.Pairwise fun a b => a.height < b.height
  positive : ∀ e ∈ heights, e.version ≠ 0

/-- A table without votes that begins with the original version. -/
structure Voteless (heights : List Fork) (originalVersion : UInt8) : Prop extends
    Increasing heights where
  nonempty : heights ≠ []
  thresholds : ∀ e ∈ heights, e.threshold = 0
  first : ∀ e ∈ heights.head?, e.height ≤ 1 ∧ e.version = originalVersion

theorem increasing_addFork {f : HardFork} (e : Fork) (h : Increasing f.heights) :
    Increasing (f.addFork e).2.heights := by
  unfold addFork
  split
  · exact h
  · rename_i hver
    split
    · exact h
    · rename_i hlast
      split
      · exact h
      · -- Whatever is in the table is at most its last entry, which is below the new one.
        have habove : ∀ a ∈ f.heights, a.version < e.version ∧ a.height < e.height := by
          intro a ha
          obtain ⟨front, last, hlist⟩ := (eq_nil_or_concat' f.heights).resolve_left
            (ne_nil_of_mem ha)
          have hend : last.version < e.version ∧ last.height < e.height := by
            rw [hlist, getLast?_concat] at hlast
            simp only [Option.any_some, decide_eq_true_eq, not_or, Nat.not_le,
              UInt8.not_le] at hlast
            exact ⟨hlast.1, hlast.2.1⟩
          rw [hlist, mem_append, mem_singleton] at ha
          rcases ha with ha | rfl
          · have hv := h.versions
            have hh := h.ordered
            rw [hlist, pairwise_append] at hv hh
            exact ⟨UInt8.lt_trans (hv.2.2 a ha last (mem_singleton_self _)) hend.1,
              (hh.2.2 a ha last (mem_singleton_self _)).trans hend.2⟩
          · exact hend
        refine ⟨?_, ?_, ?_⟩
        · rw [pairwise_append]
          refine ⟨h.versions, pairwise_singleton _ _, fun a ha b hb => ?_⟩
          rw [mem_singleton.mp hb]
          exact (habove a ha).1
        · rw [pairwise_append]
          refine ⟨h.ordered, pairwise_singleton _ _, fun a ha b hb => ?_⟩
          rw [mem_singleton.mp hb]
          exact (habove a ha).2
        · intro a ha
          rcases mem_append.mp ha with ha | ha
          · exact h.positive a ha
          · rw [mem_singleton.mp ha]
            exact hver

theorem increasing_addForks {f : HardFork} (es : List Fork) (h : f.heights = []) :
    Increasing (f.addForks es).heights := by
  refine List.foldlRecOn (motive := fun f : HardFork => Increasing f.heights) _ _ ?_ ?_
  · rw [h]
    exact ⟨List.Pairwise.nil, List.Pairwise.nil, by simp⟩
  · intro g hg e _
    exact increasing_addFork e hg

section Counting

variable {heights : List Fork}

theorem getD_reached_iff (h : Increasing heights) (height n : ℕ) (hn : n < heights.length) :
    (heights.getD n default).height ≤ height ↔ n < reachedBy heights height := by
  have hpairwise := h.ordered
  clear h
  induction heights generalizing n with
  | nil => simp at hn
  | cons e rest ih =>
    rw [pairwise_cons] at hpairwise
    have hcnt : reachedBy (e :: rest) height =
        reachedBy rest height + if e.height ≤ height then 1 else 0 := by
      simp [reachedBy, countP_cons]
    by_cases he : e.height ≤ height
    · rw [hcnt, if_pos he]
      cases n with
      | zero => simpa using he
      | succ n =>
        have hrest := ih n (by simpa using hn) hpairwise.2
        rw [getD_cons_succ]
        omega
    · have habove : ∀ a ∈ rest, height < a.height := by
        intro a ha
        have hlt := hpairwise.1 a ha
        omega
      have hnone : reachedBy rest height = 0 := by
        refine countP_eq_zero.mpr fun a ha => ?_
        simpa using habove a ha
      rw [hcnt, if_neg he, hnone]
      cases n with
      | zero => simpa using he
      | succ n =>
        have hn' : n < rest.length := by simpa using hn
        have hmem := habove rest[n] (getElem_mem hn')
        rw [getD_cons_succ, getD_eq_getElem _ _ hn']
        omega

theorem filter_reached (h : heights.Pairwise fun a b => a.height < b.height) (height : ℕ) :
    heights.filter (fun e => e.height ≤ height) = heights.take (reachedBy heights height) := by
  induction heights with
  | nil => rfl
  | cons e rest ih =>
    rw [pairwise_cons] at h
    by_cases he : e.height ≤ height
    · rw [filter_cons_of_pos (by simpa using he), reachedBy,
        countP_cons_of_pos (by simpa using he), take_succ_cons, ih h.2, reachedBy]
    · have hnone : ∀ a ∈ e :: rest, ¬ a.height ≤ height := by
        intro a ha
        rcases mem_cons.mp ha with rfl | ha
        · exact he
        · have hlt := h.1 a ha
          omega
      have hcnt : reachedBy (e :: rest) height = 0 :=
        countP_eq_zero.mpr fun a ha => by simpa using hnone a ha
      rw [hcnt, take_zero, filter_eq_nil_iff]
      intro a ha
      simpa using hnone a ha

theorem reachedBy_le_length (heights : List Fork) (height : ℕ) :
    reachedBy heights height ≤ heights.length := countP_le_length

theorem reachedBy_mono (heights : List Fork) {a b : ℕ} (h : a ≤ b) :
    reachedBy heights a ≤ reachedBy heights b := by
  refine countP_mono_left fun e _ he => ?_
  simp only [decide_eq_true_eq] at he ⊢
  omega

theorem indexAt_mono (heights : List Fork) {a b : ℕ} (h : a ≤ b) :
    indexAt heights a ≤ indexAt heights b := Nat.sub_le_sub_right (reachedBy_mono heights h) 1

theorem getD_version_lt (h : Increasing heights) {i j : ℕ} (hij : i < j) (hj : j < heights.length) :
    (heights.getD i default).version < (heights.getD j default).version := by
  rw [getD_eq_getElem _ _ (hij.trans hj), getD_eq_getElem _ _ hj]
  exact pairwise_iff_getElem.mp h.versions i j (hij.trans hj) hj hij

/-- The version of an entry is above its index, so the table has at most 255 entries. -/
theorem length_lt_byte (h : Increasing heights) : heights.length < 256 := by
  have habove : ∀ n (hn : n < heights.length), n < heights[n].version.toNat := by
    intro n
    induction n with
    | zero =>
      intro hn
      have hpos := h.positive _ (getElem_mem hn)
      have hne : heights[0].version.toNat ≠ 0 :=
        fun hz => hpos (UInt8.toNat_inj.mp (by simpa using hz))
      omega
    | succ n ih =>
      intro hn
      have hlt := pairwise_iff_getElem.mp h.versions n (n + 1) (by omega) hn (by omega)
      have hlt' := UInt8.lt_iff_toNat_lt.mp hlt
      have hn' := ih (by omega)
      omega
  by_contra hlong
  have hmany : 255 < heights.length := by omega
  have hlast := habove 255 hmany
  have hbound := heights[255].version.toNat_lt
  omega

variable {ver0 : UInt8}

theorem Voteless.length_pos (h : Voteless heights ver0) : 0 < heights.length :=
  length_pos_of_ne_nil h.nonempty

theorem Voteless.reachedBy_pos (h : Voteless heights ver0) {height : ℕ}
    (hpos : 0 < height) : 0 < reachedBy heights height := by
  rw [← getD_reached_iff h.toIncreasing height 0 h.length_pos]
  cases hlist : heights with
  | nil => exact absurd hlist h.nonempty
  | cons e rest =>
    have hfst := (h.first e (by simp [hlist])).1
    simp only [getD_cons_zero]
    omega

theorem Voteless.indexAt_lt (h : Voteless heights ver0) (height : ℕ) :
    indexAt heights height < heights.length := by
  have hle := reachedBy_le_length heights height
  have hpos := h.length_pos
  unfold indexAt
  omega

theorem Voteless.first_version (h : Voteless heights ver0) :
    (heights.getD 0 default).version = ver0 := by
  cases hlist : heights with
  | nil => exact absurd hlist h.nonempty
  | cons e rest => exact (h.first e (by simp [hlist])).2

theorem Voteless.last_reached (h : Voteless heights ver0) {height : ℕ} (hpos : 0 < height) :
    (heights.filter fun e => e.height ≤ height).getLast?.map Fork.version =
      some (versionAt heights height) := by
  have hreached := h.reachedBy_pos hpos
  have hlt := h.indexAt_lt height
  have hlast : heights[reachedBy heights height - 1]? =
      some (heights.getD (indexAt heights height) default) := by
    rw [getD_eq_getElem _ _ hlt]
    exact getElem?_eq_getElem hlt
  rw [filter_reached h.ordered, getLast?_take, if_neg (by omega), hlast]
  rfl

/-- At height zero the first entry is in force, as long as no other is reached. -/
theorem Voteless.indexAt_zero (h : Voteless heights ver0) : indexAt heights 0 = 0 := by
  by_contra hne
  have hone : 1 < reachedBy heights 0 := by
    unfold indexAt at hne
    omega
  have hlen := reachedBy_le_length heights 0
  have hreached := (getD_reached_iff h.toIncreasing 0 1 (by omega)).mpr hone
  have hfst := pairwise_iff_getElem.mp h.ordered 0 1 (by omega) (by omega) (by omega)
  rw [getD_eq_getElem _ _ (by omega)] at hreached
  omega

end Counting

section Loops

variable {heights : List Fork} {ver0 : UInt8} {f : HardFork}

theorem votedLoop_eq (h : Voteless heights ver0) (htab : f.heights = heights)
    (height n : ℕ) (votes : UInt32) (hn : n ≤ heights.length) : f.votedLoop height n votes =
      if 0 < min n (reachedBy heights height) then min n (reachedBy heights height) - 1
      else f.currentForkIndex := by
  induction n generalizing votes with
  | zero => simp [votedLoop]
  | succ n ih =>
    have hthreshold : (f.entry n).threshold = 0 := by
      rw [entry, htab, getD_eq_getElem _ _ (by omega)]
      exact h.thresholds _ (getElem_mem _)
    have hneeded : f.votesNeeded (f.entry n) = 0 := by
      simp [votesNeeded, hthreshold]
    have hreached : (f.entry n).height ≤ height ↔ n < reachedBy heights height := by
      rw [entry, htab]
      exact getD_reached_iff h.toIncreasing height n (by omega)
    rw [votedLoop]
    simp only [hneeded, ge_iff_le, UInt32.zero_le, and_true]
    by_cases hr : n < reachedBy heights height
    · rw [if_pos (hreached.mpr hr), if_pos (by omega)]
      omega
    · rw [if_neg (fun hle => hr (hreached.mp hle)), ih _ (by omega)]
      have hmin : min n (reachedBy heights height) = min (n + 1) (reachedBy heights height) := by
        omega
      rw [hmin]

theorem getVotedForkIndex_eq (h : Voteless heights ver0) (htab : f.heights = heights)
    {height : ℕ} (hpos : 0 < height) : f.getVotedForkIndex height = indexAt heights height := by
  have hreached := h.reachedBy_pos hpos
  have hle := reachedBy_le_length heights height
  rw [getVotedForkIndex, htab, votedLoop_eq h htab _ _ _ (le_refl _), min_eq_right hle,
    if_pos hreached, indexAt]

theorem reachedIndex_eq (h : Voteless heights ver0) (htab : f.heights = heights)
    (height : ℕ) {n : ℕ} (hn : n < heights.length) :
    f.reachedIndex height n = min n (indexAt heights height) := by
  induction n with
  | zero => simp [reachedIndex]
  | succ n ih =>
    have hreached : (f.entry (n + 1)).height ≤ height ↔ n + 1 < reachedBy heights height := by
      rw [entry, htab]
      exact getD_reached_iff h.toIncreasing height (n + 1) hn
    rw [reachedIndex]
    by_cases hr : n + 1 < reachedBy heights height
    · rw [if_pos (hreached.mpr hr)]
      unfold indexAt
      omega
    · rw [if_neg (fun hle => hr (hreached.mp hle)), ih (by omega)]
      unfold indexAt
      omega

theorem reachedIndex_last (h : Voteless heights ver0) (htab : f.heights = heights)
    {height : ℕ} : f.reachedIndex height (f.heights.length - 1) = indexAt heights height := by
  have hpos := h.length_pos
  have hlt := h.indexAt_lt height
  rw [htab, reachedIndex_eq h htab height (by omega)]
  omega

theorem getIdealVersion_eq (h : Voteless heights ver0) (htab : f.heights = heights)
    (horiginal : f.originalVersion = ver0) (height : ℕ) :
    f.getIdealVersion height = versionAt heights height := by
  rw [getIdealVersion, reachedIndex_last h htab, versionAt]
  cases indexAt heights height with
  | zero => exact horiginal.trans h.first_version.symm
  | succ n =>
    change (f.heights.getD (n + 1) default).version = _
    rw [htab]

/-- Walking down from a later entry to the version of an earlier one ends at that entry. -/
theorem lowerFork_eq (h : Increasing heights) (htab : f.heights = heights) {i n : ℕ}
    (hi : i ≤ n) (hn : n < heights.length) :
    f.lowerFork (heights.getD i default).version n = i := by
  induction n with
  | zero =>
    rw [lowerFork]
    omega
  | succ n ih =>
    rw [lowerFork, entry, htab]
    by_cases heq : i = n + 1
    · rw [heq, if_neg (UInt8.lt_irrefl _)]
    · rw [if_pos (getD_version_lt h (by omega) hn), ih (by omega) (by omega)]

theorem findVersion_eq (h : Increasing heights) (i : ℕ) (hi : i < heights.length) :
    findVersion (heights.getD i default).version heights = i := by
  have hpairwise := h.versions
  clear h
  induction heights generalizing i with
  | nil => simp at hi
  | cons e rest ih =>
    cases rest with
    | nil =>
      rw [findVersion]
      simp only [length_cons, length_nil] at hi
      omega
    | cons e' rest =>
      rw [pairwise_cons] at hpairwise
      cases i with
      | zero => simp [findVersion]
      | succ i =>
        have hi' : i < (e' :: rest).length := by simpa using hi
        have hlt := hpairwise.1 _ (getElem_mem hi')
        have hne : e.version ≠ ((e' :: rest).getD i default).version := by
          rw [getD_eq_getElem _ _ hi']
          exact UInt8.ne_of_lt hlt
        rw [getD_cons_succ, findVersion, if_neg hne, ih i hi' hpairwise.2]
        simp

theorem raiseFork_eq (h : Voteless heights ver0) (htab : f.heights = heights)
    {height : ℕ} (hpos : 0 < height) (hle : f.currentForkIndex ≤ indexAt heights height) :
    f.raiseFork height = { f with currentForkIndex := indexAt heights height } := by
  have hbyte : indexAt heights height % 256 = indexAt heights height := by
    have hlt := h.indexAt_lt height
    have hlen := length_lt_byte h.toIncreasing
    exact Nat.mod_eq_of_lt (by omega)
  rw [raiseFork, getVotedForkIndex_eq h htab hpos, hbyte]
  by_cases hlt : indexAt heights height > f.currentForkIndex
  · rw [if_pos hlt]
  · rw [if_neg hlt, show indexAt heights height = f.currentForkIndex by omega]

end Loops

end Monzero.HardForkSchedule
