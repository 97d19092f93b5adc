import Monzero.LinkedChains
import Mathlib.Data.Nat.Log
import Mathlib.Order.Monotone.Basic
import Mathlib.Tactic.IntervalCases
import Mathlib.Tactic.Positivity

/-!
The start of a synchronisation. A node sends a short history of its chain: the ids of the last
blocks, then of blocks at distances that double, and the genesis block. The other node answers
with the height of the first of them that it has. Each distance is at most twice the one
before, so that the part of the common chain that is sent again is no longer than the
blocks that the first node has alone.
-/
namespace Monzero.ChainHistory

open LinkedChains List

/-- The loop of `get_short_chain_history` over the heights it lists, with the number of the
entry, the multiplier and the distance from the top. The distance grows with every entry. -/
def historyLoop (sz : ℕ) : ℕ → ℕ → ℕ → ℕ → List ℕ
  | 0, _, _, _ => []
  | fuel + 1, i, currentMultiplier, currentBackOffset =>
      if currentBackOffset < sz then
        (sz - currentBackOffset) ::
          if i < 10 then historyLoop sz fuel (i + 1) currentMultiplier (currentBackOffset + 1)
          else historyLoop sz fuel (i + 1) (currentMultiplier * 2)
            (currentBackOffset + currentMultiplier * 2)
      else []

/-- The heights of the history; genesis is added unless it is listed. -/
def historyHeights (sz : ℕ) : List ℕ :=
  if sz = 0 then []
  else
    let heights := historyLoop sz sz 0 1 1
    if 0 ∈ heights then heights else heights ++ [0]

section Nodes

variable {α : Type} [DecidableEq α]

/-- `get_short_chain_history` on the ids of a chain, with its height. `none` when the database
throws. -/
def getShortChainHistory (db : List α) : Option (List α × ℕ) :=
  ((historyHeights db.length).mapM fun height => db[height]?).map fun ids => (ids, db.length)

/-- `block_exists`, with the height it finds. -/
def blockExists (db : List α) (id : α) : Option ℕ := db.findIdx? (· = id)

/-- `find_blockchain_supplement`; `none` when it returns false or the database throws. -/
def findBlockchainSupplement (db qblockIds : List α) : Option ℕ :=
  match qblockIds.getLast?, db[0]? with
  | some last, some genesis => if last ≠ genesis then none else qblockIds.findSome? (blockExists db)
  | _, _ => none

end Nodes

/-- The distance of an entry from the top: the first ten follow each other, the others are nine
and a power of two. -/
def backOffset (i : ℕ) : ℕ := if i < 10 then i + 1 else 9 + 2 ^ (i - 9)

/-- The multiplier at an entry. -/
def multiplierAt (i : ℕ) : ℕ := if i < 10 then 1 else 2 ^ (i - 10)

theorem backOffset_of_ge (k : ℕ) : backOffset (k + 10) = 9 + 2 ^ (k + 1) := by
  rw [backOffset, if_neg (by omega), show k + 10 - 9 = k + 1 by omega]

theorem backOffset_succ (i : ℕ) : backOffset (i + 1) =
      if i < 10 then backOffset i + 1 else backOffset i + multiplierAt i * 2 := by
  by_cases hi : i < 10
  · rw [if_pos hi]
    interval_cases i <;> rfl
  · obtain ⟨k, rfl⟩ := Nat.exists_eq_add_of_le' (Nat.le_of_not_lt hi)
    rw [if_neg hi, show k + 10 + 1 = k + 1 + 10 by omega, backOffset_of_ge, backOffset_of_ge,
      multiplierAt, if_neg hi, Nat.add_sub_cancel, pow_succ, pow_succ]
    omega

theorem multiplierAt_succ (i : ℕ) :
    multiplierAt (i + 1) = if i < 10 then multiplierAt i else multiplierAt i * 2 := by
  by_cases hi : i < 10
  · rw [if_pos hi]
    interval_cases i <;> rfl
  · rw [if_neg hi, multiplierAt, multiplierAt, if_neg (by omega), if_neg hi, ← pow_succ,
      show i + 1 - 10 = i - 10 + 1 by omega]

theorem backOffset_lt_succ (i : ℕ) : backOffset i < backOffset (i + 1) := by
  have hpos : 0 < multiplierAt i := by
    rw [multiplierAt]
    split <;> positivity
  rw [backOffset_succ]
  split <;> omega

theorem backOffset_strictMono : StrictMono backOffset :=
  strictMono_nat_of_lt_succ backOffset_lt_succ

theorem backOffset_succ_le (i : ℕ) : backOffset (i + 1) ≤ 2 * backOffset i := by
  by_cases hi : i < 10
  · interval_cases i <;> decide
  · obtain ⟨k, rfl⟩ := Nat.exists_eq_add_of_le' (Nat.le_of_not_lt hi)
    rw [show k + 10 + 1 = k + 1 + 10 by omega, backOffset_of_ge, backOffset_of_ge,
      pow_succ _ (k + 1)]
    omega

theorem lt_backOffset (i : ℕ) : i < backOffset i := by
  induction i with
  | zero => decide
  | succ i ih => exact Nat.lt_of_le_of_lt ih (backOffset_lt_succ i)

theorem historyLoop_eq (sz fuel i : ℕ) (hfuel : sz ≤ backOffset (i + fuel)) :
    ∃ n, (∀ k, backOffset (i + k) < sz ↔ k < n) ∧
      historyLoop sz fuel i (multiplierAt i) (backOffset i) =
        (List.range n).map fun k => sz - backOffset (i + k) := by
  induction fuel generalizing i with
  | zero =>
    refine ⟨0, fun k => ?_, rfl⟩
    have hle := backOffset_strictMono.monotone (Nat.le_add_right i k)
    rw [Nat.add_zero] at hfuel
    omega
  | succ fuel ih =>
    rw [historyLoop]
    by_cases hlt : backOffset i < sz
    · obtain ⟨n, hn, hrest⟩ := ih (i + 1) (by rwa [Nat.add_right_comm])
      refine ⟨n + 1, fun k => ?_, ?_⟩
      · cases k with
        | zero => simpa using hlt
        | succ k => rw [Nat.add_lt_add_iff_right, ← hn k, Nat.add_assoc, Nat.add_comm 1 k]
      · have hnext : (if i < 10 then
              historyLoop sz fuel (i + 1) (multiplierAt i) (backOffset i + 1)
            else historyLoop sz fuel (i + 1) (multiplierAt i * 2)
              (backOffset i + multiplierAt i * 2)) =
            historyLoop sz fuel (i + 1) (multiplierAt (i + 1)) (backOffset (i + 1)) := by
          rw [multiplierAt_succ, backOffset_succ]
          split <;> rfl
        rw [if_pos hlt, hnext, hrest, range_succ_eq_map, map_cons, map_map]
        simp only [Function.comp_def, Nat.add_zero, Nat.succ_eq_add_one, Nat.add_assoc,
          Nat.add_comm 1]
    · refine ⟨0, fun k => ?_, by rw [if_neg hlt]; rfl⟩
      have hle := backOffset_strictMono.monotone (Nat.le_add_right i k)
      omega

theorem historyHeights_eq {sz : ℕ} (hpos : 0 < sz) : ∃ n, (∀ k, backOffset k < sz ↔ k < n) ∧
      historyHeights sz = ((List.range n).map fun k => sz - backOffset k) ++ [0] := by
  obtain ⟨n, hn, hloop⟩ := historyLoop_eq sz sz 0 (by
    rw [Nat.zero_add]
    exact (lt_backOffset sz).le)
  simp only [Nat.zero_add] at hn hloop
  have hloop' : historyLoop sz sz 0 1 1 = (List.range n).map fun k => sz - backOffset k := hloop
  refine ⟨n, hn, ?_⟩
  have hzero : 0 ∉ (List.range n).map fun k => sz - backOffset k := by
    rw [mem_map]
    rintro ⟨k, hk, hdiff⟩
    have hlt := (hn k).mpr (mem_range.mp hk)
    omega
  rw [historyHeights, if_neg hpos.ne', hloop', if_neg hzero]

theorem historyHeights_lt {sz h : ℕ} (hh : h ∈ historyHeights sz) : h < sz := by
  rcases Nat.eq_zero_or_pos sz with rfl | hpos
  · cases hh
  · obtain ⟨n, hn, hheights⟩ := historyHeights_eq hpos
    rw [hheights, mem_append, mem_map, mem_singleton] at hh
    rcases hh with ⟨k, -, rfl⟩ | rfl
    · have hlt := lt_backOffset k
      omega
    · exact hpos

theorem historyHeights_decreasing {sz : ℕ} : (historyHeights sz).Pairwise (· > ·) := by
  rcases Nat.eq_zero_or_pos sz with rfl | hpos
  · exact List.Pairwise.nil
  · obtain ⟨n, hn, hheights⟩ := historyHeights_eq hpos
    rw [hheights, pairwise_append]
    refine ⟨?_, pairwise_singleton _ _, ?_⟩
    · rw [pairwise_map]
      refine pairwise_lt_range.imp_of_mem fun hi hj hij => ?_
      have hlt := (hn _).mpr (mem_range.mp hj)
      have hmono := backOffset_strictMono hij
      omega
    · intro h hh genesis hzero
      obtain ⟨k, hk, rfl⟩ := mem_map.mp hh
      have hlt := (hn k).mpr (mem_range.mp hk)
      rw [mem_singleton.mp hzero]
      omega

theorem getLast?_historyHeights {sz : ℕ} (hpos : 0 < sz) :
    (historyHeights sz).getLast? = some 0 := by
  obtain ⟨n, -, hheights⟩ := historyHeights_eq hpos
  rw [hheights, getLast?_concat]

theorem length_historyHeights_le {sz : ℕ} (hpos : 0 < sz) :
    (historyHeights sz).length ≤ 12 + Nat.log 2 sz := by
  obtain ⟨n, hn, hheights⟩ := historyHeights_eq hpos
  rw [hheights, length_append, length_map, length_range, length_singleton]
  by_cases hshort : n ≤ 10
  · omega
  · obtain ⟨k, rfl⟩ := Nat.exists_eq_add_of_le' (Nat.lt_of_not_le hshort)
    have hlast := (hn (k + 10)).mpr (by omega)
    rw [backOffset_of_ge] at hlast
    have hlog := Nat.le_log_of_pow_le (by omega : 1 < 2) (by omega : 2 ^ (k + 1) ≤ sz)
    omega

theorem find_historyHeights {sz distance : ℕ} (hpos : 0 < distance) (hle : distance ≤ sz) :
    ∃ h, (historyHeights sz).find? (fun h => h + distance ≤ sz) = some h ∧
      sz < h + 2 * distance := by
  obtain ⟨n, hn, hheights⟩ := historyHeights_eq (by omega : 0 < sz)
  have hgen : ((historyHeights sz).find? fun h => h + distance ≤ sz).isSome := by
    rw [find?_isSome]
    exact ⟨0, by simp [hheights], by simpa using hle⟩
  obtain ⟨h, hfind⟩ := Option.isSome_iff_exists.mp hgen
  refine ⟨h, hfind, ?_⟩
  obtain ⟨-, i, hi, hh, hbefore⟩ := find?_eq_some_iff_getElem.mp hfind
  have hplace {j : ℕ} (hj : j < n) : (historyHeights sz)[j]? = some (sz - backOffset j) := by
    rw [hheights, getElem?_append_left (by simpa using hj), getElem?_map, getElem?_range hj]
    rfl
  have hlen : (historyHeights sz).length = n + 1 := by
    simp [hheights]
  -- The height that is found is not farther away than its entry.
  have hnear : sz ≤ h + backOffset i := by
    rcases Nat.lt_or_ge i n with hin | hin
    · have hi' := hplace hin
      rw [getElem?_eq_getElem hi, hh, Option.some.injEq] at hi'
      omega
    · have hend := mt (hn i).mp (Nat.not_lt.mpr hin)
      omega
  -- The entry before it was too near.
  have hfar : backOffset i < 2 * distance := by
    cases i with
    | zero =>
      change 1 < 2 * distance
      omega
    | succ j =>
      have hj := hbefore j (Nat.lt_succ_self j)
      have hlt := (hn j).mpr (by omega)
      have hj' := hplace (by omega : j < n)
      rw [getElem?_eq_getElem (by omega), Option.some.injEq] at hj'
      rw [hj', Bool.not_eq_true', decide_eq_false_iff_not] at hj
      have hdouble := backOffset_succ_le j
      omega
  omega

theorem findSome?_of_mapM {α β : Type} {heights : List ℕ} {db ids : List α}
    (hids : heights.mapM (fun height => db[height]?) = some ids) (f : α → Option β)
    (g : ℕ → Option β) (hfg : ∀ h id, db[h]? = some id → f id = g h) :
    ids.findSome? f = heights.findSome? g := by
  induction heights generalizing ids with
  | nil =>
    cases hids
    rfl
  | cons h rest ih =>
    simp only [mapM_cons, Option.bind_eq_bind, Option.bind_eq_some_iff, Option.pure_def,
      Option.some.injEq] at hids
    obtain ⟨id, hid, others, hothers, rfl⟩ := hids
    rw [findSome?_cons, findSome?_cons, hfg h id hid, ih hothers]

theorem exists_mapM_getElem? {α : Type} {heights : List ℕ} {db : List α}
    (h : ∀ height ∈ heights, height < db.length) :
    ∃ ids, heights.mapM (fun height => db[height]?) = some ids ∧
      ids.map some = heights.map fun height => db[height]? := by
  induction heights with
  | nil => exact ⟨[], rfl, rfl⟩
  | cons height rest ih =>
    rw [forall_mem_cons] at h
    obtain ⟨ids, hids, hmap⟩ := ih h.2
    refine ⟨db.get ⟨height, h.1⟩ :: ids, ?_, ?_⟩
    · simp [hids, h.1]
    · simp [hmap, h.1]

section Nodes

variable {α : Type} [DecidableEq α] {A B : Chain α}

/-- A node finds the blocks of the common part, at their heights, and no others. -/
theorem blockExists_eq (hfree : A.CollisionFree B) (hgen : A.ids[0]? = B.ids[0]?) {h : ℕ}
    {id : α} (hid : A.ids[h]? = some id) :
    blockExists B.ids id = if h < commonLength A.ids B.ids then some h else none := by
  rw [blockExists]
  split
  · rename_i hcommon
    have hB : B.ids[h]? = some id := by rw [← getElem?_eq_of_lt_commonLength hcommon, hid]
    obtain ⟨hlt, hget⟩ := List.getElem?_eq_some_iff.mp hB
    refine findIdx?_eq_some_iff_getElem.mpr ⟨hlt, by simpa using hget, fun j hj heq => ?_⟩
    have hj' : B.ids[j]? = some id := by
      rw [getElem?_eq_getElem (by omega)]
      simpa using heq
    exact absurd (hfree.same_height hgen hid hj').1 (by omega)
  · rename_i hbeyond
    refine findIdx?_eq_none_iff.mpr fun other hother => ?_
    obtain ⟨j, hj⟩ := mem_iff_getElem?.mp hother
    rw [decide_eq_false_iff_not]
    rintro rfl
    exact hbeyond (hfree.same_height hgen hid hj).2

theorem findBlockchainSupplement_eq (hfree : A.CollisionFree B)
    (hgen : A.ids[0]? = B.ids[0]?) {heights : List ℕ} {ids : List α}
    (hids : heights.mapM (fun height => A.ids[height]?) = some ids)
    (hmap : ids.map some = heights.map fun height => A.ids[height]?)
    (hlast : heights.getLast? = some 0) : findBlockchainSupplement B.ids ids =
      heights.find? fun h => h < commonLength A.ids B.ids := by
  have hends : ids.getLast?.map some = some A.ids[0]? := by
    rw [← getLast?_map, hmap, getLast?_map, hlast, Option.map_some]
  obtain ⟨last, hidsLast, hfst⟩ := Option.map_eq_some_iff.mp hends
  have hsearch := findSome?_of_mapM hids (blockExists B.ids)
    (fun h => if h < commonLength A.ids B.ids then some h else none)
    fun h id hid => blockExists_eq hfree hgen hid
  rw [findBlockchainSupplement, hidsLast, ← hgen, ← hfst]
  simp only [ne_eq, not_true_eq_false, if_false, hsearch]
  rw [find?_eq_findSome?_guard]
  congr 1
  funext h
  simp [Option.guard]

end Nodes

/-- The split point of two chains with one genesis block, where the first node has `a` blocks
and `p` of them are common. -/
theorem sync_split_point {α : Type} [DecidableEq α] (A B : Chain α) (hfree : A.CollisionFree B)
    (hgenesis : A.ids[0]? = B.ids[0]?) (a p : ℕ) (ha : a = A.ids.length) (hpos : 1 ≤ a)
    (hp : p = commonLength A.ids B.ids) :
    ∃ ids s, getShortChainHistory A.ids = some (ids, a) ∧
      ids.map some = (historyHeights a).map (fun height => A.ids[height]?) ∧
      (historyHeights a).Pairwise (· > ·) ∧ (historyHeights a).getLast? = some 0 ∧
      ids.length ≤ 12 + Nat.log 2 a ∧
      findBlockchainSupplement B.ids ids = some s ∧ 1 ≤ p ∧ s ≤ p - 1 ∧
      A.ids[s]? = B.ids[s]? ∧ p - 1 - s < a - p + 1 := by
  subst ha hp
  have hheights : ∀ height ∈ historyHeights A.ids.length, height < A.ids.length :=
    fun _ hh => historyHeights_lt hh
  obtain ⟨ids, hids, hmap⟩ := exists_mapM_getElem? hheights
  have hlength : ids.length = (historyHeights A.ids.length).length := by
    simpa using congrArg List.length hmap
  have hcommon : 0 < commonLength A.ids B.ids :=
    lt_commonLength hpos fun k hk => by rw [Nat.le_zero.mp hk, hgenesis]
  have hle := commonLength_le_left A.ids B.ids
  -- The last common block is this far from the top of the first chain.
  obtain ⟨s, hfind, hnear⟩ := find_historyHeights
    (by omega : 0 < A.ids.length + 1 - commonLength A.ids B.ids)
    (by omega : A.ids.length + 1 - commonLength A.ids B.ids ≤ A.ids.length)
  have hwithin := find?_some hfind
  have hsame :
      (fun h => decide (h + (A.ids.length + 1 - commonLength A.ids B.ids) ≤ A.ids.length)) =
        fun h => decide (h < commonLength A.ids B.ids) := by
    funext h
    rw [decide_eq_decide]
    omega
  rw [hsame] at hfind
  rw [decide_eq_true_eq] at hwithin
  refine ⟨ids, s, by rw [getShortChainHistory, hids, Option.map_some], hmap,
    historyHeights_decreasing, getLast?_historyHeights hpos, ?_, ?_, by omega, by omega,
    getElem?_eq_of_lt_commonLength (by omega), by omega⟩
  · rw [hlength]
    exact length_historyHeights_le hpos
  · rw [findBlockchainSupplement_eq hfree hgenesis hids hmap (getLast?_historyHeights hpos), hfind]

/-- Two blocks after the genesis block are common, and each node has one more of its own. -/
theorem sync_split_point_small : ∃ ids s,
    getShortChainHistory [10, 11, 12, 13] = some (ids, 4) ∧
      findBlockchainSupplement [10, 11, 12, 23] ids = some s ∧ s ≤ 2 := by
  let A : Chain ℕ := ⟨[⟨10, 0⟩, ⟨11, 10⟩, ⟨12, 11⟩, ⟨13, 12⟩], by decide, by decide⟩
  let B : Chain ℕ := ⟨[⟨10, 0⟩, ⟨11, 10⟩, ⟨12, 11⟩, ⟨23, 12⟩], by decide, by decide⟩
  have hfree : A.CollisionFree B := by
    simp [A, B, Chain.CollisionFree]
  obtain ⟨ids, s, hids, -, -, -, -, hs, -, hle, -⟩ :=
    sync_split_point A B hfree rfl 4 3 rfl (by omega) (by decide)
  exact ⟨ids, s, hids, hs, hle⟩

end Monzero.ChainHistory
