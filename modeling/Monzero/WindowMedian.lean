import Monzero.Median
import Monzero.RollingWindow

/-!
The rolling median answers with the median of the values inserted last. The queue, read from
its oldest value on, is the window: an insertion appends to it and drops what no longer fits.
The values at the positions of the heaps are the window in another order, with the smaller
half below the root and the greater half above it.
-/
namespace Monzero.RollingMedian

open List
open Function (update update_self)
open List (range)

/-- The last `n` elements. -/
def lastOf {α : Type} (n : ℕ) (l : List α) : List α := l.drop (l.length - n)

theorem length_lastOf {α : Type} (n : ℕ) (l : List α) : (lastOf n l).length = min n l.length := by
  rw [lastOf, length_drop]
  omega

theorem lastOf_of_length_le {α : Type} {n : ℕ} {l : List α} (h : l.length ≤ n) :
    lastOf n l = l := by
  rw [lastOf, Nat.sub_eq_zero_of_le h, drop_zero]

theorem lastOf_lastOf_append {α : Type} (n : ℕ) (l l' : List α) :
    lastOf n (lastOf n l ++ l') = lastOf n (l ++ l') := by
  rcases Nat.le_total l.length n with hle | hge
  · rw [lastOf_of_length_le hle]
  · have hsplit : lastOf n l ++ l' = (l ++ l').drop (l.length - n) := by
      rw [drop_append_of_le_length (by omega)]
      rfl
    rw [hsplit, lastOf, lastOf, drop_drop, length_drop, length_append]
    congr 1
    omega

section Clearing

variable {Item : Type} {m : RollingMedian Item}

theorem slot_injective : Function.Injective slot := by
  intro a b h
  unfold slot at h
  split at h <;> split at h <;> omega

theorem fillSlots_frame (n : ℕ) (m : RollingMedian Item) :
    (fillSlots n m).N = m.N ∧ (fillSlots n m).idx = m.idx ∧ (fillSlots n m).minCt = m.minCt ∧
      (fillSlots n m).maxCt = m.maxCt ∧ (fillSlots n m).sz = m.sz := by
  induction n generalizing m with
  | zero => exact ⟨rfl, rfl, rfl, rfl, rfl⟩
  | succ n ih => exact ih _

theorem fillSlots_of_le (n : ℕ) (m : RollingMedian Item) {d : ℕ} (hd : n ≤ d) :
    (fillSlots n m).pos d = m.pos d ∧ (fillSlots n m).heap (slot d) = m.heap (slot d) := by
  induction n generalizing m with
  | zero => exact ⟨rfl, rfl⟩
  | succ n ih =>
    obtain ⟨hpos, hheap⟩ := ih
      { m with pos := update m.pos n (slot n), heap := update m.heap (slot n) n }
      (by omega)
    refine ⟨hpos.trans (Function.update_of_ne (by omega) _ _),
      hheap.trans (Function.update_of_ne (fun h => ?_) _ _)⟩
    have := slot_injective h
    omega

theorem fillSlots_of_lt {n : ℕ} (m : RollingMedian Item) {d : ℕ} (hd : d < n) :
    (fillSlots n m).pos d = slot d ∧ (fillSlots n m).heap (slot d) = d := by
  induction n generalizing m with
  | zero => omega
  | succ n ih =>
    rcases Nat.lt_or_ge d n with hlt | hge
    · exact ih _ hlt
    · have heq : d = n := by omega
      subst heq
      obtain ⟨hpos, hheap⟩ := fillSlots_of_le d
        { m with pos := update m.pos d (slot d), heap := update m.heap (slot d) d }
        le_rfl
      exact ⟨hpos.trans (update_self _ _ _), hheap.trans (update_self _ _ _)⟩

variable [LinearOrder Item]

theorem clear_spec (m : RollingMedian Item) (hN : 1 ≤ m.N) :
    Valid m.clear ∧ m.clear.N = m.N ∧ m.clear.sz = 0 := by
  obtain ⟨hN', hidx, hmin, hmax, hsz⟩ :=
    fillSlots_frame m.N { m with idx := 0, minCt := 0, maxCt := 0, sz := 0 }
  have hfill := fun {d : ℕ} (hd : d < m.N) =>
    fillSlots_of_lt { m with idx := 0, minCt := 0, maxCt := 0, sz := 0 } hd
  change m.clear.N = m.N at hN'
  change m.clear.idx = 0 at hidx
  change m.clear.minCt = 0 at hmin
  change m.clear.maxCt = 0 at hmax
  change m.clear.sz = 0 at hsz
  refine ⟨⟨by omega, by omega, by omega, by omega, by omega, ⟨?_, ?_, ?_, ?_⟩, ?_⟩, hN', hsz⟩
  · intro d hd
    rw [hN'] at hd ⊢
    have hpos : m.clear.pos d = slot d := (hfill hd).1
    rw [hpos]
    exact (active_slot d hN).mpr hd
  · intro d hd
    rw [hN'] at hd
    have hpos : m.clear.pos d = slot d := (hfill hd).1
    rw [hpos]
    exact (hfill hd).2
  · intro k hk
    rw [hN'] at hk ⊢
    obtain ⟨d, hd, rfl⟩ := exists_slot k hN hk
    have hheap : m.clear.heap (slot d) = d := (hfill hd).2
    rw [hheap]
    exact ⟨hd, (hfill hd).1⟩
  · intro d _ hd
    rw [hN'] at hd
    exact (hfill hd).1
  · intro d k hk hkn
    have hcnt : m.clear.count d = 0 := by
      cases d
      · exact hmin
      · exact hmax
    omega

end Clearing

section Window

variable {Item : Type} {m m' : RollingMedian Item} {v : Item}

/-- The values of the queue, the oldest first. -/
def window (m : RollingMedian Item) : List Item :=
  (range m.sz).map fun j => m.data ((m.idx + m.N - m.sz + j) % m.N)

@[simp] theorem length_window {m : RollingMedian Item} : m.window.length = m.sz := by
  rw [window, length_map, length_range]

theorem getElem_window (m : RollingMedian Item) {j : ℕ} (hj : j < m.window.length) :
    m.window[j] = m.data ((m.idx + m.N - m.sz + j) % m.N) := by
  simp [window]

variable [LinearOrder Item]

theorem Valid.index (h : Valid m) {j : ℕ} (hj : j < m.sz) : (m.idx + m.N - m.sz + j) % m.N =
      if m.sz < m.N then j else if m.idx + j < m.N then m.idx + j else m.idx + j - m.N := by
  have hle := h.le
  have hidx := h.idx
  split
  · rename_i hlt
    have hfilling := h.filling hlt
    rw [show m.idx + m.N - m.sz + j = j + m.N by omega, Nat.add_mod_right,
      Nat.mod_eq_of_lt (by omega)]
  · split
    · rw [show m.idx + m.N - m.sz + j = m.idx + j by omega, Nat.mod_eq_of_lt (by assumption)]
    · rw [show m.idx + m.N - m.sz + j = m.idx + j - m.N + m.N by omega, Nat.add_mod_right,
        Nat.mod_eq_of_lt (by omega)]

/-- An insertion appends its value to the window and drops the oldest one if there is no room. -/
theorem window_of_written (h : Valid m) (h' : Valid m') (hw : Written m v m') :
    m'.window = lastOf m.N (m.window ++ [v]) := by
  obtain ⟨hN, hdata, hidx', hsz'⟩ := hw
  have hle := h.le
  have hidx := h.idx
  have hlen : (m.window ++ [v]).length = m.sz + 1 := by
    rw [length_append, length_window, length_singleton]
  refine ext_getElem ?_ ?_
  · rw [length_window, length_lastOf, hlen, hsz', Nat.min_comm]
  · intro j hj hjl
    rw [length_window] at hj
    have hnext : m.idx + 1 = m.N ∧ m'.idx = 0 ∨ m.idx + 1 < m.N ∧ m'.idx = m.idx + 1 := by
      rcases Nat.lt_or_ge (m.idx + 1) m.N with hlt | hge
      · exact Or.inr ⟨hlt, hidx'.trans (Nat.mod_eq_of_lt hlt)⟩
      · have heq : m.idx + 1 = m.N := by omega
        exact Or.inl ⟨heq, by rw [hidx', heq, Nat.mod_self]⟩
    have hfilling := h.filling
    simp only [lastOf, getElem_drop, getElem_append, hlen]
    rw [getElem_window, h'.index hj, hdata, Function.update_apply, hN]
    by_cases hnew : j + 1 = m'.sz
    · rw [if_pos (by split_ifs <;> omega), dif_neg (by rw [length_window]; omega)]
      simp
    · rw [if_neg (by split_ifs <;> omega), dif_pos (by rw [length_window]; omega), getElem_window,
        h.index (by omega)]
      congr 1
      split_ifs <;> omega

theorem Valid.insert (h : Valid m) (v : Item) :
    Valid (m.insert v) ∧ (m.insert v).N = m.N ∧
      (m.insert v).window = lastOf m.N (m.window ++ [v]) := by
  obtain ⟨hvalid, hw⟩ := insert_spec h v
  exact ⟨hvalid, hw.N, window_of_written h hvalid hw⟩

theorem Valid.insertAll (h : Valid m) (vs : List Item) :
    Valid (vs.foldl RollingMedian.insert m) ∧ (vs.foldl RollingMedian.insert m).N = m.N ∧
      (vs.foldl RollingMedian.insert m).window = lastOf m.N (m.window ++ vs) := by
  induction vs generalizing m with
  | nil =>
    refine ⟨h, rfl, ?_⟩
    rw [append_nil, lastOf_of_length_le (by rw [length_window]; exact h.le)]
    rfl
  | cons v vs ih =>
    obtain ⟨hvalid, hN, hwin⟩ := h.insert v
    obtain ⟨hvalid', hN', hwin'⟩ := ih hvalid
    refine ⟨hvalid', hN'.trans hN, ?_⟩
    rw [foldl_cons, hwin', hwin, hN, lastOf_lastOf_append, append_assoc]
    rfl

end Window

section Middle

variable {Item : Type} {m : RollingMedian Item}

/-- The values below the median and those above it. -/
def side (m : RollingMedian Item) (d : Side) : List Item :=
  (range (m.count d)).map fun i => m.key (d.place (i + 1))

theorem mem_side {d : Side} {a : Item} :
    a ∈ m.side d ↔ ∃ k, 1 ≤ k ∧ k ≤ m.count d ∧ m.key (d.place k) = a := by
  simp only [side, mem_map, mem_range]
  constructor
  · rintro ⟨i, hi, rfl⟩
    exact ⟨i + 1, by omega, by omega, rfl⟩
  · rintro ⟨k, hk, hkn, rfl⟩
    exact ⟨k - 1, by omega, by rw [Nat.sub_add_cancel hk]⟩

@[simp] theorem length_side (d : Side) : (m.side d).length = m.count d := by
  rw [side, length_map, length_range]

/-- The positions in use, as the heaps have them. -/
def positions (m : RollingMedian Item) : List ℤ :=
  (range m.maxCt).map (fun i => Side.max.place (i + 1)) ++
    0 :: (range m.minCt).map fun i => Side.min.place (i + 1)

theorem map_key_positions : m.positions.map m.key = m.side .max ++ m.key 0 :: m.side .min := by
  rw [positions, map_append, map_cons, map_map, map_map]
  rfl

theorem nodup_positions (m : RollingMedian Item) : m.positions.Nodup := by
  rw [positions, nodup_append, nodup_cons]
  refine ⟨nodup_range.map fun a b h => ?_, ⟨?_, nodup_range.map fun a b h => ?_⟩, ?_⟩
  · simp only [Side.place] at h
    omega
  · simp only [mem_map, Side.place, not_exists, not_and]
    omega
  · simp only [Side.place] at h
    omega
  · simp only [mem_map, mem_cons, Side.place]
    omega

variable [LinearOrder Item]

theorem Valid.mem_positions (h : Valid m) (k : ℤ) : k ∈ m.positions ↔ Active m.sz k := by
  have hmin := h.minCt
  have hmax := h.maxCt
  simp only [positions, Active, mem_append, mem_map, mem_cons, mem_range, Side.place]
  constructor
  · rintro (⟨i, hi, rfl⟩ | rfl | ⟨i, hi, rfl⟩) <;> omega
  · intro hk
    rcases lt_trichotomy k 0 with hneg | hzero | hpos
    · exact Or.inl ⟨(-k).toNat - 1, by omega, by omega⟩
    · exact Or.inr (Or.inl hzero)
    · exact Or.inr (Or.inr ⟨k.toNat - 1, by omega, by omega⟩)

theorem Valid.perm_heap (h : Valid m) (hsz : 1 ≤ m.sz) :
    (m.positions.map m.heap).Perm (range m.sz) := by
  have hlink := h.linked
  have hle := h.le
  refine (perm_ext_iff_of_nodup ?_ nodup_range).mpr fun d => ?_
  · refine (nodup_positions m).map_on fun k hk k' hk' heq => ?_
    have hback := (hlink.pos_heap k (((h.mem_positions k).mp hk).mono hle)).2
    have hback' := (hlink.pos_heap k' (((h.mem_positions k').mp hk').mono hle)).2
    rw [← hback, heq, hback']
  · rw [mem_map, mem_range]
    constructor
    · rintro ⟨k, hk, rfl⟩
      have hact := (h.mem_positions k).mp hk
      obtain ⟨hlt, hback⟩ := hlink.pos_heap k (hact.mono hle)
      by_contra hnot
      -- an index without a value is at a position that is not in use
      rw [hlink.waiting _ (by omega) hlt] at hback
      rw [← hback, active_slot _ hsz] at hact
      omega
    · intro hd
      refine ⟨m.pos d, (h.mem_positions _).mpr ?_, hlink.heap_pos d (by omega)⟩
      obtain ⟨d', hd', hslot⟩ := exists_slot _ (by omega) (hlink.active d (by omega))
      rw [← hslot, active_slot _ hsz]
      by_contra hnot
      have hsame : m.pos d' = m.pos d := (hlink.waiting d' (by omega) hd').trans hslot
      have heq := hlink.heap_pos d' hd'
      rw [hsame, hlink.heap_pos d (by omega)] at heq
      omega

theorem Valid.perm_window (h : Valid m) : m.window.Perm ((range m.sz).map m.data) := by
  have hle := h.le
  have hidx := h.idx
  have hperm : ((range m.sz).map fun j => (m.idx + m.N - m.sz + j) % m.N).Perm
      (range m.sz) := by
    refine (perm_ext_iff_of_nodup ?_ nodup_range).mpr fun d => ?_
    · refine nodup_range.map_on fun a ha b hb heq => ?_
      rw [h.index (mem_range.mp ha), h.index (mem_range.mp hb)] at heq
      have ha' := mem_range.mp ha
      have hb' := mem_range.mp hb
      split_ifs at heq <;> omega
    · rw [mem_map, mem_range]
      constructor
      · rintro ⟨j, hj, rfl⟩
        have hj' := mem_range.mp hj
        rw [h.index hj']
        split_ifs <;> omega
      · intro hd
        have hj : (if m.sz < m.N then d else if m.idx ≤ d then d - m.idx else d + m.N - m.idx) <
            m.sz := by split_ifs <;> omega
        refine ⟨_, mem_range.mpr hj, ?_⟩
        rw [h.index hj]
        split_ifs <;> omega
  have hmap := hperm.map m.data
  rwa [map_map] at hmap

theorem Valid.perm_positions (h : Valid m) (hsz : 1 ≤ m.sz) :
    m.window.Perm (m.side .max ++ m.key 0 :: m.side .min) := by
  have hmap := (h.perm_heap hsz).map m.data
  rw [map_map] at hmap
  rw [← map_key_positions]
  exact h.perm_window.trans hmap.symm

theorem Valid.not_lt_root (h : Valid m) {d : Side} {a : Item} (ha : a ∈ m.side d) :
    ¬d.lt a (m.key 0) := by
  obtain ⟨k, -, hkn, rfl⟩ := mem_side.mp ha
  have hroot := (h.ordered d).root (weakOrder d) k hkn
  have hzero : (view d).key m 0 = m.key 0 := by cases d <;> rfl
  rwa [hzero] at hroot

theorem Valid.not_lt_first (h : Valid m) {d : Side} {a : Item} (ha : a ∈ m.side d) :
    ¬d.lt a (m.key (d.place 1)) := by
  obtain ⟨k, hk, hkn, rfl⟩ := mem_side.mp ha
  exact (h.ordered d).first (weakOrder d) k hk hkn

end Middle

theorem Valid.median_eq {m : RollingMedian ℕ} (h : Valid m) (hsz : 1 ≤ m.sz) :
    m.median Median.getMid = Median.median m.window := by
  have hmin := h.minCt
  have hmax := h.maxCt
  have hlow : ∀ a ∈ m.side .max, a ≤ m.key 0 := fun a ha => not_lt.mp (h.not_lt_root ha)
  have hhigh : ∀ a ∈ m.side .min, m.key 0 ≤ a := fun a ha => not_lt.mp (h.not_lt_root ha)
  have hlengthMax : (m.side .max).length = m.maxCt := length_side .max
  have hlengthMin : (m.side .min).length = m.minCt := length_side .min
  rw [Median.median_perm (h.perm_positions hsz), RollingMedian.median]
  split
  · have hfst : m.key (-1) ∈ m.side .max :=
      mem_side.mpr ⟨1, le_rfl, by change 1 ≤ m.maxCt; omega, rfl⟩
    rw [Median.median_of_odd_split hlow hhigh (by omega) hfst
      fun a ha => not_lt.mp (h.not_lt_first ha), Median.getMid_comm]
  · exact (Median.median_of_even_split hlow hhigh (by omega)).symm

end Monzero.RollingMedian
