import Mathlib.Algebra.Ring.Nat
import Monzero.WindowMedian

/-!
The rolling median in its memory. The constructor allocates one block, with the queue at its
start, the positions after it and the two heaps at its end, and every access to one of the
three is checked here against the block. The number of bytes is kept in an `int`. As long as
it fits there, no access fails, and the answer is the middle of the values inserted last.
-/
namespace Monzero.RollingAccess

open RollingMedian SiftHeap List
open Option (bind_eq_bind bind_some)

/-- The bytes that are allocated for items of a size. The product is cut to 32 bits with a sign,
and nothing is allocated for a negative one. -/
def allocated (itemSize N : ℕ) : ℕ := (Int.bmod (N * (itemSize + 8) : ℕ) (2 ^ 32)).toNat

/-- Element `i` of `data` is in its array, and its bytes are in the block. -/
def InData (itemSize N i : ℕ) : Prop := i < N ∧ itemSize * (i + 1) ≤ allocated itemSize N

def InPos (itemSize N i : ℕ) : Prop :=
  i < N ∧ itemSize * N + 4 * (i + 1) ≤ allocated itemSize N

/-- The position zero of `heap` is in the middle of its array. -/
def InHeap (itemSize N : ℕ) (k : ℤ) : Prop :=
  0 ≤ (N / 2 : ℕ) + k ∧ (N / 2 : ℕ) + k < N ∧
    itemSize * N + 4 * (N + ((N / 2 : ℕ) + k) + 1) ≤ allocated itemSize N

instance (itemSize N i : ℕ) : Decidable (InData itemSize N i) :=
  inferInstanceAs (Decidable (_ ∧ _))

instance (itemSize N i : ℕ) : Decidable (InPos itemSize N i) :=
  inferInstanceAs (Decidable (_ ∧ _))

instance (itemSize N : ℕ) (k : ℤ) : Decidable (InHeap itemSize N k) :=
  inferInstanceAs (Decidable (_ ∧ _ ∧ _))

section Routines

variable {Item : Type} [LinearOrder Item] (itemSize : ℕ)

/-- `data[heap[k]]`. -/
def key (m : RollingMedian Item) (k : ℤ) : Option Item :=
  if InHeap itemSize m.N k ∧ InData itemSize m.N (m.heap k) then some (m.key k) else none

def mmless (m : RollingMedian Item) (i j : ℤ) : Option Bool := do
  return (← key itemSize m i) < (← key itemSize m j)

def mmexchange (m : RollingMedian Item) (i j : ℤ) : Option (RollingMedian Item) :=
  if InHeap itemSize m.N i ∧ InHeap itemSize m.N j ∧ InPos itemSize m.N (m.heap i) ∧
    InPos itemSize m.N (m.heap j) then some (m.mmexchange i j) else none

def mmCmpExch (m : RollingMedian Item) (i j : ℤ) : Option (RollingMedian Item × Bool) := do
  if ← mmless itemSize m i j then return (← mmexchange itemSize m i j, true)
  else return (m, false)

/-- The comparison of the elements with two numbers, in the order of the source. -/
def less (d : Side) (m : RollingMedian Item) (i j : ℕ) : Option Bool :=
  match d with
  | .min => mmless itemSize m (d.place i) (d.place j)
  | .max => mmless itemSize m (d.place j) (d.place i)

def cmpExch (d : Side) (m : RollingMedian Item) (i j : ℕ) : Option (RollingMedian Item × Bool) :=
  match d with
  | .min => mmCmpExch itemSize m (d.place i) (d.place j)
  | .max => mmCmpExch itemSize m (d.place j) (d.place i)

/-- The child with which an element of a heap of size `n` is compared. -/
def upperChild (d : Side) (n : ℕ) (m : RollingMedian Item) (p : ℕ) : Option ℕ :=
  if 2 * p < n then do
    return if ← less itemSize d m (2 * p + 1) (2 * p) then 2 * p + 1 else 2 * p
  else some (2 * p)

/-- The loops of `minSortDown` and `maxSortDown`. -/
def sortDownFrom (d : Side) (n : ℕ) : ℕ → RollingMedian Item → ℕ → Option (RollingMedian Item)
  | 0, m, _ => some m
  | fuel + 1, m, p =>
      if n < 2 * p then some m
      else do
        let c ← upperChild itemSize d n m p
        let moved ← cmpExch itemSize d m c (c / 2)
        if moved.2 then sortDownFrom d n fuel moved.1 c else return moved.1

def sortDown (d : Side) (m : RollingMedian Item) (p : ℕ) : Option (RollingMedian Item) :=
  sortDownFrom itemSize d (m.count d) (m.count d) m p

/-- The loops of `minSortUp` and `maxSortUp`. -/
def sortUpFrom (d : Side) : ℕ → RollingMedian Item → ℕ → Option (RollingMedian Item × Bool)
  | 0, m, i => some (m, i = 0)
  | fuel + 1, m, i =>
      if i = 0 then some (m, true)
      else do
        let moved ← cmpExch itemSize d m i (i / 2)
        if moved.2 then sortUpFrom d fuel moved.1 (i / 2) else return (moved.1, false)

def sortUp (d : Side) (m : RollingMedian Item) (i : ℕ) : Option (RollingMedian Item × Bool) :=
  sortUpFrom itemSize d i m i

def raiseMin (m : RollingMedian Item) (p : ℕ) : Option (RollingMedian Item) := do
  let up ← sortUp itemSize .min m p
  if up.2 then
    let top ← mmCmpExch itemSize up.1 0 (-1)
    if top.2 then sortDown itemSize .max top.1 1 else return top.1
  else return up.1

def raiseMax (m : RollingMedian Item) (p : ℕ) : Option (RollingMedian Item) := do
  let up ← sortUp itemSize .max m p
  if up.2 ∧ up.1.minCt ≠ 0 then
    let top ← mmCmpExch itemSize up.1 1 0
    if top.2 then sortDown itemSize .min top.1 1 else return top.1
  else return up.1

/-- `lowerMedian` and `liftMedian`. -/
def fitMedian (d : Side) (m : RollingMedian Item) : Option (RollingMedian Item) :=
  if m.count d ≠ 0 then do
    let up ← sortUp itemSize d m 1
    if up.2 then sortDown itemSize d up.1 1 else return up.1
  else some m

def insert (m : RollingMedian Item) (v : Item) : Option (RollingMedian Item) :=
  if InPos itemSize m.N m.idx ∧ InData itemSize m.N m.idx then
    let p := m.pos m.idx
    let old := m.data m.idx
    let m := m.store v
    if p > 0 then
      if m.minCt < (m.N - 1) / 2 then raiseMin itemSize { m with minCt := m.minCt + 1 } p.toNat
      else if v > old then sortDown itemSize .min m p.toNat
      else raiseMin itemSize m p.toNat
    else if p < 0 then
      if m.maxCt < m.N / 2 then raiseMax itemSize { m with maxCt := m.maxCt + 1 } (-p).toNat
      else if v < old then sortDown itemSize .max m (-p).toNat
      else raiseMax itemSize m (-p).toNat
    else do fitMedian itemSize .min (← fitMedian itemSize .max m)
  else none

/-- The loop of `clear`. -/
def fillSlots : ℕ → RollingMedian Item → Option (RollingMedian Item)
  | 0, m => some m
  | n + 1, m =>
      if InPos itemSize m.N n ∧ InHeap itemSize m.N (slot n) then
        fillSlots n { m with
          pos := Function.update m.pos n (slot n), heap := Function.update m.heap (slot n) n }
      else none

def clear (m : RollingMedian Item) : Option (RollingMedian Item) :=
  fillSlots itemSize m.N { m with idx := 0, minCt := 0, maxCt := 0, sz := 0 }

def median (getMid : Item → Item → Item) (m : RollingMedian Item) : Option Item := do
  let v ← key itemSize m 0
  if m.minCt < m.maxCt then return getMid v (← key itemSize m (-1)) else return v

/-- Insertions after `clear`. -/
def run (m : RollingMedian Item) (values : List Item) : Option (RollingMedian Item) := do
  values.foldlM (insert itemSize) (← clear itemSize m)

end Routines

section Bounds

variable {sz N i : ℕ}

/-- The number of bytes fits in an `int`. -/
def Fits (itemSize N : ℕ) : Prop := N * (itemSize + 8) < 2 ^ 31

theorem toNat_bmod {bytes : ℕ} (h : bytes < 2 ^ 31) : (Int.bmod bytes (2 ^ 32)).toNat = bytes := by
  rw [Int.bmod_eq_of_le (by omega) (by omega), Int.toNat_natCast]

theorem allocated_eq (h : Fits sz N) : allocated sz N = N * (sz + 8) :=
  toNat_bmod h

theorem allocated_lt (sz N : ℕ) : allocated sz N < 2 ^ 31 := by
  have hlt := Int.bmod_lt (x := ((N * (sz + 8) : ℕ) : ℤ)) (m := 2 ^ 32) (by decide)
  unfold allocated
  omega

theorem inData (h : Fits sz N) (hi : i < N) : InData sz N i := by
  have hle : sz * (i + 1) ≤ sz * N := Nat.mul_le_mul_left _ hi
  refine ⟨hi, ?_⟩
  rw [allocated_eq h, Nat.mul_add N, Nat.mul_comm N sz]
  omega

theorem inPos (h : Fits sz N) (hi : i < N) : InPos sz N i := by
  refine ⟨hi, ?_⟩
  rw [allocated_eq h, Nat.mul_add N, Nat.mul_comm N sz]
  omega

theorem inHeap {k : ℤ} (h : Fits sz N) (hN : 1 ≤ N) (hk : Active N k) : InHeap sz N k := by
  unfold Active at hk
  refine ⟨by omega, by omega, ?_⟩
  rw [allocated_eq h, Nat.mul_add N, Nat.mul_comm N sz]
  push_cast
  generalize (sz : ℤ) * N = bytes
  omega

end Bounds

section Safety

variable {Item : Type} {sz i p : ℕ} {m m' : RollingMedian Item} {d : Side}

/-- A state inside an insertion. -/
structure Sound (itemSize : ℕ) (m : RollingMedian Item) : Prop where
  fits : Fits itemSize m.N
  linked : Linked m
  counted : Counted m

theorem Sound.shuffled (h : Sound sz m) (hs : Shuffled m m') : Sound sz m' :=
  ⟨hs.N ▸ h.fits, hs.linked, h.counted.shuffled hs⟩

theorem key_eq {k : ℤ} (hfits : Fits sz m.N) (hN : 1 ≤ m.N) (hlink : Linked m)
    (hk : Active m.N k) : key sz m k = some (m.key k) :=
  if_pos ⟨inHeap hfits hN hk, inData hfits (hlink.pos_heap k hk).1⟩

theorem Sound.active {k : ℤ} (h : Sound sz m) (hk : Active m.sz k) : 1 ≤ m.N ∧ Active m.N k :=
  ⟨h.counted.pos.trans h.counted.le, hk.mono h.counted.le⟩

variable [LinearOrder Item]

theorem mmless_eq {i j : ℤ} (h : Sound sz m) (hi : Active m.sz i) (hj : Active m.sz j) :
    mmless sz m i j = some (decide (m.key i < m.key j)) := by
  obtain ⟨hN, hi'⟩ := h.active hi
  rw [mmless, key_eq h.fits hN h.linked hi', key_eq h.fits hN h.linked (h.active hj).2]
  rfl

theorem mmCmpExch_eq {i j : ℤ} (h : Sound sz m) (hi : Active m.sz i)
    (hj : Active m.sz j) : mmCmpExch sz m i j = some (m.mmCmpExch i j) := by
  obtain ⟨hN, hi'⟩ := h.active hi
  have hj' := (h.active hj).2
  have hexchange : mmexchange sz m i j = some (m.mmexchange i j) :=
    if_pos ⟨inHeap h.fits hN hi', inHeap h.fits hN hj',
      inPos h.fits (h.linked.pos_heap i hi').1, inPos h.fits (h.linked.pos_heap j hj').1⟩
  rw [mmCmpExch, mmless_eq h hi hj, hexchange, RollingMedian.mmCmpExch]
  by_cases hlt : m.key i < m.key j <;> simp [hlt]

theorem Sound.mmCmpExch {i j : ℤ} (h : Sound sz m) (hi : Active m.sz i)
    (hj : Active m.sz j) : Sound sz (m.mmCmpExch i j).1 := by
  have hcnt := h.counted
  rw [RollingMedian.mmCmpExch]
  split
  · exact h.shuffled ⟨rfl, rfl, rfl, rfl, rfl, rfl, h.linked.mmexchange hcnt.pos hcnt.le hi hj⟩
  · exact h

theorem less_eq {j : ℕ} (h : Sound sz m) (hi : i ≤ m.count d) (hj : j ≤ m.count d) :
    less sz d m i j = some (decide (d.lt ((view d).key m i) ((view d).key m j))) := by
  have hi' := h.counted.active d i hi
  have hj' := h.counted.active d j hj
  cases d with
  | min => exact mmless_eq h hi' hj'
  | max => exact mmless_eq h hj' hi'

theorem cmpExch_eq {j : ℕ} (h : Sound sz m) (hi : i ≤ m.count d) (hj : j ≤ m.count d) :
    cmpExch sz d m i j = some (if d.lt ((view d).key m i) ((view d).key m j) then
      ((view d).exchange m i j, true) else (m, false)) := by
  have hi' := h.counted.active d i hi
  have hj' := h.counted.active d j hj
  cases d with
  | min => exact mmCmpExch_eq h hi' hj'
  | max => exact mmCmpExch_eq h hj' hi'

theorem upperChild_eq (h : Sound sz m) (hp : 2 * p ≤ m.count d) : upperChild sz d (m.count d) m p =
      some (SiftHeap.upperChild (view d) d.lt (m.count d) m p) := by
  rw [upperChild, SiftHeap.upperChild]
  split
  · rename_i hlt
    rw [less_eq h hlt hp]
    simp [hlt]
  · rename_i hlast
    rw [if_neg fun hboth => hlast hboth.1]

theorem sortDown_eq (h : Sound sz m) (hp : 1 ≤ p) : sortDown sz d m p = some (m.sortDown d p) := by
  -- The states of the loop are the state at the start with its vs in another order.
  have hfuel : ∀ fuel m' p, 1 ≤ p → Shuffled m m' → sortDownFrom sz d (m.count d) fuel m' p =
        some (siftDownFrom (view d) d.lt (m.count d) fuel m' p) := by
    intro fuel
    induction fuel with
    | zero =>
      intro m' p _ _
      rfl
    | succ fuel ih =>
      intro m' p hp hs
      have h' := h.shuffled hs
      rw [sortDownFrom, siftDownFrom]
      split
      · rfl
      · rename_i hle
        have hhalf := upperChild_half (view d) d.lt (m.count d) m' p
        have hcle := upperChild_le (view d) d.lt (m.count d) m' p (by omega)
        have hchild := upperChild_eq (d := d) (p := p) h' (by rw [hs.count]; omega)
        rw [hs.count] at hchild
        rw [hchild, bind_eq_bind, bind_some]
        generalize SiftHeap.upperChild (view d) d.lt (m.count d) m' p = c at hhalf hcle ⊢
        dsimp only
        rw [cmpExch_eq h' (by rw [hs.count]; exact hcle) (by rw [hs.count]; omega),
          bind_eq_bind, bind_some]
        split
        · exact ih _ c (by omega) (hs.exchange h.counted d hcle (by omega))
        · rfl
  exact hfuel _ m p hp (.refl h.linked)

theorem sortUp_eq (h : Sound sz m) (hi : i ≤ m.count d) :
    sortUp sz d m i = some (m.sortUp d i) := by
  have hfuel : ∀ fuel m' i, i ≤ fuel → i ≤ m.count d → Shuffled m m' →
      sortUpFrom sz d fuel m' i = some (siftUpFrom (view d) d.lt fuel m' i) := by
    intro fuel
    induction fuel with
    | zero =>
      intro m' i _ _ _
      rfl
    | succ fuel ih =>
      intro m' i hfuel hi hs
      rw [sortUpFrom, siftUpFrom]
      split
      · rename_i hzero
        rw [if_neg (by omega), hzero]
        rfl
      · rename_i hne
        rw [cmpExch_eq (h.shuffled hs) (by rw [hs.count]; exact hi) (by rw [hs.count]; omega),
          bind_eq_bind, bind_some]
        have hpos : 0 < i := by omega
        by_cases hlt : d.lt ((view d).key m' i) ((view d).key m' (i / 2))
        · simp only [hlt, hpos, and_self, if_true]
          exact ih _ _ (by omega) (by omega) (hs.exchange h.counted d hi (by omega))
        · simp [hlt, hne]
  exact hfuel _ m i le_rfl hi (.refl h.linked)

theorem raiseMin_eq (h : Sound sz m) (hp : 1 ≤ p) (hpn : p ≤ m.minCt) :
    raiseMin sz m p = some (m.raiseMin p) := by
  have hshuf := (sortUp_frame h.linked h.counted (d := .min) hpn).1
  have hup := h.shuffled hshuf
  have hmin := h.counted.minCt
  have hmax := h.counted.maxCt
  have hroot := hup.counted.active .min 0 (Nat.zero_le _)
  have hfst := hup.counted.active .max 1 (by rw [hshuf.count]; change 1 ≤ m.maxCt; omega)
  have hsort : sortUp sz .min m p = some (m.minSortUp p) := sortUp_eq h hpn
  have hcmp : mmCmpExch sz (m.minSortUp p).1 0 (-1) = _ := mmCmpExch_eq hup hroot hfst
  rw [raiseMin, hsort, bind_eq_bind, bind_some, RollingMedian.raiseMin]
  dsimp only
  split
  · rw [hcmp, bind_some]
    split
    · exact sortDown_eq (hup.mmCmpExch hroot hfst) le_rfl
    · rfl
  · rfl

theorem raiseMax_eq (h : Sound sz m) (hpn : p ≤ m.maxCt) :
    raiseMax sz m p = some (m.raiseMax p) := by
  have hup := h.shuffled (sortUp_frame h.linked h.counted (d := .max) hpn).1
  have hroot := hup.counted.active .min 0 (Nat.zero_le _)
  have hsort : sortUp sz .max m p = some (m.maxSortUp p) := sortUp_eq h hpn
  rw [raiseMax, hsort, bind_eq_bind, bind_some, RollingMedian.raiseMax]
  dsimp only
  split
  · rename_i htop
    have hfst := hup.counted.active .min 1 (Nat.pos_of_ne_zero htop.2)
    have hcmp : mmCmpExch sz (m.maxSortUp p).1 1 0 = _ := mmCmpExch_eq hup hfst hroot
    rw [hcmp, bind_some]
    split
    · exact sortDown_eq (hup.mmCmpExch hfst hroot) le_rfl
    · rfl
  · rfl

theorem fitMedian_eq (h : Sound sz m) :
    fitMedian sz d m = some (sinkRoot d m) ∧ Sound sz (sinkRoot d m) := by
  rw [fitMedian, sinkRoot_eq]
  split
  · rename_i hcount
    have hup := h.shuffled (sortUp_frame h.linked h.counted (d := d) (i := 1) (by omega)).1
    rw [sortUp_eq h (by omega), bind_eq_bind, bind_some]
    split
    · exact ⟨sortDown_eq hup le_rfl, hup.shuffled (sortDown_frame hup.linked hup.counted le_rfl).1⟩
    · exact ⟨rfl, hup⟩
  · exact ⟨rfl, h⟩

/-- The states that `insert` sifts when the value has its place in a heap. -/
theorem Sound.beside (h : Valid m) (hfits : Fits sz m.N) (v : Item) (hp : 1 ≤ p)
    (hpos : m.pos m.idx = d.place p) : (m.count d < m.capacity d →
      Sound sz ((m.store v).grow d) ∧ p ≤ ((m.store v).grow d).count d) ∧
    (¬m.count d < m.capacity d → Sound sz (m.store v) ∧ p ≤ (m.store v).count d) := by
  by_cases hlt : m.sz < m.N
  · obtain ⟨hprep, hlast, hroom⟩ := h.prepared_grow v d hp (h.pos_filling hlt ▸ hpos) hlt
    refine ⟨fun _ => ⟨⟨?_, hprep.linked, hprep.counted⟩, ?_⟩, fun hfull => absurd hroom hfull⟩
    · cases d <;> exact hfits
    · cases d <;> exact hlast.le
  · have hfull : m.sz = m.N := by
      have := h.le
      omega
    have hprep := h.prepared_full v hfull
    have hcount := h.count_full hfull d
    refine ⟨fun hroom => absurd hroom (by omega), fun _ => ⟨⟨hfits, hprep.linked,
      hprep.counted⟩, ?_⟩⟩
    have hact := h.linked.active m.idx h.idx
    rw [hpos] at hact
    have hsame : (m.store v).count d = m.count d := by cases d <;> rfl
    rw [hsame, hcount]
    cases d <;> simp only [Active, Side.place, capacity] at * <;> omega

theorem insert_eq (h : Valid m) (hfits : Fits sz m.N) (v : Item) :
    insert sz m v = some (m.insert v) := by
  rw [insert, if_pos ⟨inPos hfits h.idx, inData hfits h.idx⟩, RollingMedian.insert]
  dsimp only
  split
  · rename_i hp
    obtain ⟨hgrown, hfull⟩ := Sound.beside (d := .min) (p := (m.pos m.idx).toNat) h hfits v
      (by omega) (by change m.pos m.idx = ((m.pos m.idx).toNat : ℤ); omega)
    split
    · rename_i hroom
      exact raiseMin_eq (hgrown hroom).1 (by omega) (hgrown hroom).2
    · rename_i hnot
      obtain ⟨hsound, hle⟩ := hfull hnot
      split
      · exact sortDown_eq hsound (by omega)
      · exact raiseMin_eq hsound (by omega) hle
  · split
    · rename_i hp
      obtain ⟨hgrown, hfull⟩ := Sound.beside (d := .max) (p := (-m.pos m.idx).toNat) h hfits v
        (by omega) (by change m.pos m.idx = -((-m.pos m.idx).toNat : ℤ); omega)
      split
      · rename_i hroom
        exact raiseMax_eq (hgrown hroom).1 (hgrown hroom).2
      · rename_i hnot
        obtain ⟨hsound, hle⟩ := hfull hnot
        split
        · exact sortDown_eq hsound (by omega)
        · exact raiseMax_eq hsound hle
    · have hprep := h.prepared_median v (by omega)
      have hsound : Sound sz (m.store v) := ⟨hfits, hprep.linked, hprep.counted⟩
      obtain ⟨hlower, hsunk⟩ := fitMedian_eq (d := .max) hsound
      rw [hlower, bind_eq_bind, bind_some, (fitMedian_eq hsunk).1, lowerMedian_eq,
        liftMedian_eq]

omit [LinearOrder Item] in
theorem fillSlots_eq (n : ℕ) (m : RollingMedian Item) (hfits : Fits sz m.N) (hn : n ≤ m.N) :
    fillSlots sz n m = some (m.fillSlots n) := by
  induction n generalizing m with
  | zero => rfl
  | succ n ih =>
    have hslot := (active_slot (n := m.N) n (by omega)).mpr hn
    rw [fillSlots, if_pos ⟨inPos hfits hn, inHeap hfits (by omega) hslot⟩]
    exact ih _ hfits (by change n ≤ m.N; omega)

theorem median_eq (getMid : Item → Item → Item) (h : Valid m) (hfits : Fits sz m.N) :
    median sz getMid m = some (m.median getMid) := by
  have hidx := h.idx
  have hle := h.le
  have hmin := h.minCt
  have hmax := h.maxCt
  have hkey {k : ℤ} (hk : Active m.N k) := key_eq hfits (by omega) h.linked hk
  rw [median, hkey (by unfold Active; omega), RollingMedian.median, bind_eq_bind,
    bind_some]
  split
  · rw [hkey (by unfold Active; omega)]
    rfl
  · rfl

theorem run_eq {m : RollingMedian Item} (hN : 1 ≤ m.N) (hfits : Fits sz m.N) (vs : List Item) :
    run sz m vs = some (vs.foldl RollingMedian.insert m.clear) := by
  obtain ⟨hvalid, hsame, -⟩ := clear_spec m hN
  have hclear : clear sz m = some m.clear := fillSlots_eq _ _ hfits le_rfl
  rw [run, hclear, bind_eq_bind, bind_some]
  rw [← hsame] at hfits
  generalize m.clear = m at hvalid hfits
  induction vs generalizing m with
  | nil => rfl
  | cons v vs ih =>
    obtain ⟨hvalid', hN', -⟩ := hvalid.insert v
    rw [foldlM_cons, insert_eq hvalid hfits, bind_eq_bind, bind_some]
    exact ih _ hvalid' (hN' ▸ hfits)

end Safety

/-- The middle value, or the mean of the two middle values, rounded down. -/
def middle (v : List ℕ) : ℕ :=
  let sorted := v.insertionSort (· ≤ ·)
  if v.length % 2 = 1 then sorted.getD (v.length / 2) 0
  else (sorted.getD (v.length / 2 - 1) 0 + sorted.getD (v.length / 2) 0) / 2

theorem median_eq_middle {v : List ℕ} (hne : v ≠ []) : Median.median v = middle v := by
  have hlen := length_pos_iff.mpr hne
  rw [Median.median, middle, if_neg (by omega)]
  split
  · rename_i hone
    obtain ⟨a, rfl⟩ := length_eq_one_iff.mp hone
    simp
  · split
    · rfl
    · rw [Median.getMid]
      omega

/-- A block that is too small for the last element of `heap` stops `clear`. -/
theorem fits_of_clear {sz : ℕ} {m m' : RollingMedian ℕ} (hN : 1 ≤ m.N)
    (h : clear sz m = some m') : Fits sz m.N := by
  have hslots : ∀ n (m : RollingMedian ℕ), fillSlots sz n m = some m' →
      ∀ i < n, InHeap sz m.N (slot i) := by
    intro n
    induction n with
    | zero => exact fun _ _ i hi => absurd hi i.not_lt_zero
    | succ n ih =>
      intro m hfill i hi
      rw [fillSlots, Option.ite_none_right_eq_some] at hfill
      rcases Nat.lt_succ_iff_lt_or_eq.mp hi with hlt | rfl
      · exact ih _ hfill.2 i hlt
      · exact hfill.1.2
  obtain ⟨i, hi, hslot⟩ := exists_slot (n := m.N) (m.N - 1 - (m.N / 2 : ℕ)) hN
    (by unfold Active; omega)
  have hlast : InHeap sz m.N (m.N - 1 - (m.N / 2 : ℕ)) := hslot ▸ hslots _ _ h i hi
  have hbytes : ((sz * m.N : ℕ) : ℤ) + _ ≤ _ := hlast.2.2
  have hblock := allocated_lt sz m.N
  rw [Fits, Nat.mul_add, Nat.mul_comm]
  generalize allocated sz m.N = block, sz * m.N = bytes at *
  omega

/-- Insertions after `clear` keep to the block exactly if its size fits in an `int`, and then the
median is the middle of the last values. -/
theorem rolling_median_is_middle (itemSize : ℕ) (m : RollingMedian ℕ) (values : List ℕ)
    (hN : 1 ≤ m.N) :
    (run itemSize m values ≠ none ↔ Fits itemSize m.N) ∧
    ∀ m', run itemSize m values = some m' → m'.size = min values.length m.N ∧
      ∃ answer, median itemSize Median.getMid m' = some answer ∧
        (values ≠ [] → answer = middle (lastOf m.N values)) := by
  have hback : run itemSize m values ≠ none → Fits itemSize m.N := by
    intro hrun
    obtain ⟨m', hclear⟩ := Option.ne_none_iff_exists'.mp fun hnone : clear itemSize m = none =>
      hrun (by rw [run, hnone]; rfl)
    exact fits_of_clear hN hclear
  refine ⟨⟨hback, fun hfits => by simp [run_eq hN hfits]⟩, fun m' hrun => ?_⟩
  have hfits := hback (by simp [hrun])
  obtain ⟨hvalid, hsame, hzero⟩ := clear_spec m hN
  obtain ⟨hend, hN', hwin⟩ := hvalid.insertAll values
  have hempty : m.clear.window = [] := by
    rw [← length_eq_zero_iff, length_window, hzero]
  rw [hempty, nil_append, hsame] at hwin
  have hsize : (values.foldl RollingMedian.insert m.clear).sz = min values.length m.N := by
    rw [← length_window, hwin, length_lastOf, Nat.min_comm]
  obtain rfl : _ = m' := Option.some.inj ((run_eq hN hfits values).symm.trans hrun)
  refine ⟨hsize, _, median_eq _ hend (by rwa [hN', hsame]), fun hne => ?_⟩
  have hpos := length_pos_iff.mpr hne
  rw [hend.median_eq (by omega), hwin]
  refine median_eq_middle fun hnil => ?_
  have hlen := length_lastOf m.N values
  rw [hnil, length_nil] at hlen
  omega

def blank (N : ℕ) : RollingMedian ℕ := ⟨N, fun _ => 0, fun _ => 0, fun _ => 0, 0, 0, 0, 0⟩

theorem rolling_median_is_middle_three :
    ∃ m', run 8 (blank 3) [5, 1, 4, 2] = some m' ∧ m'.size = 3 ∧
      median 8 Median.getMid m' = some 2 := by
  obtain ⟨hfits, hresult⟩ := rolling_median_is_middle 8 (blank 3) [5, 1, 4, 2] (by decide)
  obtain ⟨m', hrun⟩ := Option.ne_none_iff_exists'.mp (hfits.mpr (by unfold Fits; decide))
  obtain ⟨hsize, answer, hmedian, hmiddle⟩ := hresult m' hrun
  refine ⟨m', hrun, hsize, ?_⟩
  rw [hmedian, hmiddle (by decide)]
  rfl

/-- For this capacity the number of bytes is `2 ^ 32`, and the block is empty. -/
theorem rolling_median_outside_block : run 8 (blank (2 ^ 28)) [] = none := by
  cases hclear : clear 8 (blank (2 ^ 28)) with
  | none => rw [run, hclear]; rfl
  | some m' => exact absurd (fits_of_clear (by decide) hclear) (by unfold Fits; decide)

end Monzero.RollingAccess
