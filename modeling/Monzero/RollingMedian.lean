import Mathlib.Logic.Function.Basic
import Mathlib.Order.Lattice
import Mathlib.Data.Int.Order.Basic
import Monzero.SiftHeap

/-!
The median of a sliding window. The last values stand in a circular queue; their numbers in
the queue stand in two heaps that share the median as their root, the smaller values at
negative positions below it and the greater ones at positive positions. A new value takes
the place of the oldest one, wherever that stands, and is sifted from there.
-/
namespace Monzero

open SiftHeap
open Function (update)

/-- `rolling_median_t`. -/
structure RollingMedian (Item : Type) where
  /-- The allocated size. -/
  N : ℕ
  /-- The circular queue of values. -/
  data : ℕ → Item
  /-- The position in `heap` of each value. -/
  pos : ℕ → ℤ
  /-- The heaps, which hold indices into `data`. -/
  heap : ℤ → ℕ
  /-- The next index of the circular queue. -/
  idx : ℕ
  minCt : ℕ
  maxCt : ℕ
  sz : ℕ

namespace RollingMedian

/-- The two heaps: the min heap at the positive positions, the max heap at the negative ones. -/
inductive Side
  | min
  | max

namespace Side

/-- The position of the element with number `k` of a heap; the median is number zero of both. -/
def place : Side → ℕ → ℤ
  | min, k => k
  | max, k => -k

/-- The first value belongs nearer to the median than the second. -/
def lt {Item : Type} [LT Item] : Side → Item → Item → Prop
  | min, a, b => a < b
  | max, a, b => b < a

instance {Item : Type} [LinearOrder Item] (d : Side) : DecidableRel (@Side.lt Item _ d) :=
  match d with
  | min => fun a b => inferInstanceAs (Decidable (a < b))
  | max => fun a b => inferInstanceAs (Decidable (b < a))

end Side

variable {Item : Type}

/-- The value at a position. -/
def key (m : RollingMedian Item) (k : ℤ) : Item := m.data (m.heap k)

/-- Swaps the items at two positions and keeps their indices. -/
def mmexchange (m : RollingMedian Item) (i j : ℤ) : RollingMedian Item :=
  let heap := update (update m.heap i (m.heap j)) j (m.heap i)
  { m with
    heap := heap
    pos := update (update m.pos (heap i) i) (heap j) j }

@[simp] theorem heap_mmexchange (m : RollingMedian Item) (i j k : ℤ) :
    (m.mmexchange i j).heap k = m.heap (Equiv.swap i j k) := by
  simp only [mmexchange, Function.update_apply, Equiv.swap_apply_def]
  split <;> split <;> simp_all

theorem key_mmexchange (m : RollingMedian Item) {i j : ℤ} (k : ℤ) :
    (m.mmexchange i j).key k = m.key (Equiv.swap i j k) := by
  rw [key, heap_mmexchange]
  rfl

/-- The number of elements of a heap, the median apart. -/
def count (m : RollingMedian Item) : Side → ℕ
  | .min => m.minCt
  | .max => m.maxCt

/-- The swap of the elements with two numbers, with the arguments in the order of the source. -/
def exchange (d : Side) (m : RollingMedian Item) (i j : ℕ) : RollingMedian Item :=
  match d with
  | .min => m.mmexchange (d.place i) (d.place j)
  | .max => m.mmexchange (d.place j) (d.place i)

theorem key_exchange (d : Side) (m : RollingMedian Item) (i j : ℕ) (k : ℤ) :
    (m.exchange d i j).key k = m.key (Equiv.swap (d.place i) (d.place j) k) := by
  cases d with
  | min => exact key_mmexchange m k
  | max =>
    rw [Equiv.swap_comm]
    exact key_mmexchange m k

theorem Side.place_injective (d : Side) : Function.Injective d.place := by
  intro a b h
  cases d <;> simp only [Side.place] at h <;> omega

variable [LinearOrder Item]

/-- A heap with the median as its root. -/
def view (d : Side) : View (RollingMedian Item) Item where
  key m k := m.key (d.place k)
  exchange m i j := m.exchange d i j
  key_exchange m i j := by
    funext k
    rw [RollingMedian.key_exchange, Function.comp_apply, d.place_injective.swap_apply]

/-- Restores the order of a heap below the element with number `i`. -/
def sortDown (d : Side) (m : RollingMedian Item) (i : ℕ) : RollingMedian Item :=
  siftDown (view d) d.lt (m.count d) m i

def minSortDown (m : RollingMedian Item) (i : ℕ) : RollingMedian Item := m.sortDown .min i

/-- Here and in `maxSortUp` the number is the source's index without its sign. -/
def maxSortDown (m : RollingMedian Item) (i : ℕ) : RollingMedian Item := m.sortDown .max i

/-- Restores the order of a heap above the element with number `i`, the median included; the answer
is whether the median has changed. -/
def sortUp (d : Side) (m : RollingMedian Item) (i : ℕ) : RollingMedian Item × Bool :=
  siftUp (view d) d.lt m i

def minSortUp (m : RollingMedian Item) (i : ℕ) : RollingMedian Item × Bool := m.sortUp .min i

def maxSortUp (m : RollingMedian Item) (i : ℕ) : RollingMedian Item × Bool := m.sortUp .max i

/-- Swaps two items if the first is less than the second. -/
def mmCmpExch (m : RollingMedian Item) (i j : ℤ) : RollingMedian Item × Bool :=
  if m.key i < m.key j then (m.mmexchange i j, true) else (m, false)

def raiseMin (m : RollingMedian Item) (p : ℕ) : RollingMedian Item :=
  let up := m.minSortUp p
  if up.2 then
    let top := up.1.mmCmpExch 0 (-1)
    if top.2 then top.1.maxSortDown 1 else top.1
  else up.1

def raiseMax (m : RollingMedian Item) (p : ℕ) : RollingMedian Item :=
  let up := m.maxSortUp p
  if up.2 ∧ up.1.minCt ≠ 0 then
    let top := up.1.mmCmpExch 1 0
    if top.2 then top.1.minSortDown 1 else top.1
  else up.1

def lowerMedian (m : RollingMedian Item) : RollingMedian Item :=
  if m.maxCt ≠ 0 then
    let up := m.maxSortUp 1
    if up.2 then up.1.maxSortDown 1 else up.1
  else m

def liftMedian (m : RollingMedian Item) : RollingMedian Item :=
  if m.minCt ≠ 0 then
    let up := m.minSortUp 1
    if up.2 then up.1.minSortDown 1 else up.1
  else m

/-- The assignments at the head of `insert`. -/
def store (m : RollingMedian Item) (v : Item) : RollingMedian Item :=
  { m with
    data := update m.data m.idx v
    idx := (m.idx + 1) % m.N
    sz := min (m.sz + 1) m.N }

def insert (m : RollingMedian Item) (v : Item) : RollingMedian Item :=
  let p := m.pos m.idx
  let old := m.data m.idx
  let m := m.store v
  if p > 0 then
    if m.minCt < (m.N - 1) / 2 then raiseMin { m with minCt := m.minCt + 1 } p.toNat
    else if v > old then m.minSortDown p.toNat
    else raiseMin m p.toNat
  else if p < 0 then
    if m.maxCt < m.N / 2 then raiseMax { m with maxCt := m.maxCt + 1 } (-p).toNat
    else if v < old then m.maxSortDown (-p).toNat
    else raiseMax m (-p).toNat
  else m.lowerMedian.liftMedian

/-- The position at which index `n` starts: median, max, min, max, … -/
def slot (n : ℕ) : ℤ := ((n + 1) / 2 : ℕ) * (if n % 2 = 1 then -1 else 1)

/-- The loop of `clear`. -/
def fillSlots : ℕ → RollingMedian Item → RollingMedian Item
  | 0, m => m
  | n + 1, m => fillSlots n
      { m with pos := update m.pos n (slot n), heap := update m.heap (slot n) n }

def clear (m : RollingMedian Item) : RollingMedian Item :=
  fillSlots m.N { m with idx := 0, minCt := 0, maxCt := 0, sz := 0 }

/-- The constructor, over whatever the allocated memory holds. -/
def ofSize (N : ℕ) (memory : RollingMedian Item) : RollingMedian Item :=
  clear { memory with N := N }

def size (m : RollingMedian Item) : ℕ := m.sz

/-- The median, or `get_mid` of the two middle values. -/
def median (getMid : Item → Item → Item) (m : RollingMedian Item) : Item :=
  if m.minCt < m.maxCt then getMid (m.key 0) (m.key (-1)) else m.key 0

end RollingMedian

end Monzero
