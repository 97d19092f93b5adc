import Monzero.OrderedByKey
import Monzero.MarkIndex
import Monzero.Primitives
import Mathlib.Data.Finset.Basic
import Mathlib.Logic.Function.Basic

/-!
The queue of blocks that a node downloads while it synchronises. A span is a run of blocks
that one connection fetches; it is scheduled until its blocks have come. The spans are a set
ordered by the height at which they start, and beside them the queue remembers the hashes that
it has requested and the heights of the blocks it has. A reservation skips what is requested
already, may jump to the stripe that a pruned peer keeps, and takes as many of the peer's
hashes as it may.
-/
namespace Monzero.BlockQueues

open Bytes Primitives Checked OrderedByKey MarkIndex List
open Index (ext)
open UInt64 (le_iff_toNat_le le_refl ofNat toNat_add toNat_ofNat')

/-! ### Pruning stripes -/

/-- `CRYPTONOTE_MAX_BLOCK_NUMBER`. -/
def maxBlockNumber : UInt64 := 500000000

/-- `CRYPTONOTE_PRUNING_STRIPE_SIZE`. -/
def pruningStripeSize : UInt64 := 4096

/-- `CRYPTONOTE_PRUNING_LOG_STRIPES`. -/
def pruningLogStripes : UInt32 := 3

/-- `CRYPTONOTE_PRUNING_TIP_BLOCKS`. -/
def pruningTipBlocks : UInt64 := 5500

def getPruningLogStripes (pruningSeed : UInt32) : UInt32 := (pruningSeed >>> 7) &&& 0x7

/-- `get_pruning_stripe` of a seed; zero when nothing is pruned. -/
def getPruningStripe (pruningSeed : UInt32) : UInt32 :=
  if pruningSeed = 0 then 0 else (1 : UInt32) + ((pruningSeed >>> (0 : UInt32)) &&& 0x7f)

def stripeOf (blockHeight : UInt64) (logStripes : UInt32) : UInt32 :=
  (((blockHeight / pruningStripeSize) &&& ((1 <<< logStripes.toUInt64) - 1)) + 1).toUInt32

def getBlockPruningStripe (blockHeight blockchainHeight : UInt64) (logStripes : UInt32) : UInt32 :=
  if blockHeight + pruningTipBlocks ≥ blockchainHeight then 0 else stripeOf blockHeight logStripes

def hasUnprunedBlock (blockHeight blockchainHeight : UInt64) (pruningSeed : UInt32) : Bool :=
  let stripe := getPruningStripe pruningSeed
  if stripe = 0 then true
  else
    let blockStripe :=
      getBlockPruningStripe blockHeight blockchainHeight (getPruningLogStripes pruningSeed)
    blockStripe = 0 ∨ blockStripe = stripe

def getNextUnprunedBlockHeight (blockHeight blockchainHeight : UInt64) (pruningSeed : UInt32) :
    UInt64 :=
  let stripe := getPruningStripe pruningSeed
  let seedLogStripes := getPruningLogStripes pruningSeed
  let logStripes := if seedLogStripes = 0 then pruningLogStripes else seedLogStripes
  let blockPruningStripe := stripeOf blockHeight logStripes
  if blockHeight > maxBlockNumber + 1 ∨ blockchainHeight > maxBlockNumber + 1 then blockHeight
  else if stripe = 0 then blockHeight
  else if blockHeight + pruningTipBlocks ≥ blockchainHeight then blockHeight
  else if blockPruningStripe = stripe then blockHeight
  else
    let cycles := (blockHeight / pruningStripeSize) >>> logStripes.toUInt64
    let cycleStart := cycles + (if stripe > blockPruningStripe then 0 else 1)
    let h := cycleStart * (pruningStripeSize <<< logStripes.toUInt64) +
      (stripe - 1).toUInt64 * pruningStripeSize
    if h + pruningTipBlocks > blockchainHeight then
      if blockchainHeight < pruningTipBlocks then 0 else blockchainHeight - pruningTipBlocks
    else if h < blockHeight then blockHeight
    else h

/-! ### The queue -/

/-- `boost::uuids::uuid` of a connection. -/
abbrev Uuid := Blob 16

/-- `block_queue::span`. The blocks are of any type, as the queue only counts them. -/
structure Span (β : Type) where
  startBlockHeight : UInt64
  hashes : List Hash
  blocks : List β
  connectionId : Uuid
  nblocks : UInt64
deriving DecidableEq

namespace Span

variable {β : Type}

/-- What `operator<` compares. -/
def key (s : Span β) : ℕ := s.startBlockHeight.toNat

theorem key_eq_iff (s t : Span β) : s.key = t.key ↔ s.startBlockHeight = t.startBlockHeight :=
  UInt64.toNat_inj

/-- The constructor of a span whose blocks have come. -/
def filled (startBlockHeight : UInt64) (blocks : List β) (connectionId : Uuid) : Span β :=
  { startBlockHeight, hashes := [], blocks, connectionId, nblocks := ofNat blocks.length }

/-- The constructor of a span that is still to come. -/
def scheduled (startBlockHeight nblocks : UInt64) (connectionId : Uuid) : Span β :=
  { startBlockHeight, hashes := [], blocks := [], connectionId, nblocks }

def listed (s : Span β) : Set Hash := { h | h ∈ s.hashes }

theorem listed_eq_empty {s : Span β} (hs : s.hashes = []) : s.listed = ∅ := by
  rw [listed, hs]
  exact Set.eq_empty_of_forall_notMem fun h => not_mem_nil

end Span

structure BlockQueue (β : Type) where
  blocks : KeyedSet (Span.key : Span β → ℕ)
  requestedHashes : Finset Hash
  haveBlocks : Hash → Option UInt64

namespace BlockQueue

variable {β : Type}

def empty : BlockQueue β := ⟨.empty, ∅, fun _ => none⟩

def requested (q : BlockQueue β) (hash : Hash) : Bool := hash ∈ q.requestedHashes

def eraseBlock (q : BlockQueue β) (j : Span β) : BlockQueue β where
  blocks := q.blocks.erase j
  requestedHashes := j.hashes.foldl Finset.erase q.requestedHashes
  haveBlocks := j.hashes.foldl (fun known h => Function.update known h none) q.haveBlocks

/-- A walk over the spans that erases those of some kind. The iterator has passed a span when
the span is erased. -/
def eraseWhere (q : BlockQueue β) (p : Span β → Bool) : BlockQueue β :=
  q.blocks.elems.foldl (fun q j => if p j then q.eraseBlock j else q) q

def flushSpans (q : BlockQueue β) (connectionId : Uuid) (all : Bool) : BlockQueue β :=
  q.eraseWhere fun j => j.connectionId = connectionId ∧ (all ∨ j.blocks.length = 0)

def flushStaleSpans (q : BlockQueue β) (liveConnections : Finset Uuid) : BlockQueue β :=
  q.eraseWhere fun j => j.blocks.isEmpty ∧ j.connectionId ∉ liveConnections

def removeSpans (q : BlockQueue β) (connectionId : Uuid) (startBlockHeight : UInt64) :
    BlockQueue β :=
  q.eraseWhere fun j => j.connectionId = connectionId ∧ j.startBlockHeight ≤ startBlockHeight

def removeSpan (q : BlockQueue β) (startBlockHeight : UInt64) : Option (List Hash) × BlockQueue β :=
  match q.blocks.elems.find? fun i => i.startBlockHeight = startBlockHeight with
  | some i => (some i.hashes, q.eraseBlock i)
  | none => (none, q)

def insertSpan (q : BlockQueue β) (s : Span β) : BlockQueue β :=
  { q with blocks := q.blocks.insert s }

def setSpanHashes (q : BlockQueue β) (startHeight : UInt64) (connectionId : Uuid)
    (hashes : List Hash) : BlockQueue β :=
  match q.blocks.elems.find? fun i =>
      i.startBlockHeight = startHeight ∧ i.connectionId = connectionId with
  | some i =>
      let q := q.eraseBlock i
      { q with requestedHashes := hashes.foldl (fun known h => insert h known) q.requestedHashes }
        |>.insertSpan { i with hashes }
  | none => q

/-- `emplace` of a map, which does not overwrite. -/
def emplace (known : Hash → Option UInt64) (hash : Hash) (height : UInt64) :
    Hash → Option UInt64 :=
  if (known hash).isSome then known else Function.update known hash (some height)

/-- The loop of `add_blocks` over the hashes of the span that was there. -/
def markDownloaded : List Hash → UInt64 → BlockQueue β → BlockQueue β
  | [], _, q => q
  | h :: rest, height, q =>
      markDownloaded rest (height + 1)
        { q with
          requestedHashes := insert h q.requestedHashes
          haveBlocks := emplace q.haveBlocks h height }

/-- `add_blocks` of blocks that have come. -/
def addBlocks (q : BlockQueue β) (height : UInt64) (bcel : List β) (connectionId : Uuid) :
    BlockQueue β :=
  let removed := q.removeSpan height
  let q := removed.2.insertSpan (.filled height bcel connectionId)
  match removed.1 with
  | some hashes => (markDownloaded hashes height q).setSpanHashes height connectionId hashes
  | none => q

/-- `add_blocks` of a span to come. -/
def addScheduledBlocks (q : BlockQueue β) (height nblocks : UInt64) (connectionId : Uuid) :
    Except String (BlockQueue β) := do
  failIf (¬nblocks > 0) "Empty span"
  pure (q.insertSpan (.scheduled height nblocks connectionId))

end BlockQueue

/-- The arguments of `reserve_span`. Each hash of the peer comes with the weight of its block. -/
structure SpanRequest where
  firstBlockHeight : UInt64
  lastBlockHeight : UInt64
  maxBlocks : UInt64
  connectionId : Uuid
  syncPrunedBlocks : Bool
  localPruningSeed : UInt32
  pruningSeed : UInt32
  blockchainHeight : UInt64
  blockHashes : List (Hash × UInt64)

namespace SpanRequest

/-- The height of the first hash. -/
def blockHashesStartHeight (r : SpanRequest) : UInt64 :=
  r.lastBlockHeight - ofNat r.blockHashes.length + 1

/-- Where the download starts: at the next block that the peer has kept, when that is near.
The height is cut to 32 bits. -/
def startUnpruned (r : SpanRequest) (spanStartHeight : UInt64) : UInt64 :=
  if r.syncPrunedBlocks then spanStartHeight
  else
    let nextUnprunedHeight :=
      (getNextUnprunedBlockHeight spanStartHeight r.blockchainHeight
        r.pruningSeed).toUInt32.toUInt64
    if nextUnprunedHeight > spanStartHeight ∧
        nextUnprunedHeight < spanStartHeight + pruningStripeSize then nextUnprunedHeight
    else spanStartHeight

/-- The loop that collects the hashes of a span, with the length of the span so far. A node
that syncs pruned blocks stops where it goes over to needing the full data, or back. -/
def collectHashes (r : SpanRequest) (spanStartHeight : UInt64) (firstIsPruned : Bool) :
    List (Hash × UInt64) → UInt64 → List Hash × UInt64
  | [], spanLength => ([], spanLength)
  | i :: rest, spanLength =>
      if spanLength < r.maxBlocks ∧ (r.syncPrunedBlocks ∨
          hasUnprunedBlock (spanStartHeight + spanLength) r.blockchainHeight r.pruningSeed) then
        if r.syncPrunedBlocks ∧ firstIsPruned =
            hasUnprunedBlock (spanStartHeight + spanLength) r.blockchainHeight
              r.localPruningSeed then
          ([], spanLength)
        else
          let collected := collectHashes r spanStartHeight firstIsPruned rest (spanLength + 1)
          (i.1 :: collected.1, collected.2)
      else ([], spanLength)

end SpanRequest

namespace BlockQueue

variable {β : Type}

/-- The loop that skips hashes already requested; it counts the height along. -/
def skipRequested (q : BlockQueue β) : List (Hash × UInt64) → UInt64 → List (Hash × UInt64) × UInt64
  | [], spanStartHeight => ([], spanStartHeight)
  | i :: rest, spanStartHeight =>
      if q.requested i.1 then q.skipRequested rest (spanStartHeight + 1)
      else (i :: rest, spanStartHeight)

/-- The first part of `reserve_span`, which only reads: the height, the length and the hashes
of the span, or nothing where the function returns two zeros. -/
def findSpan (q : BlockQueue β) (r : SpanRequest) : Option (UInt64 × UInt64 × List Hash) :=
  if r.lastBlockHeight < r.firstBlockHeight ∨ r.maxBlocks = 0 then none
  else if r.lastBlockHeight.toNat < r.blockHashes.length then none
  else
    let skipped := q.skipRequested r.blockHashes r.blockHashesStartHeight
    let spanStartHeight := r.startUnpruned skipped.2
    if spanStartHeight ≥ ofNat r.blockHashes.length + r.blockHashesStartHeight then none
    else
      let i := r.blockHashes.drop (spanStartHeight - r.blockHashesStartHeight).toNat
      let skipped := q.skipRequested i spanStartHeight
      let firstIsPruned := r.syncPrunedBlocks &&
        !hasUnprunedBlock skipped.2 r.blockchainHeight r.localPruningSeed
      let collected := r.collectHashes skipped.2 firstIsPruned skipped.1 0
      if collected.2 = 0 then none else some (skipped.2, collected.2, collected.1)

def reserveSpan (q : BlockQueue β) (r : SpanRequest) :
    Except String ((UInt64 × UInt64) × BlockQueue β) :=
  match q.findSpan r with
  | none => .ok ((0, 0), q)
  | some (spanStartHeight, spanLength, hashes) => do
      let q ← q.addScheduledBlocks spanStartHeight spanLength r.connectionId
      pure ((spanStartHeight, spanLength), q.setSpanHashes spanStartHeight r.connectionId hashes)

/-! ### Spans and requested hashes -/

def index (q : BlockQueue β) : Index (Span.listed : Span β → Set Hash) :=
  ⟨{ s | s ∈ q.blocks }, { h | h ∈ q.requestedHashes }⟩

variable (hashes : List Hash) (height : UInt64) (q : BlockQueue β)

theorem mem_foldl_erase (known : Finset Hash) (h : Hash) :
    h ∈ hashes.foldl Finset.erase known ↔ h ∈ known ∧ h ∉ hashes := by
  induction hashes generalizing known with
  | nil => simp
  | cons a rest ih =>
    rw [foldl_cons, ih, Finset.mem_erase, mem_cons]
    tauto

theorem mem_foldl_insert {known : Finset Hash} (h : Hash) :
    h ∈ hashes.foldl (fun known h => insert h known) known ↔ h ∈ known ∨ h ∈ hashes := by
  induction hashes generalizing known with
  | nil => simp
  | cons a rest ih =>
    rw [foldl_cons, ih, Finset.mem_insert, mem_cons]
    tauto

theorem eq_of_start_eq {s t : Span β} (hs : s ∈ q.blocks) (ht : t ∈ q.blocks)
    (h : s.startBlockHeight = t.startBlockHeight) : s = t :=
  q.blocks.eq_of_key_eq hs ht ((s.key_eq_iff t).mpr h)

theorem mem_insertSpan (s t : Span β) : t ∈ (q.insertSpan s).blocks ↔
      t ∈ q.blocks ∨ (t = s ∧ ∀ u ∈ q.blocks, u.startBlockHeight ≠ s.startBlockHeight) := by
  simp [insertSpan, KeyedSet.mem_insert, Span.key_eq_iff]

theorem index_eraseBlock {j : Span β} (hj : j ∈ q.blocks) :
    (q.eraseBlock j).index = q.index.drop j := by
  apply ext
  · exact Set.ext fun s => q.blocks.mem_erase hj s
  · exact Set.ext fun h => mem_foldl_erase j.hashes q.requestedHashes h

theorem index_insertSpan {s : Span β} (hs : s.hashes = []) : (q.insertSpan s).index = q.index ∨
      (q.insertSpan s).index = q.index.put s := by
  by_cases hfree : ∀ u ∈ q.blocks, u.startBlockHeight ≠ s.startBlockHeight
  · right
    apply ext
    · ext t
      rw [index, Set.mem_ofPred_eq, mem_insertSpan, and_iff_left hfree, or_comm]
      exact Iff.rfl
    · rw [Index.put, Span.listed_eq_empty hs, Set.union_empty]
      rfl
  · left
    apply ext
    · ext t
      rw [index, Set.mem_ofPred_eq, mem_insertSpan, or_iff_left fun h => hfree h.2]
      exact Iff.rfl
    · rfl

theorem index_setSpanHashes {i : Span β} (hi : i ∈ q.blocks) (hashes : List Hash) :
    (q.setSpanHashes i.startBlockHeight i.connectionId hashes).index =
      (q.index.drop i).put { i with hashes } := by
  have hfind : q.blocks.elems.find? (fun j =>
      j.startBlockHeight = i.startBlockHeight ∧ j.connectionId = i.connectionId) = some i := by
    refine q.blocks.find?_eq_some hi _ (by simp) fun j hj => ?_
    rw [decide_eq_true_eq] at hj
    exact (j.key_eq_iff i).mpr hj.1
  have hfree : ∀ u ∈ (q.eraseBlock i).blocks, u.startBlockHeight ≠ i.startBlockHeight := by
    intro u hu hstart
    obtain ⟨hu, hne⟩ := (q.blocks.mem_erase hi u).mp hu
    exact hne (q.eq_of_start_eq hu hi hstart)
  rw [setSpanHashes, hfind, ← index_eraseBlock q hi]
  apply ext
  · ext t
    refine (mem_insertSpan _ _ t).trans ?_
    rw [and_iff_left hfree, or_comm]
    exact Iff.rfl
  · exact Set.ext fun h => mem_foldl_insert hashes h

theorem setSpanHashes_of_absent (startHeight : UInt64) (cid : Uuid) (hashes : List Hash)
    (h : ∀ i ∈ q.blocks, i.startBlockHeight = startHeight → i.connectionId ≠ cid) :
    q.setSpanHashes startHeight cid hashes = q := by
  have hfind : q.blocks.elems.find? (fun j =>
      j.startBlockHeight = startHeight ∧ j.connectionId = cid) = none := by
    refine find?_eq_none.mpr fun i hi hmatch => ?_
    rw [decide_eq_true_eq] at hmatch
    exact h i hi hmatch.1 hmatch.2
  rw [setSpanHashes, hfind]

theorem removeSpan_of_mem {i : Span β} (hi : i ∈ q.blocks) :
    q.removeSpan i.startBlockHeight = (some i.hashes, q.eraseBlock i) := by
  have hfind : q.blocks.elems.find? (fun j => j.startBlockHeight = i.startBlockHeight) =
      some i := by
    refine q.blocks.find?_eq_some hi _ (by simp) fun j hj => ?_
    exact (j.key_eq_iff i).mpr (of_decide_eq_true hj)
  rw [removeSpan, hfind]

theorem removeSpan_of_absent {start : UInt64} (h : ∀ i ∈ q.blocks, i.startBlockHeight ≠ start) :
    q.removeSpan start = (none, q) := by
  have hfind : q.blocks.elems.find? (fun j => j.startBlockHeight = start) = none :=
    find?_eq_none.mpr fun i hi hmatch => h i hi (of_decide_eq_true hmatch)
  rw [removeSpan, hfind]

theorem blocks_markDownloaded : (markDownloaded hashes height q).blocks = q.blocks := by
  induction hashes generalizing height q with
  | nil => rfl
  | cons h rest ih => rw [markDownloaded, ih]

theorem mem_requestedHashes_markDownloaded (h : Hash) :
    h ∈ (markDownloaded hashes height q).requestedHashes ↔ h ∈ q.requestedHashes ∨ h ∈ hashes := by
  induction hashes generalizing height q with
  | nil => simp [markDownloaded]
  | cons a rest ih =>
    rw [markDownloaded, ih, Finset.mem_insert, mem_cons]
    tauto

/-! ### What each call does to the spans -/

theorem quiet_eraseWhere (p : Span β → Bool) :
    Relation.ReflTransGen Index.Quiet q.index (q.eraseWhere p).index := by
  -- the spans that the walk has not reached are still in the queue, and differ
  have hwalk : ∀ (rest : List (Span β)) (q : BlockQueue β), rest.Nodup →
      (∀ j ∈ rest, j ∈ q.blocks) → Relation.ReflTransGen Index.Quiet q.index
        (rest.foldl (fun q j => if p j then q.eraseBlock j else q) q).index := by
    intro rest
    induction rest with
    | nil => exact fun q _ _ => .refl
    | cons j rest ih =>
      intro q hnd hmem
      obtain ⟨hj, hnd⟩ := nodup_cons.mp hnd
      have hjmem := hmem j mem_cons_self
      rw [foldl_cons]
      split
      · refine .head ?_ (ih (q.eraseBlock j) hnd fun t ht => ?_)
        · rw [index_eraseBlock q hjmem]
          exact .drop q.index hjmem
        · refine (q.blocks.mem_erase hjmem t).mpr ⟨hmem t (mem_cons_of_mem _ ht), ?_⟩
          rintro rfl
          exact hj ht
      · exact ih q hnd fun t ht => hmem t (mem_cons_of_mem _ ht)
  have hnd : q.blocks.elems.Nodup :=
    q.blocks.sorted.imp fun hlt heq => absurd (congrArg Span.key heq) (Nat.ne_of_lt hlt)
  exact hwalk q.blocks.elems q hnd fun j hj => hj

theorem quiet_removeSpan (start : UInt64) :
    Relation.ReflTransGen Index.Quiet q.index (q.removeSpan start).2.index := by
  by_cases h : ∃ i ∈ q.blocks, i.startBlockHeight = start
  · obtain ⟨i, hi, rfl⟩ := h
    rw [removeSpan_of_mem q hi, index_eraseBlock q hi]
    exact .single (.drop q.index hi)
  · push Not at h
    rw [removeSpan_of_absent q h]

theorem quiet_insertSpan {s : Span β} (hs : s.hashes = []) :
    Relation.ReflTransGen Index.Quiet q.index (q.insertSpan s).index := by
  rcases index_insertSpan q hs with h | h
  · rw [h]
  · rw [h]
    exact .single (.put q.index (Span.listed_eq_empty hs))

theorem changes_setSpanHashes (startHeight : UInt64) (cid : Uuid) (hashes : List Hash) :
    Index.Changes q.index (q.setSpanHashes startHeight cid hashes).index := by
  by_cases h : ∃ i ∈ q.blocks, i.startBlockHeight = startHeight ∧ i.connectionId = cid
  · obtain ⟨i, hi, rfl, rfl⟩ := h
    exact ⟨q.index.drop i, .single (.drop q.index hi), .inr ⟨_, index_setSpanHashes q hi hashes⟩⟩
  · have habs : ∀ i ∈ q.blocks, i.startBlockHeight = startHeight →
        i.connectionId ≠ cid := fun i hi hstart hconn => h ⟨i, hi, hstart, hconn⟩
    rw [setSpanHashes_of_absent q startHeight cid hashes habs]
    exact ⟨q.index, .refl, .inl rfl⟩

theorem mem_insertSpan_removeSpan (s : Span β) :
    s ∈ ((q.removeSpan s.startBlockHeight).2.insertSpan s).blocks := by
  refine (mem_insertSpan _ s s).mpr (.inr ⟨rfl, fun u hu hstart => ?_⟩)
  by_cases h : ∃ i ∈ q.blocks, i.startBlockHeight = s.startBlockHeight
  · obtain ⟨i, hi, hi'⟩ := h
    rw [← hi', removeSpan_of_mem q hi] at hu
    obtain ⟨hu, hne⟩ := (q.blocks.mem_erase hi u).mp hu
    exact hne (q.eq_of_start_eq hu hi (hstart.trans hi'.symm))
  · push Not at h
    rw [removeSpan_of_absent q h] at hu
    exact h u hu hstart

theorem changes_addBlocks (height : UInt64) (bcel : List β) (cid : Uuid) :
    Index.Changes q.index (q.addBlocks height bcel cid).index := by
  set s : Span β := .filled height bcel cid with hs
  have hquiet : Relation.ReflTransGen Index.Quiet q.index
      ((q.removeSpan height).2.insertSpan s).index :=
    (q.quiet_removeSpan height).trans (quiet_insertSpan _ rfl)
  simp only [addBlocks, ← hs]
  split
  case h_2 => exact ⟨_, hquiet, .inl rfl⟩
  case h_1 hashes _ =>
    -- the hashes are marked before the span lists them; the result is that of one put
    set r := (q.removeSpan height).2.insertSpan s
    have hmem : s ∈ r.blocks := mem_insertSpan_removeSpan q s
    have hmarked : s ∈ (markDownloaded hashes height r).blocks := by
      rw [blocks_markDownloaded]
      exact hmem
    have hset := index_setSpanHashes (markDownloaded hashes height r) hmarked hashes
    refine ⟨r.index.drop s, hquiet.tail (.drop r.index hmem), .inr ⟨{ s with hashes }, ?_⟩⟩
    refine hset.trans ?_
    apply ext
    · simp [Index.put, Index.drop, index, blocks_markDownloaded]
    · ext h
      have hemp : h ∉ s.listed := not_mem_nil
      simp only [Index.put, Index.drop, index, Set.mem_union, Set.mem_sdiff, Set.mem_ofPred_eq,
        mem_requestedHashes_markDownloaded, Span.listed]
      tauto

/-! ### Reservations -/

theorem skipRequested_eq (l : List (Hash × UInt64)) (height : UInt64) :
    ∃ k ≤ l.length, q.skipRequested l height = (l.drop k, height + ofNat k) := by
  induction l generalizing height with
  | nil => exact ⟨0, Nat.le_refl 0, by simp [skipRequested]⟩
  | cons i rest ih =>
    rw [skipRequested]
    split
    · obtain ⟨k, hk, hskip⟩ := ih (height + 1)
      refine ⟨k + 1, Nat.succ_le_succ hk, ?_⟩
      rw [hskip, drop_succ_cons, UInt64.ofNat_add]
      congr 1
      grind
    · exact ⟨0, Nat.zero_le _, by simp⟩

end BlockQueue

namespace SpanRequest

theorem le_startUnpruned (r : SpanRequest) (height : UInt64) : height ≤ r.startUnpruned height := by
  simp only [startUnpruned]
  split
  · exact le_refl _
  · split
    · rename_i hnext
      exact UInt64.le_of_lt hnext.1
    · exact le_refl _

theorem collectHashes_eq (r : SpanRequest) (spanStartHeight : UInt64) (firstIsPruned : Bool)
    (l : List (Hash × UInt64)) (len : UInt64) (hlen : len ≤ r.maxBlocks) :
    ∃ k ≤ l.length, len.toNat + k ≤ r.maxBlocks.toNat ∧
      r.collectHashes spanStartHeight firstIsPruned l len =
        ((l.take k).map Prod.fst, len + ofNat k) := by
  induction l generalizing len with
  | nil => exact ⟨0, Nat.le_refl 0, hlen, by simp [collectHashes]⟩
  | cons i rest ih =>
    have hstop : ∃ k ≤ (i :: rest).length, len.toNat + k ≤ r.maxBlocks.toNat ∧
        (([], len) : List Hash × UInt64) =
          (((i :: rest).take k).map Prod.fst, len + ofNat k) :=
      ⟨0, Nat.zero_le _, hlen, by simp⟩
    rw [collectHashes]
    split
    case isFalse => exact hstop
    case isTrue hmore =>
      split
      case isTrue => exact hstop
      case isFalse =>
        have hlt : len.toNat < r.maxBlocks.toNat := hmore.1
        have hnext : (len + 1).toNat = len.toNat + 1 := by
          rw [toNat_add, Nat.mod_eq_of_lt]
          · rfl
          · have := r.maxBlocks.toNat_lt
            exact Nat.lt_of_le_of_lt hlt this
        obtain ⟨k, hk, hmax, hcollect⟩ := ih (len + 1) (by
          rw [le_iff_toNat_le, hnext]
          exact hlt)
        refine ⟨k + 1, Nat.succ_le_succ hk, by omega, ?_⟩
        have hsum : len + 1 + ofNat k = len + ofNat (k + 1) := by
          rw [UInt64.ofNat_add]
          grind
        simp [hcollect, hsum]

/-- The height of the first hash, as a number. -/
def firstHashHeight (r : SpanRequest) : ℕ := r.lastBlockHeight.toNat + 1 - r.blockHashes.length

def hashesAt (r : SpanRequest) (height count : UInt64) : List Hash :=
  ((r.blockHashes.drop (height.toNat - r.firstHashHeight)).take count.toNat).map Prod.fst

/-- The height that the code computes is the right one when a start lies below its end: the sum
at the end would be zero if it did not fit. -/
theorem start_within (r : SpanRequest) (start : UInt64) {k : ℕ}
    (hsize : r.blockHashes.length ≤ r.lastBlockHeight.toNat) (hk : k ≤ r.blockHashes.length)
    (hskip : r.blockHashesStartHeight + ofNat k ≤ start)
    (hin : start < ofNat r.blockHashes.length + r.blockHashesStartHeight) :
    r.blockHashesStartHeight.toNat = r.firstHashHeight ∧ r.firstHashHeight ≤ start.toNat ∧
      start.toNat ≤ r.lastBlockHeight.toNat ∧ r.lastBlockHeight.toNat + 1 < 2 ^ 64 := by
  have hlast := r.lastBlockHeight.toNat_lt
  have hlen : (ofNat r.blockHashes.length).toNat = r.blockHashes.length := by
    rw [toNat_ofNat', Nat.mod_eq_of_lt (Nat.lt_of_le_of_lt hsize hlast)]
  have hskipped : (ofNat k).toNat = k := by
    rw [toNat_ofNat', Nat.mod_eq_of_lt (by omega)]
  have hstart : r.blockHashesStartHeight.toNat =
      (r.lastBlockHeight.toNat - r.blockHashes.length + 1) % 2 ^ 64 := by
    rw [blockHashesStartHeight, toNat_add,
      UInt64.toNat_sub_of_le _ _ (by rw [le_iff_toNat_le, hlen]; exact hsize), hlen]
    rfl
  rw [le_iff_toNat_le, toNat_add, hskipped, hstart] at hskip
  rw [UInt64.lt_iff_toNat_lt, toNat_add, hlen, hstart] at hin
  rw [hstart, firstHashHeight]
  omega

/-- A span lies within the hashes of a request and respects its limits. -/
structure Fits (r : SpanRequest) (height count : UInt64) : Prop where
  length_le : r.blockHashes.length ≤ r.lastBlockHeight.toNat
  start_le : r.firstHashHeight ≤ height.toNat
  end_le : height.toNat + count.toNat ≤ r.lastBlockHeight.toNat + 1
  count_pos : 0 < count.toNat
  count_le : count ≤ r.maxBlocks

theorem Fits.length_hashesAt {r : SpanRequest} {height count : UInt64} (h : r.Fits height count) :
    (r.hashesAt height count).length = count.toNat := by
  rw [hashesAt, length_map, length_take, length_drop]
  have hlen := h.length_le
  have hstart := h.start_le
  have hend := h.end_le
  rw [firstHashHeight] at hstart ⊢
  omega

end SpanRequest

namespace BlockQueue

variable {β : Type} {r : SpanRequest} {q : BlockQueue β}

/-- Two skips and a jump lead to a place among the hashes, and from there some are taken. -/
theorem findSpan_eq_some {height count : UInt64} {hashes : List Hash}
    (h : q.findSpan r = some (height, count, hashes)) :
    ∃ offset n, offset + n ≤ r.blockHashes.length ∧ 0 < n ∧ n ≤ r.maxBlocks.toNat ∧
      r.blockHashes.length ≤ r.lastBlockHeight.toNat ∧
      height.toNat = r.firstHashHeight + offset ∧ count = ofNat n ∧
      hashes = ((r.blockHashes.drop offset).take n).map Prod.fst := by
  rw [findSpan] at h
  split at h
  · cases h
  split at h
  · cases h
  rename_i hsize
  simp only at h
  obtain ⟨k, hk, hskip⟩ := q.skipRequested_eq r.blockHashes r.blockHashesStartHeight
  rw [hskip] at h
  have hjump := r.le_startUnpruned (r.blockHashesStartHeight + ofNat k)
  generalize r.startUnpruned (r.blockHashesStartHeight + ofNat k) = start at h hjump
  split at h
  · cases h
  rename_i hin
  obtain ⟨hfst, hfirstle, hstartle, hlast⟩ := r.start_within start (Nat.le_of_not_lt hsize) hk
    hjump (UInt64.not_le.mp hin)
  have hoff : (start - r.blockHashesStartHeight).toNat = start.toNat - r.firstHashHeight := by
    rw [UInt64.toNat_sub_of_le _ _ (by rw [le_iff_toNat_le, hfst]; exact hfirstle), hfst]
  rw [hoff] at h
  generalize hplace : start.toNat - r.firstHashHeight = offset at h
  have hend : r.firstHashHeight + r.blockHashes.length = r.lastBlockHeight.toNat + 1 := by
    rw [SpanRequest.firstHashHeight]
    omega
  obtain ⟨k', hk', hskip'⟩ := q.skipRequested_eq (r.blockHashes.drop offset) start
  rw [hskip', drop_drop] at h
  rw [length_drop] at hk'
  simp only at h
  generalize (r.syncPrunedBlocks && !hasUnprunedBlock (start + ofNat k') r.blockchainHeight
    r.localPruningSeed) = firstIsPruned at h
  obtain ⟨n, hn, hmax, hcollect⟩ := r.collectHashes_eq (start + ofNat k') firstIsPruned
    (r.blockHashes.drop (offset + k')) 0 UInt64.zero_le
  rw [hcollect] at h
  rw [length_drop] at hn
  split at h
  · cases h
  rename_i hcnt
  cases h
  rw [UInt64.zero_add] at hcnt ⊢
  have hpos : 0 < n := Nat.pos_of_ne_zero fun hzero => hcnt (by rw [hzero]; rfl)
  refine ⟨offset + k', n, by omega, hpos, by simpa using hmax, Nat.le_of_not_lt hsize, ?_, rfl, rfl⟩
  rw [toNat_add, toNat_ofNat']
  omega

theorem findSpan_fits {height count : UInt64} {hashes : List Hash}
    (h : q.findSpan r = some (height, count, hashes)) :
    r.Fits height count ∧ hashes = r.hashesAt height count := by
  obtain ⟨offset, n, hlen, hpos, hmax, hsize, hht, rfl, rfl⟩ := findSpan_eq_some h
  have hn : (ofNat n).toNat = n := by
    have := r.lastBlockHeight.toNat_lt
    rw [toNat_ofNat', Nat.mod_eq_of_lt (by omega)]
  have hfst : r.firstHashHeight = r.lastBlockHeight.toNat + 1 - r.blockHashes.length := rfl
  refine ⟨⟨hsize, by omega, by omega, by omega, ?_⟩, ?_⟩
  · rw [le_iff_toNat_le, hn]
    exact hmax
  · rw [SpanRequest.hashesAt, hht, hn, Nat.add_sub_cancel_left]

theorem reserveSpan_of_none (h : q.findSpan r = none) : q.reserveSpan r = .ok ((0, 0), q) := by
  rw [reserveSpan, h]

theorem reserveSpan_of_some {height count : UInt64} {hashes : List Hash}
    (h : q.findSpan r = some (height, count, hashes)) : q.reserveSpan r = .ok ((height, count),
      (q.insertSpan (.scheduled height count r.connectionId)).setSpanHashes height r.connectionId
        hashes) := by
  have hpos : count > 0 := UInt64.lt_iff_toNat_lt.mpr (findSpan_fits h).1.count_pos
  rw [reserveSpan, h]
  simp only [addScheduledBlocks, failIf_of_not "Empty span" (not_not.mpr hpos), ok_bind]
  rfl

end BlockQueue

end Monzero.BlockQueues
