import Monzero.Emission
import Monzero.Primitives
import Monzero.RollingMedian

/-!
The long-term weights of blocks. Each block is stored with its weight and with a long-term
weight, which is its weight bounded by the median of the long-term weights of the blocks
before it. The limit for the next block comes from that median and from the median of the
last hundred weights. The long-term median is cached: a rolling median is kept with the hash
of the last block in it, and is moved up by one block when the chain has grown by one.
All weights have 64 bits.
-/
namespace Monzero.LongTermWeights

open Primitives Checked Median

def hfVersionLongTermBlockWeight : UInt8 := 10

def hfVersion2021Scaling : UInt8 := 15

/-- `CRYPTONOTE_BLOCK_GRANTED_FULL_REWARD_ZONE_V5`. -/
def fullRewardZoneV5 : ℕ := 300000

/-- `CRYPTONOTE_SHORT_TERM_BLOCK_WEIGHT_SURGE_FACTOR`. -/
def surgeFactor : ℕ := 50

/-- `CRYPTONOTE_REWARD_BLOCKS_WINDOW`. -/
def rewardBlocksWindow : ℕ := 100

def u64 (n : ℕ) : ℕ := n % 2 ^ 64

/-- What a block says that matters here. -/
structure WeightBlock where
  prevId : Hash
  weight : ℕ

/-- What the database stores of a block. -/
structure WeightRow where
  hash : Hash
  block : WeightBlock
  longTermWeight : ℕ

/-- The length of the window, and the version that the hard forks give on a chain. -/
structure WeightRules where
  /-- `m_long_term_block_weights_window`. -/
  window : ℕ
  window_pos : 1 ≤ window
  currentVersion : List WeightRow → UInt8

/-- `m_long_term_block_weights_cache_tip_hash` and
`m_long_term_block_weights_cache_rolling_median`. -/
structure Cache where
  tipHash : Hash
  rollingMedian : RollingMedian ℕ

/-- `get_tail_id`. -/
def topHash (rows : List WeightRow) : Hash := (rows.getLast?.map WeightRow.hash).getD nullHash

/-- `get_block_hash_from_height`. -/
def hashAt (rows : List WeightRow) (height : ℕ) : Hash :=
  (rows[height]?.map WeightRow.hash).getD nullHash

def longTermWeightAt (rows : List WeightRow) (height : ℕ) : ℕ :=
  (rows[height]?.map WeightRow.longTermWeight).getD 0

/-- `get_block_info_64bit_fields`. -/
def blockInfoFields (field : WeightRow → ℕ) (rows : List WeightRow) (start count : ℕ) :
    Except String (List ℕ) := do
  failIf (rows.length ≤ start) ("Height " ++ toString start ++ " not in blockchain")
  pure (((rows.drop start).take count).map field)

def getLastNBlocksWeights (rows : List WeightRow) (count : ℕ) : Except String (List ℕ) :=
  if rows.length = 0 then pure []
  else blockInfoFields (fun r => r.block.weight) rows (rows.length - min rows.length count) count

/-- `get_long_term_block_weight_median`: the answer and the cache it leaves. -/
def getLongTermBlockWeightMedian (rows : List WeightRow) (c : Cache) (start count : ℕ) :
    Except String (ℕ × Cache) := do
  failIf (count = 0) "count == 0"
  let tipHeight := start + count - 1
  let sameSize := decide (tipHeight < rows.length ∧ count = c.rollingMedian.size)
  let tipHash := if sameSize then hashAt rows tipHeight else nullHash
  if sameSize ∧ tipHash = c.tipHash then pure (c.rollingMedian.median getMid, c)
  else if tipHeight > 0 ∧ sameSize ∧ hashAt rows (tipHeight - 1) = c.tipHash then
    let rm := c.rollingMedian.insert (longTermWeightAt rows tipHeight)
    pure (rm.median getMid, ⟨tipHash, rm⟩)
  else
    let weights ← blockInfoFields WeightRow.longTermWeight rows start count
    let rm := weights.foldl RollingMedian.insert c.rollingMedian.clear
    pure (rm.median getMid, ⟨tipHash, rm⟩)

def boundedWeight (version : UInt8) (longTermMedian blockWeight : ℕ) : ℕ :=
  let effective := max fullRewardZoneV5 longTermMedian
  if version ≥ hfVersion2021Scaling then
    let weight := max blockWeight (u64 (effective * 10) / 17)
    min weight (u64 (effective + u64 (effective * 7) / 10))
  else min blockWeight (u64 (effective + u64 (effective * 2) / 5))

/-- The median for the next block, from the effective long-term median and the short-term one. -/
def effectiveMedian (version : UInt8) (longTermEffective shortTermMedian : ℕ) : ℕ :=
  if version ≥ hfVersion2021Scaling then
    min (max longTermEffective shortTermMedian) (u64 (surgeFactor * longTermEffective))
  else min (max fullRewardZoneV5 shortTermMedian) (u64 (surgeFactor * longTermEffective))

/-- The members that `update_next_cumulative_weight_limit` sets. -/
structure Limits where
  /-- `m_long_term_effective_median_block_weight`. -/
  longTermEffectiveMedian : ℕ
  /-- `m_current_block_cumul_weight_median`. -/
  median : ℕ
  /-- `m_current_block_cumul_weight_limit`. -/
  limit : ℕ

/-- An answer of `get_long_term_block_weight_median`, with the chain it was given for. -/
structure Answer where
  rows : List WeightRow
  start : ℕ
  count : ℕ
  value : ℕ

/-- The chain in the database, with the cache over it. -/
structure State where
  rows : List WeightRow
  cache : Cache
  limits : Limits
  /-- The chain before the open batch. -/
  batch : Option (List WeightRow)
  /-- Every answer so far. -/
  answers : List Answer

namespace State

variable (R : WeightRules) (s : State)

def longTermMedian (start count : ℕ) : Except String (ℕ × State) := do
  let (value, cache) ← getLongTermBlockWeightMedian s.rows s.cache start count
  pure (value, { s with
    cache := cache
    answers := s.answers ++ [⟨s.rows, start, count, value⟩] })

def getNextLongTermBlockWeight (blockWeight : ℕ) : Except String (ℕ × State) := do
  let height := s.rows.length
  let nblocks := min R.window height
  let version := R.currentVersion s.rows
  if version < hfVersionLongTermBlockWeight then pure (blockWeight, s)
  else
    let (longTermMedian, s) ← s.longTermMedian (height - nblocks) nblocks
    pure (boundedWeight version longTermMedian blockWeight, s)

/-- The end of `update_next_cumulative_weight_limit`, for a median of the next block. -/
def setLimit (version : UInt8) (median : ℕ) : State :=
  let zone := (Emission.getMinBlockWeight version).toNat
  let median := if median ≤ zone then zone else median
  { s with limits := { s.limits with median := median, limit := u64 (median * 2) } }

def updateNextCumulativeWeightLimit : Except String (Bool × State) := do
  let height := s.rows.length
  let version := R.currentVersion s.rows
  if version < hfVersionLongTermBlockWeight then
    let weights ← getLastNBlocksWeights s.rows rewardBlocksWindow
    pure (true, s.setLimit version (median weights))
  else
    let nblocks := min R.window height
    let (longTermMedian, s) ← s.longTermMedian (height - nblocks) nblocks
    let effective := max fullRewardZoneV5 longTermMedian
    let s := { s with limits := { s.limits with longTermEffectiveMedian := effective } }
    let weights ← getLastNBlocksWeights s.rows rewardBlocksWindow
    pure (true, s.setLimit version (effectiveMedian version effective (median weights)))

/-- `pop_block_from_blockchain`; the genesis block is not popped. -/
def popBlock : State := if s.rows.length > 1 then { s with rows := s.rows.dropLast } else s

/-- How the other checks of a block and its storage end. -/
inductive Outcome
  /-- It is refused before its long-term weight is asked for. -/
  | refused
  /-- Its assets or the database refuse it. -/
  | notStored
  | accepted
deriving DecidableEq

/-- A block goes into the database with its long-term weight; the database refuses a block that does
not follow the top block. -/
def storeBlock (b : WeightBlock) (id : Hash) (stored : Bool) : Bool × State :=
  match s.getNextLongTermBlockWeight R b.weight with
  | .error _ => (false, s)
  | .ok (longTermWeight, s) =>
      if stored = false ∨ b.prevId ≠ topHash s.rows then (false, s)
      else (true, { s with rows := s.rows ++ [⟨id, b, longTermWeight⟩] })

def handleBlockToMainChain (b : WeightBlock) (id : Hash) (outcome : Outcome) : State :=
  if b.prevId ≠ topHash s.rows ∨ outcome = .refused then s
  else
    match s.storeBlock R b id (outcome = .accepted) with
    | (false, s) => s
    | (true, s) =>
        match s.updateNextCumulativeWeightLimit R with
        | .error _ => s
        | .ok (true, s) => s
        | .ok (false, s) => s.popBlock

end State

open State

/-- What happens to the chain and its cache. -/
inductive Event
  /-- A call of `get_next_long_term_block_weight`. -/
  | nextWeight (blockWeight : ℕ)
  /-- A call of `update_next_cumulative_weight_limit`. -/
  | updateLimit
  | addBlock (b : WeightBlock) (id : Hash) (outcome : Outcome)
  /-- A block of the import utility: the limit is not updated after it. -/
  | importBlock (b : WeightBlock) (id : Hash)
  | popBlock
  | startBatch
  /-- The batch is committed, or the chain before it comes back. -/
  | cleanup (batchSuccess : Bool)

variable (R : WeightRules)

/-- The state after an event. A call that throws has changed nothing. -/
def perform (s : State) : Event → State
  | .nextWeight blockWeight =>
      match s.getNextLongTermBlockWeight R blockWeight with
      | .error _ => s
      | .ok (_, s) => s
  | .updateLimit =>
      match s.updateNextCumulativeWeightLimit R with
      | .error _ => s
      | .ok (_, s) => s
  | .addBlock b id outcome => s.handleBlockToMainChain R b id outcome
  | .importBlock b id => (s.storeBlock R b id true).2
  | .popBlock => s.popBlock
  | .startBatch => { s with batch := some s.rows }
  | .cleanup batchSuccess =>
      if batchSuccess then { s with batch := none }
      else { s with rows := s.batch.getD s.rows, batch := none }

def performAll (s : State) (events : List Event) : State := events.foldl (perform R) s

/-- A node that starts on a chain. The rolling median is new; its memory, the cached hash and the
limits may hold anything. -/
def startState (rows : List WeightRow) (memory : RollingMedian ℕ) (tipHash : Hash)
    (limits : Limits) : State :=
  ⟨rows, ⟨tipHash, RollingMedian.ofSize R.window memory⟩, limits, none, []⟩

end Monzero.LongTermWeights
