import Monzero.Difficulty
import Monzero.Median

/-!
Blocks that do not extend the main chain. They are kept in a table by their id, with
their height and cumulative difficulty. A new one is checked against the chain that its
ancestors in the table form on top of a block of the main chain: its timestamp, the
difficulty and the seed of its hash come from the two sources spliced together. When its
chain has more work than the main chain, the two change places.
-/
namespace Monzero.AlternativeChains

open Primitives Difficulty Median

/-- A row of the table of alternative blocks: `alt_block_data_t` and the block. -/
structure AltEntry where
  id : Hash
  height : ℕ
  cumulativeDifficultyLow : ℕ
  cumulativeDifficultyHigh : ℕ
  header : Header
deriving DecidableEq

structure BlockExtendedInfo where
  bl : Header
  height : ℕ
  cumulativeDifficulty : ℕ
deriving DecidableEq

/-- The cumulative difficulty of a row, put together from its halves. -/
def AltEntry.cumulativeDifficulty (e : AltEntry) : ℕ :=
  (e.cumulativeDifficultyHigh * 2 ^ 64 + e.cumulativeDifficultyLow) % 2 ^ 128

def AltEntry.extended (e : AltEntry) : BlockExtendedInfo :=
  ⟨e.header, e.height, e.cumulativeDifficulty⟩

/-- The main chain, genesis first, and the table of alternative blocks. -/
structure ChainDb where
  main : List ChainRow
  alts : List AltEntry

namespace ChainDb

variable (db : ChainDb)

def getAltBlock (id : Hash) : Option AltEntry := db.alts.find? fun e => e.id = id

/-- `get_block_height`; `none` when there is no such block on the main chain. -/
def getBlockHeight (id : Hash) : Option ℕ := db.main.findIdx? fun r => r.hash = id

end ChainDb

/-- `BLOCKCHAIN_TIMESTAMP_CHECK_WINDOW`. -/
def timestampCheckWindow : ℕ := 60

/-- The timestamps of `n` blocks of the main chain from a height down. -/
def timestampsDown (main : List ChainRow) : ℕ → ℕ → List ℕ
  | _, 0 => []
  | top, n + 1 =>
      ((main[top]?.map fun r => r.header.timestamp).getD 0) :: timestampsDown main (top - 1) n

def completeTimestampsVector (db : ChainDb) (startTopHeight : ℕ) (timestamps : List ℕ) :
    List ℕ :=
  if timestamps.length ≥ timestampCheckWindow then timestamps
  else if startTopHeight ≥ db.main.length then timestamps
  else
    let needElements := timestampCheckWindow - timestamps.length
    let stopOffset := if startTopHeight > needElements then startTopHeight - needElements else 0
    timestamps ++ timestampsDown db.main startTopHeight (startTopHeight - stopOffset)

/-- The loop of `build_alt_chain` from a block down; `none` when it does not end within the given
number of rounds. -/
def collectAlts (db : ChainDb) : ℕ → Hash → List BlockExtendedInfo → List ℕ →
    Option (List BlockExtendedInfo × List ℕ)
  | 0, _, _, _ => none
  | rounds + 1, id, chain, timestamps =>
      match db.getAltBlock id with
      | none => some (chain, timestamps)
      | some e =>
          collectAlts db rounds e.header.prevId (e.extended :: chain)
            (timestamps ++ [e.header.timestamp])

/-- The end of `build_alt_chain`: the chain connects to the main chain, and its timestamps are
completed from there. -/
def connect (db : ChainDb) (prevId : Hash) (timestamps : List ℕ) :
    List BlockExtendedInfo → Except String (List BlockExtendedInfo × List ℕ)
  | front :: rest =>
      if db.main.length ≤ front.height then .error "main blockchain wrong height"
      else
        match db.getBlockHeight front.bl.prevId with
        | none => .error "alternate chain does not appear to connect to main chain..."
        | some top =>
            if db.main[front.height - 1]?.map ChainRow.hash ≠ some front.bl.prevId then
              .error "alternative chain has wrong connection to main chain"
            else .ok (front :: rest, completeTimestampsVector db top timestamps)
  | [] =>
      match db.getBlockHeight prevId with
      | none => .error "internal error: broken imperative condition: parent_in_main"
      | some top => .ok ([], completeTimestampsVector db top timestamps)

def buildAltChain (db : ChainDb) (rounds : ℕ) (prevId : Hash) :
    Option (Except String (List BlockExtendedInfo × List ℕ)) :=
  (collectAlts db rounds prevId [] []).map fun found => connect db prevId found.2 found.1

def mainChainStopOffset (height : ℕ) : List BlockExtendedInfo → ℕ
  | front :: _ => front.height
  | [] => height

/-- `main_chain_start_offset`: the first main block that is read when an alternative chain of some
size leaves the main chain at a height. The genesis block is skipped. -/
def mainChainStartOffset (altSize stopOffset : ℕ) : ℕ :=
  let mainChainCount := min (difficultyBlocksCount - min difficultyBlocksCount altSize) stopOffset
  if stopOffset - mainChainCount = 0 then 1 else stopOffset - mainChainCount

def getNextDifficultyForAlternativeChain (R : WorkRules) (db : ChainDb)
    (altChain : List BlockExtendedInfo) (height : ℕ) : ℕ :=
  if R.fixedDifficulty ≠ 0 then (if db.main.length ≠ 0 then R.fixedDifficulty else 1)
  else
    let target := difficultyTarget (R.idealVersion height)
    let altTimestamps (blocks : List BlockExtendedInfo) := blocks.map fun b => b.bl.timestamp
    let altDifficulties (blocks : List BlockExtendedInfo) :=
      blocks.map BlockExtendedInfo.cumulativeDifficulty
    if altChain.length < difficultyBlocksCount then
      let stop := mainChainStopOffset height altChain
      let rows := (db.main.take stop).drop (mainChainStartOffset altChain.length stop)
      if altChain.length + rows.length > difficultyBlocksCount then 0
      else nextDifficulty ((rows.map fun r => r.header.timestamp) ++ altTimestamps altChain)
        (rows.map ChainRow.cumulativeDifficulty ++ altDifficulties altChain) target
    else
      -- The arrays are filled from their end with the most recent blocks.
      let recent := (altChain.reverse.take difficultyBlocksCount).reverse
      nextDifficulty (altTimestamps recent) (altDifficulties recent) target

/-- The seed that `handle_alternative_block` chooses for a block of the given height. -/
def altSeedhash (R : WorkRules) (db : ChainDb) (altChain : List BlockExtendedInfo) (height : ℕ) :
    Hash :=
  let seedheight := rxSeedheight R.epochs height
  if altChain.head?.any fun front => front.height ≤ seedheight then
    ((altChain.find? fun b => b.height = seedheight + 1).map fun b => b.bl.prevId).getD nullHash
  else blockIdByHeight db.main seedheight

/-- `check_block_timestamp` against given timestamps. -/
def checkTimestampAgainst (timestamps : List ℕ) (b : Header) : Bool :=
  ¬ b.timestamp < median timestamps

/-- The median test of `check_block_timestamp` on the main chain. -/
def checkBlockTimestamp (main : List ChainRow) (b : Header) : Bool :=
  if main.length < timestampCheckWindow then true
  else
    checkTimestampAgainst
      ((main.drop (main.length - timestampCheckWindow)).map fun r => r.header.timestamp) b

/-- What the rest of the node decides while one block is handled: the pool, the other tables and
the options are not modelled here. -/
structure BlockRules extends WorkRules where
  /-- Checkpoints, hard fork version, miner transaction and transactions. -/
  otherChecks : ChainDb → Header → Hash → Bool
  /-- The proof of work with a seed is enough for a difficulty. -/
  enoughWork : Header → Hash → ℕ → Bool
  isACheckpoint : ℕ → Hash → Bool
  /-- `handle_block_to_main_chain` takes a block on top of a chain. -/
  connects : List ChainRow → Header → Hash → Bool
  /-- `m_invalid_blocks`. -/
  invalidBlocks : Hash → Bool

/-- Why an alternative block is refused. -/
inductive AltError
  | refused
  | noParent
  | chain (message : String)
  | timestamp
  | difficultyOverhead
  | proofOfWork
  | alreadyExists
deriving DecidableEq

/-- The height of the parent of an alternative block. -/
def prevHeight (db : ChainDb) (prevId : Hash) : ℕ :=
  match db.getAltBlock prevId with
  | some e => e.height
  | none => (db.getBlockHeight prevId).getD 0

/-- The cumulative difficulty of the parent of an alternative block. -/
def prevDifficulty (db : ChainDb) (prevId : Hash) : ℕ :=
  match db.getAltBlock prevId with
  | some e => e.cumulativeDifficulty
  | none => (db.main[prevHeight db prevId]?.map ChainRow.cumulativeDifficulty).getD 0

/-- The row stored for a block; its cumulative difficulty is kept in two halves. -/
def altEntry (id : Hash) (height cumulativeDifficulty : ℕ) (b : Header) : AltEntry where
  id := id
  height := height
  cumulativeDifficultyLow := cumulativeDifficulty % 2 ^ 64
  cumulativeDifficultyHigh := cumulativeDifficulty / 2 ^ 64 % 2 ^ 64
  header := b

/-- The first part of `handle_alternative_block`: the chain of the parent, the new block, and the
table with the block stored. -/
def storeAlternativeBlock (R : BlockRules) (rounds : ℕ) (db : ChainDb) (b : Header) (id : Hash) :
    Option (Except AltError (List BlockExtendedInfo × BlockExtendedInfo × ChainDb)) :=
  if R.otherChecks db b id = false then some (.error .refused)
  else if (db.getAltBlock b.prevId).isNone ∧ (db.getBlockHeight b.prevId).isNone then
    some (.error .noParent)
  else
    (buildAltChain db rounds b.prevId).map fun built =>
      match built with
      | .error message => .error (.chain message)
      | .ok (altChain, timestamps) =>
          let height := prevHeight db b.prevId + 1
          let currentDiff := getNextDifficultyForAlternativeChain R.toWorkRules db altChain height
          if checkTimestampAgainst timestamps b = false then .error .timestamp
          else if currentDiff = 0 then .error .difficultyOverhead
          else if R.enoughWork b (altSeedhash R.toWorkRules db altChain height) currentDiff = false
            then .error .proofOfWork
          else if (db.getAltBlock id).isSome then .error .alreadyExists
          else
            let cumulativeDifficulty := (prevDifficulty db b.prevId + currentDiff) % 2 ^ 128
            .ok (altChain, ⟨b, height, cumulativeDifficulty⟩,
              { db with alts := db.alts ++ [altEntry id height cumulativeDifficulty b] })

/-- The blocks of an alternative chain with their ids. The id of a block is the one that the next
block names, and the id of the last block is given. -/
def chainBlocks (id : Hash) : List BlockExtendedInfo → List (Hash × Header)
  | [] => []
  | [last] => [(id, last.bl)]
  | b :: next :: rest => (next.bl.prevId, b.bl) :: chainBlocks id (next :: rest)

/-- Blocks given to `handle_block_to_main_chain` in order: the chain that is reached, and the
blocks from the first one refused. -/
def connectBlocks (R : BlockRules) :
    List (Hash × Header) → List ChainRow → List ChainRow × List (Hash × Header)
  | [], main => (main, [])
  | (id, b) :: rest, main =>
      if R.connects main b id then connectBlocks R rest (addMain R.toWorkRules main id b)
      else (main, (id, b) :: rest)

def removeAltBlocks (db : ChainDb) (blocks : List (Hash × Header)) : ChainDb :=
  { db with alts := db.alts.filter fun e => e.id ∉ blocks.map Prod.fst }

/-- `switch_to_alternative_blockchain`. The old blocks are handed to `push` when they are kept as
alternatives. -/
def switchToAlternativeBlockchain (R : BlockRules) (push : ChainDb → Hash × Header → Option ChainDb)
    (db : ChainDb) (altChain : List (Hash × Header)) (discardDisconnectedChain : Bool) :
    Option (Bool × ChainDb) :=
  match altChain with
  | [] => some (false, db)
  | front :: _ =>
      match db.getBlockHeight front.2.prevId with
      | none => some (false, db)
      | some top =>
          -- blocks are popped until the parent is on top
          let split := db.main.take (top + 1)
          let disconnected := (db.main.drop (top + 1)).map fun r => (r.hash, r.header)
          match connectBlocks R altChain split with
          | (main, []) =>
              let db := { db with main := main }
              let pushed :=
                if discardDisconnectedChain then some db else disconnected.foldlM push db
              pushed.map fun db => (true, removeAltBlocks db altChain)
          | (main, left) =>
              -- `rollback_blockchain_switching`, whose failure is not looked at
              let main := (connectBlocks R disconnected (main.take split.length)).1
              some (false, removeAltBlocks { db with main := main } left)

/-- `handle_alternative_block`: whether the main chain took the block, and the tables. `none` when
a loop does not end within the given number of rounds. -/
def handleAlternativeBlock (R : BlockRules) : ℕ → ChainDb → Header → Hash → Option (Bool × ChainDb)
  | 0, _, _, _ => none
  | rounds + 1, db, b, id =>
      (storeAlternativeBlock R rounds db b id).bind fun stored =>
        match stored with
        | .error _ => some (false, db)
        | .ok (altChain, bei, db') =>
            let switch := switchToAlternativeBlockchain R
              (fun db block => (handleAlternativeBlock R rounds db block.2 block.1).map Prod.snd)
              db' (chainBlocks id (altChain ++ [bei]))
            if R.isACheckpoint bei.height id then switch true
            else if topDifficulty db.main < bei.cumulativeDifficulty then switch false
            else some (false, db')

def topBlockHash (rows : List ChainRow) : Hash := (rows.getLast?.map ChainRow.hash).getD nullHash

def haveBlock (R : BlockRules) (db : ChainDb) (id : Hash) : Bool :=
  (db.getBlockHeight id).isSome || (db.getAltBlock id).isSome || R.invalidBlocks id

def addNewBlock (R : BlockRules) (rounds : ℕ) (db : ChainDb) (b : Header) (id : Hash) :
    Option (Bool × ChainDb) :=
  if haveBlock R db id then some (false, db)
  else if b.prevId ≠ topBlockHash db.main then handleAlternativeBlock R rounds db b id
  else if R.connects db.main b id then
    some (true, { db with main := addMain R.toWorkRules db.main id b })
  else some (false, db)

end Monzero.AlternativeChains
