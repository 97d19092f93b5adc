import Monzero.Difficulty

/-!
The caches of `get_difficulty_for_next_block`. The last difficulty is kept with the hash
of the top block it was computed for. The rows it was computed from are kept with the
height of the chain, and are shifted by one when the chain has grown by one block. A
flag forbids the shift after anything that may have replaced blocks; it is only cleared,
together with the height, when a batch of blocks is committed.
-/
namespace Monzero.DifficultyCache

open Primitives Difficulty

/-- `m_difficulty_for_next_block_top_hash` and the members after it. -/
structure Caches where
  topHash : Hash
  difficulty : ℕ
  timestamps : List ℕ
  difficulties : List ℕ
  /-- `m_timestamps_and_difficulties_height`. -/
  height : ℕ
  /-- `m_reset_timestamps_and_difficulties_height`. -/
  reset : Bool

/-- The caches of a new object. -/
def Caches.empty : Caches := ⟨nullHash, 1, [], [], 0, true⟩

/-- The chain in the database with the caches over it. -/
structure State where
  rows : List ChainRow
  caches : Caches
  /-- The chain before the open batch. -/
  batch : Option (List ChainRow)
  /-- Every answer of `get_difficulty_for_next_block` so far, with the chain it was given for. -/
  answers : List (List ChainRow × ℕ)

/-- `get_tail_id`. -/
def topHash (rows : List ChainRow) : Hash := (rows.getLast?.map ChainRow.hash).getD nullHash

variable (R : WorkRules)

/-- The part of `get_difficulty_for_next_block` after the test of the top hash: the cached rows are
shifted by the top block, or all rows are read. -/
def refreshRows (rows : List ChainRow) (c : Caches) : Caches :=
  let height := rows.length
  let cachedHeight := if c.reset then 0 else c.height
  if cachedHeight ≠ 0 ∧ height = cachedHeight + 1 ∧ c.timestamps.length ≥ difficultyBlocksCount then
    let top := rows[height - 1]?
    let timestamps := c.timestamps ++ [(top.map fun r => r.header.timestamp).getD 0]
    let difficulties := c.difficulties ++ [(top.map ChainRow.cumulativeDifficulty).getD 0]
    { c with
      timestamps := timestamps.drop (timestamps.length - difficultyBlocksCount)
      difficulties := difficulties.drop (difficulties.length - difficultyBlocksCount)
      height := height }
  else
    { c with
      timestamps := (difficultyRows rows).map fun r => r.header.timestamp
      difficulties := (difficultyRows rows).map ChainRow.cumulativeDifficulty
      height := height }

/-- `get_difficulty_for_next_block`: the answer and the caches it leaves. -/
def cachedDifficulty (rows : List ChainRow) (c : Caches) : ℕ × Caches :=
  if R.fixedDifficulty ≠ 0 then ((if rows.length ≠ 0 then R.fixedDifficulty else 1), c)
  else if topHash rows = c.topHash then (c.difficulty, c)
  else
    let c := refreshRows rows c
    let difficulty := nextDifficulty c.timestamps c.difficulties
      (difficultyTarget (R.currentVersion rows))
    (difficulty, { c with topHash := topHash rows, difficulty := difficulty })

namespace State

variable (s : State)

/-- A call of `get_difficulty_for_next_block`. -/
def query : ℕ × State :=
  let answer := cachedDifficulty R s.rows s.caches
  (answer.1, { s with caches := answer.2, answers := s.answers ++ [(s.rows, answer.1)] })

/-- The two assignments at the head of every function that may replace blocks. -/
def resetCaches : State := { s with caches := { s.caches with height := 0, reset := true } }

/-- `pop_block_from_blockchain`; the genesis block is not popped. -/
def popBlock : State :=
  let s := s.resetCaches
  if s.rows.length > 1 then { s with rows := s.rows.dropLast } else s

/-- How the checks of a block end, apart from its parent and its difficulty. -/
inductive Outcome
  /-- It is refused before its difficulty is asked for. -/
  | refusedEarly
  /-- It is refused afterwards, or the database does not store it. -/
  | refusedLate
  /-- It is stored and popped again, because the weight limit could not be updated. -/
  | limitFails
  | accepted
deriving DecidableEq

def handleBlockToMainChain (b : Header) (id : Hash) (outcome : Outcome) : Bool × State :=
  if b.prevId ≠ topHash s.rows ∨ outcome = .refusedEarly then (false, s)
  else
    let difficulty := (s.query R).1
    let asked := (s.query R).2
    if difficulty = 0 ∨ outcome = .refusedLate then (false, asked)
    else
      let row : ChainRow := ⟨id, b, (difficulty + topDifficulty asked.rows) % 2 ^ 128⟩
      let stored := { asked with rows := asked.rows ++ [row] }
      if outcome = .limitFails then (false, stored.popBlock) else (true, (stored.query R).2)

/-- Blocks are popped until a block is at the top or only the genesis block is left. -/
def popUntil (fork : Hash) : ℕ → State → State
  | 0, s => s
  | n + 1, s => if topHash s.rows = fork then s else popUntil fork n s.popBlock

/-- Blocks are popped down to a height. -/
def popTo (height : ℕ) : ℕ → State → State
  | 0, s => s
  | n + 1, s => if s.rows.length = height then s else popTo height n s.popBlock

/-- Blocks are added until one is refused. -/
def addBlocks : List (Header × Hash × Outcome) → State → Bool × State
  | [], s => (true, s)
  | (b, id, outcome) :: rest, s =>
      match s.handleBlockToMainChain R b id outcome with
      | (false, s) => (false, s)
      | (true, s) => addBlocks rest s

/-- `rollback_blockchain_switching`. -/
def rollback (original : List (Header × Hash × Outcome)) (height : ℕ) : State :=
  if height > s.rows.length then s
  else (addBlocks R original (popTo height s.rows.length s.resetCaches)).2

/-- `switch_to_alternative_blockchain`: to the blocks on top of a block of the chain. The
`outcomes` are those of the old blocks when they are added again after a failure. -/
def switchToAlternative (fork : Hash) (blocks : List (Header × Hash × Outcome))
    (outcomes : List Outcome) : State :=
  let s := s.resetCaches
  if s.rows.any (fun r => r.hash = fork) = false then s
  else
    let popped := popUntil fork s.rows.length s
    let disconnected := s.rows.drop popped.rows.length
    let original := (disconnected.zip outcomes).map fun (r, outcome) =>
      (r.header, r.hash, outcome)
    match addBlocks R blocks popped with
    | (false, s) => s.rollback R original popped.rows.length
    -- The old blocks become alternative blocks.
    | (true, s) => if disconnected = [] then s else s.resetCaches

end State

open State

/-- What happens to the chain and its caches. -/
inductive Event
  | query
  | addBlock (b : Header) (id : Hash) (outcome : Outcome)
  | popBlock
  /-- `handle_alternative_block`, up to a possible switch. -/
  | alternativeBlock
  | switchToAlternative (fork : Hash) (blocks : List (Header × Hash × Outcome))
      (outcomes : List Outcome)
  /-- `prepare_handle_incoming_blocks`. -/
  | startBatch
  /-- `cleanup_handle_incoming_blocks`. -/
  | cleanup (batchSuccess : Bool)

def perform (s : State) : Event → State
  | .query => (s.query R).2
  | .addBlock b id outcome => (s.handleBlockToMainChain R b id outcome).2
  | .popBlock => s.popBlock
  | .alternativeBlock => s.resetCaches
  | .switchToAlternative fork blocks outcomes => s.switchToAlternative R fork blocks outcomes
  | .startBatch => { s with batch := some s.rows }
  | .cleanup batchSuccess =>
      if batchSuccess then
        let s := { s with batch := none }
        if s.caches.reset then { s with caches := { s.caches with height := 0, reset := false } }
        else s
      else { s with rows := s.batch.getD s.rows, batch := none }

def performAll (s : State) (events : List Event) : State := events.foldl (perform R) s

/-- A new node: an empty chain with empty caches. -/
def newState : State := ⟨[], Caches.empty, none, []⟩

end Monzero.DifficultyCache
