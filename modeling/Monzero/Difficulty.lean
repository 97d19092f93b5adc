import Monzero.Primitives
import Mathlib.Data.List.Sort

/-!
The work a block has to show. The difficulty of the next block is computed from the
timestamps and cumulative difficulties of the last blocks of a chain, genesis left out,
and the seed of the hash function is the id of a block some way back.
-/
namespace Monzero.Difficulty

open Primitives

/-- What the rules of this file read of a block header. -/
structure Header where
  majorVersion : ℕ
  timestamp : ℕ
  prevId : Hash
deriving DecidableEq

/-- What the database stores of a block of the main chain. -/
structure ChainRow where
  hash : Hash
  header : Header
  cumulativeDifficulty : ℕ
deriving DecidableEq

def difficultyWindow : ℕ := 720

def difficultyLag : ℕ := 15

def difficultyCut : ℕ := 60

def difficultyBlocksCount : ℕ := difficultyWindow + difficultyLag

def difficultyTargetV1 : ℕ := 120

def difficultyTargetV2 : ℕ := 120

/-- The part of the sorted timestamps that counts: the first index and the one past the last. -/
def cutBounds (length : ℕ) : ℕ × ℕ :=
  let kept := difficultyWindow - 2 * difficultyCut
  if length ≤ kept then (0, length)
  else ((length - kept + 1) / 2, (length - kept + 1) / 2 + kept)

/-- `next_difficulty`. A difficulty has 128 bits; a result that does not fit is given as zero. -/
def nextDifficulty (timestamps cumulativeDifficulties : List ℕ) (targetSeconds : ℕ) : ℕ :=
  let timestamps := timestamps.take difficultyWindow
  let cumulativeDifficulties := cumulativeDifficulties.take difficultyWindow
  if timestamps.length ≤ 1 then 1
  else
    let sorted := timestamps.insertionSort (· ≤ ·)
    let cut := cutBounds timestamps.length
    let timeSpan := sorted.getD (cut.2 - 1) 0 - sorted.getD cut.1 0
    let timeSpan := if timeSpan = 0 then 1 else timeSpan
    let totalWork := (cumulativeDifficulties.getD (cut.2 - 1) 0 + 2 ^ 128 -
      cumulativeDifficulties.getD cut.1 0) % 2 ^ 128
    let res := (totalWork * targetSeconds + timeSpan - 1) / timeSpan
    if res > 2 ^ 128 - 1 then 0 else res

/-- The target of a hard fork version. -/
def difficultyTarget (version : ℕ) : ℕ :=
  if version < 2 then difficultyTargetV1 else difficultyTargetV2

@[simp] theorem difficultyTarget_eq (ver : ℕ) : difficultyTarget ver = 120 := by
  unfold difficultyTarget
  split <;> rfl

/-- The difficulty of the block after some rows. -/
def difficultyOfRows (rows : List ChainRow) (targetSeconds : ℕ) : ℕ :=
  nextDifficulty (rows.map fun r => r.header.timestamp)
    (rows.map ChainRow.cumulativeDifficulty) targetSeconds

/-- The first height whose row counts for the difficulty; the genesis block does not. -/
def windowOffset (height : ℕ) : ℕ :=
  let offset := height - min height difficultyBlocksCount
  if offset = 0 then 1 else offset

/-- The rows that `get_difficulty_for_next_block` reads from the database. -/
def difficultyRows (rows : List ChainRow) : List ChainRow := rows.drop (windowOffset rows.length)

/-- The seed epochs, `SEEDHASH_EPOCH_LAG` and `SEEDHASH_EPOCH_BLOCKS`. The environment of the
process may replace them. -/
structure SeedEpochs where
  lag : UInt32
  blocks : UInt32
  lag_ne : lag ≠ 0

def isPowerOf2 (n : UInt32) : Bool := n ≠ 0 ∧ n &&& (n - 1) = 0

def getSeedhashEpochLag (env : Option UInt32) : UInt32 :=
  match env with
  | some lag => if lag > 64 ∨ isPowerOf2 lag = false then 64 else lag
  | none => 64

def getSeedhashEpochBlocks (env : Option UInt32) : UInt32 :=
  match env with
  | some blocks =>
      if blocks < 2 ∨ blocks > 2048 ∨ isPowerOf2 blocks = false then 2048 else blocks
  | none => 2048

theorem getSeedhashEpochLag_ne (env : Option UInt32) : getSeedhashEpochLag env ≠ 0 := by
  unfold getSeedhashEpochLag
  split
  · split
    · decide
    · rename_i lag h
      intro hzero
      subst hzero
      exact h (Or.inr rfl)
  · decide

/-- The epochs of a process. -/
def seedEpochs (envLag envBlocks : Option UInt32) : SeedEpochs where
  lag := getSeedhashEpochLag envLag
  blocks := getSeedhashEpochBlocks envBlocks
  lag_ne := getSeedhashEpochLag_ne envLag

def rxSeedheight (epochs : SeedEpochs) (height : ℕ) : ℕ :=
  if height ≤ epochs.blocks.toNat + epochs.lag.toNat then 0
  else (UInt64.ofNat (height - epochs.lag.toNat - 1) &&& ~~~(epochs.blocks.toUInt64 - 1)).toNat

/-- The seed block is the genesis block or lies at least two blocks below the height. -/
theorem rxSeedheight_le (epochs : SeedEpochs) (height : ℕ) :
    rxSeedheight epochs height = 0 ∨ rxSeedheight epochs height + 2 ≤ height := by
  unfold rxSeedheight
  split
  · exact Or.inl rfl
  · rename_i hlong
    have hlag : epochs.lag.toNat ≠ 0 := fun hz => epochs.lag_ne (UInt32.toNat_inj.mp hz)
    have hand : (UInt64.ofNat (height - epochs.lag.toNat - 1) &&&
        ~~~(epochs.blocks.toUInt64 - 1)).toNat ≤ height - epochs.lag.toNat - 1 := by
      rw [UInt64.toNat_and]
      refine Nat.and_le_left.trans ?_
      rw [UInt64.toNat_ofNat']
      exact Nat.mod_le _ _
    omega

def blockIdByHeight (rows : List ChainRow) (height : ℕ) : Hash :=
  (rows[height]?.map ChainRow.hash).getD nullHash

/-- What the difficulty and the seed depend on besides the chain. -/
structure WorkRules where
  /-- Zero when the difficulty is not fixed. -/
  fixedDifficulty : ℕ
  epochs : SeedEpochs
  /-- `get_current_hard_fork_version` of a chain. -/
  currentVersion : List ChainRow → ℕ
  /-- `get_ideal_hard_fork_version` of a height. -/
  idealVersion : ℕ → ℕ

/-- `get_difficulty_for_next_block` without its caches. -/
def getDifficultyForNextBlock (R : WorkRules) (rows : List ChainRow) : ℕ :=
  if R.fixedDifficulty ≠ 0 then (if rows.length ≠ 0 then R.fixedDifficulty else 1)
  else difficultyOfRows (difficultyRows rows) (difficultyTarget (R.currentVersion rows))

/-- The seed of the block after a chain, by the rule of the main chain. -/
def seedhash (R : WorkRules) (rows : List ChainRow) : Hash :=
  blockIdByHeight rows (rxSeedheight R.epochs rows.length)

def topDifficulty (rows : List ChainRow) : ℕ :=
  (rows.getLast?.map ChainRow.cumulativeDifficulty).getD 0

/-- A block stored by `handle_block_to_main_chain`. -/
def addMain (R : WorkRules) (rows : List ChainRow) (hash : Hash) (header : Header) :
    List ChainRow :=
  rows ++ [⟨hash, header, (getDifficultyForNextBlock R rows + topDifficulty rows) % 2 ^ 128⟩]

instance : Inhabited WorkRules where
  default :=
    { fixedDifficulty := 0
      epochs := seedEpochs none none
      currentVersion := fun _ => 1
      idealVersion := fun _ => 1 }

end Monzero.Difficulty
