import Monzero.Median
import Mathlib.Algebra.Ring.Nat

/-!
The emission of coins. The reward of a block is a share of the coins that are not
generated yet, lowered when the block is larger than the median, and its miner
transaction may pay out the reward and the fees. From version 2 to 12 it may pay out
less. What was generated is stored with the block and never exceeds the supply. All
amounts have 64 bits.
-/
namespace Monzero.Emission

open Median

def moneySupply : UInt64 := 10000000000000000000

def finalSubsidyPerMinute : UInt64 := 163000000000

def emissionSpeedFactorPerMinute : UInt64 := 20

/-- The minutes between blocks; both difficulty targets are 120 seconds. -/
def targetMinutes : UInt64 := 120 / 60

def getMinBlockWeight (version : UInt8) : UInt64 :=
  if version < 2 then 20000 else if version < 5 then 60000 else 300000

/-- The reward of a block that is not too large. -/
def baseReward (alreadyGeneratedCoins : UInt64) : UInt64 :=
  let emissionSpeedFactor := emissionSpeedFactorPerMinute - (targetMinutes - 1)
  let reward := (moneySupply - alreadyGeneratedCoins) >>> emissionSpeedFactor
  if reward < finalSubsidyPerMinute * targetMinutes then finalSubsidyPerMinute * targetMinutes
  else reward

/-- `get_block_reward`; `none` when the block is too large. The product with the penalty has 128
bits, and is divided by the median twice. -/
def getBlockReward (medianWeight currentBlockWeight alreadyGeneratedCoins : UInt64)
    (version : UInt8) : Option UInt64 :=
  let base := baseReward alreadyGeneratedCoins
  let zone := getMinBlockWeight version
  let median := if medianWeight < zone then zone else medianWeight
  if currentBlockWeight ≤ median then some base
  else if currentBlockWeight > 2 * median then none
  else
    let multiplicand := (2 * median - currentBlockWeight) * currentBlockWeight
    some (UInt64.ofNat (base.toNat * multiplicand.toNat / median.toNat / median.toNat))

/-- `txout_target_v`. -/
inductive OutputTarget
  | toScript
  | toScripthash
  | toKey
  | toTaggedKey
deriving DecidableEq

structure MinerOutput where
  amount : UInt64
  target : OutputTarget
deriving DecidableEq

/-- An input of a miner transaction. -/
inductive MinerInput
  | gen (height : ℕ)
  | other
deriving DecidableEq

/-- What the rules of this file read of a miner transaction. -/
structure MinerTx where
  version : ℕ
  unlockTime : ℕ
  vin : List MinerInput
  vout : List MinerOutput
  rctTypeNull : Bool
deriving DecidableEq

/-- `check_outs_overflow`, from the amounts summed up so far. -/
def checkOutsOverflow : UInt64 → List UInt64 → Bool
  | _, [] => true
  | money, amount :: rest =>
      if money > amount + money then false else checkOutsOverflow (money + amount) rest

def checkOutputTypes (tx : MinerTx) (hfVersion : UInt8) : Bool :=
  tx.vout.all fun o =>
    if hfVersion > 15 then o.target = .toTaggedKey
    else if hfVersion < 15 then o.target = .toKey
    else (o.target = .toKey ∨ o.target = .toTaggedKey) ∧
      tx.vout.head?.all fun first => o.target = first.target

def prevalidateMinerTransaction (tx : MinerTx) (height : ℕ) (hfVersion : UInt8) : Bool :=
  tx.vin = [.gen height] ∧
    (tx.version > 1 ∨ hfVersion < 12) ∧
    (hfVersion ≥ 12 ∧ tx.version ≥ 2 → tx.rctTypeNull = true) ∧
    tx.unlockTime = height + 60 ∧
    checkOutsOverflow 0 (tx.vout.map MinerOutput.amount) ∧
    checkOutputTypes tx hfVersion

/-- `valid_decomposed_outputs`: one digit and zeros. -/
def validDecomposedOutputs : List ℕ :=
  ((List.range 19).flatMap fun k => (List.range 9).map fun d => (d + 1) * 10 ^ k) ++ [10 ^ 19]

def isValidDecomposedAmount (amount : UInt64) : Bool := amount.toNat ∈ validDecomposedOutputs

/-- The weights that the reward depends on. -/
structure Weights where
  /-- `m_current_block_cumul_weight_median`. -/
  currentMedian : UInt64
  /-- The weights of the last hundred blocks. -/
  lastBlocks : List UInt64

/-- `median_weight` of `validate_miner_transaction`. -/
def medianWeight (weights : Weights) (version : UInt8) : UInt64 :=
  if version ≥ 12 then weights.currentMedian
  else UInt64.ofNat (median (weights.lastBlocks.map UInt64.toNat))

def validateMinerTransaction (tx : MinerTx) (cumulativeBlockWeight fee : UInt64)
    (alreadyGeneratedCoins : UInt64) (version : UInt8) (weights : Weights) : Option UInt64 :=
  let amounts := tx.vout.map MinerOutput.amount
  let moneyInUse := amounts.foldl (· + ·) 0
  if version = 3 ∧ amounts.any (fun amount => isValidDecomposedAmount amount = false) then none
  else
    match getBlockReward (medianWeight weights version) cumulativeBlockWeight
        alreadyGeneratedCoins version with
    | none => none
    | some reward =>
        if reward + fee < moneyInUse then none
        else if version < 2 ∨ version ≥ 13 then
          if reward + fee ≠ moneyInUse then none else some reward
        else if moneyInUse - fee > reward then none
        else some (moneyInUse - fee)

/-- A block as far as the emission is concerned, with the version and the weights at its height. -/
structure CoinBlock where
  minerTx : MinerTx
  /-- The fees of its transactions. -/
  fees : List UInt64
  weight : UInt64
  version : UInt8
  weights : Weights

/-- A block of the chain with the coins generated up to it. -/
structure CoinRow where
  block : CoinBlock
  alreadyGeneratedCoins : UInt64

/-- The coins generated by a chain. -/
def generatedCoins (rows : List CoinRow) : UInt64 :=
  (rows.getLast?.map CoinRow.alreadyGeneratedCoins).getD 0

/-- The coins after a block that generates some; they stop at the supply. -/
def addCoins (alreadyGeneratedCoins reward : UInt64) : UInt64 :=
  if reward < moneySupply - alreadyGeneratedCoins then alreadyGeneratedCoins + reward
  else moneySupply

def handleBlockToMainChain (otherChecks : List CoinRow → CoinBlock → Bool) (rows : List CoinRow)
    (b : CoinBlock) : Option (List CoinRow) :=
  if otherChecks rows b = false then none
  else if prevalidateMinerTransaction b.minerTx rows.length b.version = false then none
  else
    match validateMinerTransaction b.minerTx b.weight (b.fees.foldl (· + ·) 0)
        (generatedCoins rows) b.version b.weights with
    | none => none
    | some reward => some (rows ++ [⟨b, addCoins (generatedCoins rows) reward⟩])

end Monzero.Emission
