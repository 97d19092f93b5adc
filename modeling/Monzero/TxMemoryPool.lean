import Monzero.AssetDb
import Monzero.PoolLog
import Monzero.TxExtra
import Mathlib.Data.Rat.Defs
import Mathlib.Algebra.Order.Ring.Rat

/-!
The transaction pool: the stored transactions with their metadata, the container that
orders them by fee, the index of the key images they spend, the logs of the changes, and the
functions that take transactions in and out, prune them and choose them for a block. What the
node knows about native transactions enters through an environment of functions of the chain.
-/
namespace Monzero.TxMemoryPool

open Bytes Checked Primitives AssetTypes IssuanceCodec AssetConfidential AssetWire AssetDb TxExtra
open List

/-- `relay_method`, in its order. -/
inductive RelayMethod
  | none
  | localOnly
  | forward
  | stem
  | fluff
  | block
deriving DecidableEq

namespace RelayMethod

def toNat : RelayMethod → ℕ
  | none => 0
  | localOnly => 1
  | forward => 2
  | stem => 3
  | fluff => 4
  | block => 5

/-- `matches_category(method, relay_category::legacy)`. -/
def isLegacy : RelayMethod → Bool
  | none | fluff | block => true
  | localOnly | forward | stem => false

/-- `matches_category(method, relay_category::broadcasted)`. -/
def isBroadcasted : RelayMethod → Bool
  | fluff | block => true
  | none | localOnly | forward | stem => false

def upgrade (stored method : RelayMethod) : RelayMethod :=
  if stored.toNat < method.toNat then method else stored

end RelayMethod

/-- `txpool_tx_meta_t`; the relay flags are the relay method they encode. -/
structure TxMeta where
  maxUsedBlockId : Hash
  lastFailedId : Hash
  weight : ℕ
  fee : ℕ
  maxUsedBlockHeight : ℕ
  lastFailedHeight : ℕ
  receiveTime : ℕ
  lastRelayedTime : ℕ
  relayMethod : RelayMethod
  relayed : Bool
  doubleSpendSeen : Bool
deriving DecidableEq

/-- A stored transaction: `txpool_meta` and `txpool_blob` under one id. -/
structure PoolTx where
  id : Hash
  info : TxMeta
  tx : Transaction
deriving DecidableEq

/-- The transaction is kept from clients that are not shown everything. -/
def PoolTx.isSensitive (e : PoolTx) : Bool := !e.info.relayMethod.isBroadcasted

/-- The pool tables of the database. No id is stored twice. -/
structure PoolTable where
  rows : List PoolTx
  ids_nodup : (rows.map PoolTx.id).Nodup

namespace PoolTable

def empty : PoolTable := ⟨[], nodup_nil⟩

/-- `get_txpool_tx_meta` and `get_txpool_tx_blob`. -/
def get (t : PoolTable) (id : Hash) : Option PoolTx := t.rows.find? fun e => e.id = id

/-- `remove_txpool_tx`. -/
def remove (t : PoolTable) (id : Hash) : PoolTable where
  rows := t.rows.filter fun e => e.id ≠ id
  ids_nodup := t.ids_nodup.sublist (filter_sublist.map _)

/-- `add_txpool_tx`, which replaces what is stored under the id. -/
def put (t : PoolTable) (e : PoolTx) : PoolTable where
  rows := (t.remove e.id).rows ++ [e]
  ids_nodup := by
    rw [map_append, nodup_append]
    refine ⟨(t.remove e.id).ids_nodup, by simp, ?_⟩
    intro a ha b hb hab
    obtain ⟨r, hr, rfl⟩ := mem_map.mp ha
    obtain rfl : b = e.id := by simpa using hb
    have hne := (mem_filter.mp hr).2
    simp [hab] at hne

/-- `update_txpool_tx`. -/
def update (t : PoolTable) (id : Hash) (change : TxMeta → TxMeta) : PoolTable where
  rows := t.rows.map fun e => if e.id = id then { e with info := change e.info } else e
  ids_nodup := by
    have hids : (t.rows.map fun e => if e.id = id then { e with info := change e.info } else e).map
        PoolTx.id = t.rows.map PoolTx.id := by
      rw [map_map]
      refine map_congr_left fun e _ => ?_
      by_cases h : e.id = id
      · simp [h]
      · simp [h]
    rw [hids]
    exact t.ids_nodup

end PoolTable

structure FeeEntry where
  feePerByte : ℚ
  receiveTime : ℕ
  id : Hash
deriving DecidableEq

/-- `txCompare`: greatest fee first, then earliest, then by `memcmp` of the ids. -/
def FeeEntry.before (a b : FeeEntry) : Bool :=
  if a.feePerByte > b.feePerByte then true
  else if a.feePerByte < b.feePerByte then false
  else if a.receiveTime < b.receiveTime then true
  else if a.receiveTime > b.receiveTime then false
  else memcmpLt a.id.bytes b.id.bytes

/-- `emplace` into the ordered set. -/
def emplace (e : FeeEntry) : List FeeEntry → List FeeEntry
  | [] => [e]
  | x :: rest =>
      if x.before e then x :: emplace e rest
      else if e.before x then e :: x :: rest
      else x :: rest

structure TxPool where
  table : PoolTable
  /-- `m_txs_by_fee_and_receive_time`. -/
  byFee : List FeeEntry
  /-- The ids of `m_added_txs_by_id`. -/
  addedById : List Hash
  /-- `m_spent_key_images`. -/
  spentKeyImages : List (Key × List Hash)
  /-- `m_timed_out_transactions`. -/
  timedOut : List Hash
  weight : ℕ
  maxWeight : ℕ
  mineStemTxes : Bool
  log : PoolLog

structure Block where
  minerTx : Transaction
  txHashes : List Hash
  other : List UInt8
deriving DecidableEq

/-- A block of the chain with its transactions, in the order of their hashes. -/
structure StoredBlock where
  block : Block
  txs : List Transaction
deriving DecidableEq

/-- The chain database with its asset tables. -/
abbrev Db := BlockchainDb StoredBlock Key

/-- What the node computes about native transactions and blocks. The functions of the chain
take its blocks, newest first. -/
structure Env where
  C : Crypto Key
  H : TransactionHashes
  network : NetworkType
  /-- `ver_non_input_consensus`. -/
  nonInputConsensus : Transaction → ℕ → Bool
  /-- `get_tx_fee`; `none` when it throws. -/
  fee : Transaction → Option ℕ
  /-- `get_transaction_weight`. -/
  txWeight : Transaction → ℕ
  /-- `check_fee`. -/
  checkFee : List StoredBlock → ℕ → ℕ → Bool
  /-- `Blockchain::check_tx_inputs`: on success the highest block it refers to. -/
  checkTxInputs : List StoredBlock → Transaction → Bool → Option (ℕ × Hash)
  /-- `fee / (double) weight`, the double it is rounded to. -/
  feePerByte : ℕ → ℕ → ℚ
  /-- The hash of the top block. -/
  topHash : List StoredBlock → Hash
  /-- `get_block_reward`. -/
  blockReward : ℕ → ℕ → ℕ → ℕ → Option ℕ
  /-- `template_accept_threshold`. -/
  acceptThreshold : ℕ → ℕ
  /-- `get_current_hard_fork_version` on a chain. -/
  hardFork : List StoredBlock → ℕ
  /-- `get_ideal_hard_fork_version` at a height. -/
  idealHardFork : ℕ → ℕ
  /-- The checks of `handle_block_to_main_chain` before it looks at the transactions. -/
  checkHeader : List StoredBlock → Block → Bool
  /-- The block is pre-validated by its hash, and the inputs of its transactions with it. -/
  fastCheck : List StoredBlock → Block → Bool
  /-- `validate_miner_transaction`, given the weight and the fees of the block. -/
  checkMinerTx : List StoredBlock → Block → ℕ → ℕ → Bool
  /-- `add_block` of the database does not throw. -/
  canStore : List StoredBlock → StoredBlock → Bool

/-- `asset_network`: the regression network uses the assets of the main network. -/
def Env.assetNetwork (E : Env) : NetworkType :=
  if E.network = .fakechain then .mainnet else E.network

/-- Why `add_tx` refuses a transaction. -/
inductive AddTxError
  | timedOut
  | nonInputConsensus
  | assetEnvelope (message : String)
  | assetTransition (message : String)
  | assetIssuance (message : String)
  | assetConflict
  | feeTooLow
  | extraTooBig
  | nonzeroUnlockTime
  | doubleSpend
  | invalidInput
  | keyImages
deriving DecidableEq

/-- The asset payload of a transaction under the rules of a version. -/
def Env.payload (E : Env) (version : ℕ) (tx : Transaction) :
    Except String (Option (AssetTransactionPayload Key)) :=
  parseNativeAssetTransaction E.C E.H tx.toTransactionPrefix version E.assetNetwork

def issuanceId (C : Crypto Key) (p : AssetTransactionPayload Key) : Except String (Option Hash) :=
  match p.issuance with
  | none => .ok none
  | some i => do
      let id ← deriveAssetId C i.descriptor
      return some id

/-- A pooled issuance is for the candidate's asset, or its asset id cannot be derived. -/
def sameIssuance (C : Crypto Key) : Option Hash → Option IssuancePayload → Bool
  | some candidate, some pooled =>
      match deriveAssetId C pooled.descriptor with
      | .error _ => true
      | .ok id => id = candidate
  | _, _ => false

/-- A pooled transaction conflicts with a candidate: it does not parse, it issues the same
asset, or it spends one of the candidate's asset key images. -/
def conflicts (E : Env) (version : ℕ) (p : AssetTransactionPayload Key)
    (candidate : Option Hash) (pooled : Transaction) : Bool :=
  match E.payload version pooled with
  | .error _ => true
  | .ok none => false
  | .ok (some q) =>
      sameIssuance E.C candidate q.issuance ||
        q.ownershipProofs.any fun proof =>
          proof.keyImage ∈ p.ownershipProofs.map AssetOwnershipProof.keyImage

def assetStage (E : Env) (db : Db) (table : PoolTable) (tx : Transaction) (id : Hash)
    (version : ℕ) : Except AddTxError (Option (AssetTransactionPayload Key)) :=
  if version < hfVersionMonzeroAssets then .ok none
  else do
    match ← (E.payload version tx).mapError .assetEnvelope with
    | none => return none
    | some p =>
        (verifyAssetTransactionAgainstDb E.C db p E.assetNetwork p.carrierPrefixHash).mapError
          .assetTransition
        let candidate ← (issuanceId E.C p).mapError .assetIssuance
        failIf (table.rows.any fun e => e.id ≠ id ∧ conflicts E version p candidate e.tx)
          .assetConflict
        return some p

/-- `have_tx_keyimg_as_spent`. -/
def keyImageSpent (pool : TxPool) (keyImage : Key) (id : Hash) : Bool :=
  match pool.spentKeyImages.lookup keyImage with
  | none | some [] => false
  | some [only] =>
      if only = id then
        match pool.table.get id with
        | some e => e.info.relayMethod.isLegacy
        | none => false
      else true
  | some _ => true

/-- `have_tx_keyimges_as_spent`; an input that is not a key image counts as spent. -/
def keyImagesSpent (pool : TxPool) (tx : Transaction) (id : Hash) : Bool :=
  tx.vin.any fun
    | .gen _ => true
    | .toKey keyImage => keyImageSpent pool keyImage id

def admission (E : Env) (db : Db) (pool : TxPool) (tx : Transaction) (id : Hash) (weight : ℕ)
    (relay : RelayMethod) (version nicVersion : ℕ) : Except AddTxError ℕ := do
  failIf (relay ≠ .block ∧ id ∈ pool.timedOut) .timedOut
  failIf (version ≠ nicVersion ∧ E.nonInputConsensus tx version = false) .nonInputConsensus
  let payload ← assetStage E db pool.table tx id version
  match E.fee tx with
  | none => .error .feeTooLow
  | some fee => do
      failIf (relay ≠ .block ∧ E.checkFee db.blocks weight fee = false) .feeTooLow
      failIf (relay ≠ .block ∧ tx.extra.length > maxTxExtraSize ∧ payload = none) .extraTooBig
      failIf (relay ≠ .block ∧ tx.unlockTime ≠ 0) .nonzeroUnlockTime
      failIf (relay ≠ .block ∧ keyImagesSpent pool tx id = true) .doubleSpend
      return fee

/-- The set stored for a key image. -/
def idsOf (spent : List (Key × List Hash)) (keyImage : Key) : List Hash :=
  (spent.lookup keyImage).getD []

/-- The map with another set under a key image. -/
def setIds (spent : List (Key × List Hash)) (keyImage : Key) (ids : List Hash) :
    List (Key × List Hash) :=
  (keyImage, ids) :: spent.filter fun e => e.1 ≠ keyImage

/-- `insert_key_images`, from a table in which the transaction may already be stored. It stops
at the first input it refuses, with the sets as they are then. -/
def insertKeyImages (table : PoolTable) (id : Hash) (relay : RelayMethod) :
    List TxIn → List (Key × List Hash) → Bool × List (Key × List Hash)
  | [], spent => (true, spent)
  | .gen _ :: _, spent => (false, spent)
  | .toKey keyImage :: rest, spent =>
      let ids := idsOf spent keyImage
      if relay ≠ .block ∧ ¬(ids = [] ∨ ids = [id]) then (false, setIds spent keyImage ids)
      else if id ∈ ids then
        match table.get id with
        | some e =>
            if e.info.relayMethod.isLegacy then (false, setIds spent keyImage ids)
            else insertKeyImages table id relay rest (setIds spent keyImage ids)
        | none => insertKeyImages table id relay rest (setIds spent keyImage ids)
      else insertKeyImages table id relay rest (setIds spent keyImage (ids ++ [id]))

/-- `remove_transaction_keyimages`, which gives up at the first input it does not find. -/
def removeKeyImages (id : Hash) : List TxIn → List (Key × List Hash) → List (Key × List Hash)
  | [], spent => spent
  | .gen _ :: _, spent => spent
  | .toKey keyImage :: rest, spent =>
      if id ∈ idsOf spent keyImage then
        let ids := (idsOf spent keyImage).filter fun i => i ≠ id
        removeKeyImages id rest
          (if ids = [] then spent.filter fun e => e.1 ≠ keyImage else setIds spent keyImage ids)
      else spent

/-- `find_tx_in_sorted_container` and `erase`: the first entry of an id goes. -/
def eraseEntry (id : Hash) (byFee : List FeeEntry) : List FeeEntry :=
  byFee.eraseP fun e => e.id = id

def addToTransientLists (pool : TxPool) (entry : FeeEntry) : TxPool :=
  if entry.id ∈ pool.addedById then
    { pool with
      byFee := emplace entry (eraseEntry entry.id pool.byFee)
      log := pool.log.logAdded entry.id }
  else
    { pool with
      byFee := emplace entry pool.byFee
      addedById := pool.addedById ++ [entry.id]
      log := pool.log.logAdded entry.id }

/-- The removal of a stored transaction, as `take_tx` and `prune` do it: from the tables, the
weight, the key images and the transient lists, whose order is left as given. -/
def removeEntry (pool : TxPool) (e : PoolTx) (byFee : List FeeEntry) : TxPool :=
  { pool with
    table := pool.table.remove e.id
    weight := pool.weight - e.info.weight
    spentKeyImages := removeKeyImages e.id e.tx.vin pool.spentKeyImages
    byFee := byFee
    addedById := pool.addedById.filter fun i => i ≠ e.id
    log := pool.log.trackRemovedTx e.id e.isSensitive }

/-- The loop of `prune` over the entries from the lowest fee upwards, the last being the
first of the container, which is never visited. -/
def pruneLoop (bytes : ℕ) : List FeeEntry → TxPool → TxPool
  | [], pool => pool
  | [_], pool => pool
  | entry :: rest, pool =>
      if pool.weight ≤ bytes then pool
      else
        match pool.table.get entry.id with
        | none => pruneLoop bytes rest pool
        | some e =>
            if e.info.relayMethod = .block then pruneLoop bytes rest pool
            else pruneLoop bytes rest (removeEntry pool e (pool.byFee.erase entry))

def prune (pool : TxPool) : TxPool := pruneLoop pool.maxWeight pool.byFee.reverse pool

/-- `prune` as it is called from outside: zero bytes stand for the limit of the pool. -/
def pruneTo (bytes : ℕ) (pool : TxPool) : TxPool :=
  pruneLoop (if bytes = 0 then pool.maxWeight else bytes) pool.byFee.reverse pool

def markDoubleSpend (pool : TxPool) (tx : Transaction) : TxPool :=
  let ids := tx.vin.flatMap fun
    | .gen _ => []
    | .toKey keyImage => idsOf pool.spentKeyImages keyImage
  { pool with
    table := ids.foldl
      (fun table id => table.update id fun info => { info with doubleSpendSeen := true })
      pool.table }

/-- The clock of a call: the time of reception, and the time a forwarded transaction waits
for. -/
structure Clock where
  now : ℕ
  forwardTime : ℕ

/-- The metadata of a transaction whose inputs were checked. -/
def metaOf (weight fee : ℕ) (maxUsed : ℕ × Hash) (relay : RelayMethod) (relayed : Bool)
    (clock : Clock) : TxMeta where
  maxUsedBlockId := maxUsed.2
  lastFailedId := nullHash
  weight := weight
  fee := fee
  maxUsedBlockHeight := maxUsed.1
  lastFailedHeight := 0
  receiveTime := clock.now
  lastRelayedTime := if relay = .forward then clock.forwardTime else 2 ^ 64 - 1
  relayMethod := relay
  relayed := relayed
  doubleSpendSeen := false

/-- The insertion of an admitted transaction: key images first, then the tables. -/
def store (E : Env) (pool : TxPool) (tx : Transaction) (id : Hash) (relay : RelayMethod)
    (info : TxMeta) : Bool × TxPool :=
  match insertKeyImages pool.table id relay tx.vin pool.spentKeyImages with
  | (false, spent) => (false, { pool with spentKeyImages := spent })
  | (true, spent) =>
      (true, addToTransientLists
        { pool with
          spentKeyImages := spent
          table := pool.table.put { id := id, info := info, tx := tx } }
        { feePerByte := E.feePerByte info.fee info.weight,
          receiveTime := info.receiveTime, id := id })

/-- `add_tx`: the refusal, or whether the transaction was not stored before, and the pool. -/
def addTx (E : Env) (db : Db) (pool : TxPool) (tx : Transaction) (id : Hash) (weight : ℕ)
    (relay : RelayMethod) (relayed : Bool) (version nicVersion : ℕ) (clock : Clock) :
    Except AddTxError Bool × TxPool :=
  match admission E db pool tx id weight relay version nicVersion with
  | .error .doubleSpend => (.error .doubleSpend, markDoubleSpend pool tx)
  | .error e => (.error e, pool)
  | .ok fee =>
      match E.checkTxInputs db.blocks tx (relay = .block) with
      | none =>
          if relay = .block then
            let info := { metaOf weight fee (0, nullHash) relay relayed clock with
              lastRelayedTime := clock.now
              doubleSpendSeen := keyImagesSpent pool tx id }
            match store E pool tx id relay info with
            | (false, pool') => (.error .keyImages, pool')
            | (true, pool') => (.ok true, prune { pool' with weight := pool'.weight + weight })
          else (.error .invalidInput, pool)
      | some maxUsed =>
          match pool.table.get id with
          | none =>
              match store E pool tx id relay
                  (metaOf weight fee maxUsed relay relayed clock) with
              | (false, pool') => (.error .keyImages, pool')
              | (true, pool') => (.ok true, prune { pool' with weight := pool'.weight + weight })
          | some e =>
              -- a transaction seen again on the stem comes out of a loop
              let relay := if relay = .stem ∧ e.info.relayMethod = .stem then .fluff else relay
              if e.info.relayMethod.toNat < relay.toNat then
                match store E pool tx id relay
                    (metaOf weight fee maxUsed relay relayed clock) with
                | (false, pool') => (.error .keyImages, pool')
                | (true, pool') => (.ok false, prune pool')
              else (.ok false, prune pool)

def addTxOf (E : Env) (db : Db) (pool : TxPool) (tx : Transaction) (relay : RelayMethod)
    (relayed : Bool) (version nicVersion : ℕ) (clock : Clock) :
    Except AddTxError Bool × TxPool :=
  addTx E db pool tx (E.H.txHash tx) (E.txWeight tx) relay relayed version nicVersion clock

def takeTx (pool : TxPool) (id : Hash) : Option PoolTx × TxPool :=
  match pool.table.get id with
  | none => (none, pool)
  | some e => (some e, removeEntry pool e (eraseEntry id pool.byFee))

/-- The order of `compare_hash32`, in which the database lists the pool. -/
def listedBefore (a b : PoolTx) : Bool := memcmpLt a.id.bytes.reverse b.id.bytes.reverse

/-- The stored transactions as `for_all_txpool_txes` visits them. -/
def listed (table : PoolTable) : List PoolTx :=
  table.rows.insertionSort fun a b => listedBefore b a = false

/-- `CRYPTONOTE_MEMPOOL_TX_LIVETIME`. -/
def mempoolTxLivetime : ℕ := 86400 * 3

def mempoolTxFromAltBlockLivetime : ℕ := 604800

/-- The transaction is too old at a time. -/
def isStuck (now : ℕ) (info : TxMeta) : Bool :=
  let age := sizeSub now info.receiveTime
  (age > mempoolTxLivetime ∧ info.relayMethod ≠ .block) ∨
    (age > mempoolTxFromAltBlockLivetime ∧ info.relayMethod = .block)

/-- `remove_tx_from_transient_lists` for a stuck transaction, which times out. -/
def timeOut (pool : TxPool) (e : PoolTx) : TxPool :=
  { pool with
    byFee := eraseEntry e.id pool.byFee
    addedById := pool.addedById.filter fun i => i ≠ e.id
    timedOut := e.id :: pool.timedOut
    log := pool.log.trackRemovedTx e.id e.isSensitive }

def removeStuck (pool : TxPool) (e : PoolTx) : TxPool :=
  match pool.table.get e.id with
  | none => pool
  | some found =>
      { pool with
        table := pool.table.remove e.id
        weight := pool.weight - e.info.weight
        spentKeyImages := removeKeyImages e.id found.tx.vin pool.spentKeyImages }

/-- `remove_stuck_transactions`, given the time at which each transaction is visited. -/
def removeStuckTransactions (now : Hash → ℕ) (pool : TxPool) : TxPool :=
  let remove := (listed pool.table).filter fun e => isStuck (now e.id) e.info
  remove.foldl removeStuck (remove.foldl timeOut pool)

/-- `MIN_RELAY_TIME` and `MAX_RELAY_TIME`. -/
def minRelayTime : ℤ := 60 * 5

def maxRelayTime : ℤ := 60 * 60 * 4

/-- A 64-bit number as a `time_t`. -/
def toTime (n : ℕ) : ℤ := (BitVec.ofNat 64 n).toInt

def getRelayDelay (lastRelay received : ℕ) : ℕ :=
  let d := (toTime lastRelay - toTime received + minRelayTime).tdiv minRelayTime * minRelayTime
  (min d maxRelayTime % 2 ^ 64).toNat

/-- A transaction waits for a time of its own before it is relayed. -/
def RelayMethod.isDelayed (method : RelayMethod) : Bool := method = .stem ∨ method = .forward

/-- The transaction is to be relayed at a time. -/
def isDue (now : ℕ) (info : TxMeta) : Bool :=
  info.fee > 0 ∧ info.relayMethod ≠ .none ∧
    if info.relayMethod.isDelayed then info.lastRelayedTime ≤ now
    else getRelayDelay info.lastRelayedTime info.receiveTime < sizeSub now info.lastRelayedTime

/-- A transaction older than half its lifetime is not relayed again. -/
def isYoung (now : ℕ) (info : TxMeta) : Bool :=
  sizeSub now info.receiveTime ≤
    (if info.relayMethod = .block then mempoolTxFromAltBlockLivetime else mempoolTxLivetime) / 2

/-- `get_relayable_transactions`, given `m_next_check` and the time: what is to be relayed and
the next check, or nothing if it is too early. -/
def getRelayableTransactions (nextCheck now : ℕ) (pool : TxPool) :
    Option (List (PoolTx × RelayMethod) × ℕ) × TxPool :=
  if 2 ^ 63 - 1 < now ∨ now < nextCheck then (none, pool)
  else
    let due := (listed pool.table).filter fun e => isDue now e.info
    let waiting := (listed pool.table).filter fun e =>
      e.info.fee > 0 ∧ e.info.relayMethod.isDelayed ∧ now < e.info.lastRelayedTime
    (some ((due.filter fun e => isYoung now e.info).map fun e => (e, e.info.relayMethod),
        waiting.foldl (fun next e => min next e.info.lastRelayedTime) (now + 2 * 60)),
      { pool with
        table := (due.filter fun e => e.info.relayMethod.isDelayed).foldl
          (fun table e => table.update e.id fun _ => { e.info with
            lastRelayedTime :=
              (now + getRelayDelay e.info.lastRelayedTime e.info.receiveTime) % 2 ^ 64 })
          pool.table })

/-- One turn of the loop of `set_relayed`; the embargo is the time a stem transaction waits
for. -/
def setRelayedOne (E : Env) (method : RelayMethod) (now : ℕ) (pool : TxPool)
    (hash : Hash × ℕ) : TxPool :=
  match pool.table.get hash.1 with
  | none => pool
  | some e =>
      let relay := e.info.relayMethod.upgrade method
      let info := { e.info with
        relayMethod := relay
        relayed := true
        lastRelayedTime := if relay = .stem then hash.2 else now }
      let updated := { pool with table := pool.table.update hash.1 fun _ => info }
      if e.info.relayMethod.isBroadcasted = false ∧ relay.isBroadcasted then
        addToTransientLists updated
          { feePerByte := E.feePerByte info.fee info.weight, receiveTime := now, id := hash.1 }
      else updated

/-- `set_relayed` for hashes, each with its embargo. -/
def setRelayed (E : Env) (hashes : List (Hash × ℕ)) (method : RelayMethod) (now : ℕ)
    (pool : TxPool) : TxPool :=
  hashes.foldl (setRelayedOne E method now) pool

def defaultTxpoolMaxWeight : ℕ := 648000000

def initRow (E : Env) (pool : TxPool) (e : PoolTx) : Bool × TxPool :=
  match insertKeyImages pool.table e.id e.info.relayMethod e.tx.vin pool.spentKeyImages with
  | (false, spent) => (false, { pool with spentKeyImages := spent })
  | (true, spent) =>
      (true, { addToTransientLists { pool with spentKeyImages := spent }
          { feePerByte := E.feePerByte e.info.fee e.info.weight,
            receiveTime := e.info.receiveTime, id := e.id } with
        weight := pool.weight + e.info.weight })

/-- One pass of `init`, over the transactions that are kept by a block or over the others. -/
def initPass (E : Env) (kept : Bool) : List PoolTx → TxPool → Bool × TxPool
  | [], pool => (true, pool)
  | e :: rest, pool =>
      if kept ≠ decide (e.info.relayMethod = .block) then initPass E kept rest pool
      else
        match initRow E pool e with
        | (false, pool) => (false, pool)
        | (true, pool) => initPass E kept rest pool

/-- The logs are thrown away. -/
def clearLogs (pool : TxPool) : TxPool := { pool with addedById := [], log := pool.log.clear }

/-- The pool with empty containers, as `init` begins. -/
def cleared (maxTxpoolWeight : ℕ) (pool : TxPool) : TxPool :=
  { clearLogs pool with
    maxWeight := if maxTxpoolWeight = 0 then defaultTxpoolMaxWeight else maxTxpoolWeight
    byFee := []
    spentKeyImages := []
    weight := 0 }

/-- `init`: the indexes are built again from the tables. -/
def init (E : Env) (maxTxpoolWeight : ℕ) (mineStemTxes : Bool) (pool : TxPool) : Bool × TxPool :=
  match initPass E false (listed pool.table) (cleared maxTxpoolWeight pool) with
  | (false, pool) => (false, pool)
  | (true, first) =>
      match initPass E true (listed pool.table) first with
      | (false, pool) => (false, pool)
      | (true, second) => (true, { second with mineStemTxes := mineStemTxes })

/-- One turn of the loop of `validate`. A transaction that an earlier turn pruned is not found;
the empty transaction that is then offered in its place has no inputs and is refused. -/
def revalidate (E : Env) (db : Db) (version : ℕ) (clock : Clock) (pool : TxPool) (e : PoolTx) :
    TxPool :=
  match takeTx pool e.id with
  | (none, pool) => pool
  | (some found, pool) =>
      match addTx E db pool found.tx e.id e.info.weight e.info.relayMethod e.info.relayed version
          0 clock with
      | (.error _, pool) => pool
      | (.ok _, pool) => { pool with table := pool.table.update e.id fun _ => e.info }

/-- `validate`: every transaction is taken out and offered again under a version. -/
def validate (E : Env) (db : Db) (version : ℕ) (clock : Clock) (pool : TxPool) : TxPool :=
  (listed pool.table).foldl (revalidate E db version clock) (clearLogs pool)

/-- The results in `m_input_cache`, by transaction id. -/
abbrev InputCache := List (Hash × Option (ℕ × Hash))

/-- What `is_transaction_ready_to_go` answers, with the metadata, the inputs of the transaction as
far as it was parsed, and the cache it leaves. -/
structure Readiness where
  ready : Bool
  info : TxMeta
  vin : List TxIn
  inputCache : InputCache

/-- `check_tx_inputs` of the pool: a cached result is returned without a look at the transaction,
which is parsed only to compute a new one. -/
def checkTxInputs (E : Env) (db : Db) (cache : InputCache) (id : Hash) (tx : Transaction) :
    Option (ℕ × Hash) × List TxIn × InputCache :=
  match cache.lookup id with
  | some result => (result, [], cache)
  | none =>
      let result := E.checkTxInputs db.blocks tx false
      (result, tx.vin, (id, result) :: cache)

def isTransactionReadyToGo (E : Env) (db : Db) (cache : InputCache) (info : TxMeta) (id : Hash)
    (tx : Transaction) : Readiness :=
  if info.lastFailedId = E.topHash db.blocks then ⟨false, info, [], cache⟩
  else
    match checkTxInputs E db cache id tx with
    | (none, vin, cache) =>
        ⟨false, { info with
          lastFailedHeight := db.height - 1
          lastFailedId := E.topHash db.blocks }, vin, cache⟩
    | (some maxUsed, vin, cache) =>
        ⟨true, { info with maxUsedBlockHeight := maxUsed.1, maxUsedBlockId := maxUsed.2 }, vin,
          cache⟩

def haveKeyImages (keyImages : List Key) : List TxIn → Bool
  | [] => false
  | .gen _ :: _ => false
  | .toKey keyImage :: rest => keyImage ∈ keyImages || haveKeyImages keyImages rest

def appendKeyImages (keyImages : List Key) : List TxIn → List Key
  | [] => keyImages
  | .gen _ :: _ => keyImages
  | .toKey keyImage :: rest =>
      if keyImage ∈ keyImages then keyImages else appendKeyImages (keyImages ++ [keyImage]) rest

/-- The variables of `fill_block_template`; `done` is set when its loop breaks. -/
structure Template where
  txHashes : List Hash
  totalWeight : ℕ
  fee : ℕ
  bestCoinbase : ℕ
  coinbase : ℕ
  keyImages : List Key
  table : PoolTable
  inputCache : InputCache
  done : Bool

def coinbaseBlobReservedSize : ℕ := 600

def maxTotalWeight (version medianWeight : ℕ) : ℕ :=
  if version ≥ 5 then sizeSub (2 * medianWeight) coinbaseBlobReservedSize
  else sizeSub (130 * medianWeight / 100) coinbaseBlobReservedSize

/-- What the version says about one more transaction: the coinbase to go on with, to skip the
transaction, or to stop. -/
def templateCoinbase (E : Env) (version medianWeight generated : ℕ) (s : Template)
    (info : TxMeta) : Option ℕ × Bool :=
  if version ≥ 5 then
    match E.blockReward medianWeight (s.totalWeight + info.weight) generated version with
    | none => (none, false)
    | some reward =>
        let coinbase := reward + s.fee + info.fee
        if coinbase < E.acceptThreshold s.bestCoinbase then (none, false)
        else (some coinbase, false)
  else if s.totalWeight > medianWeight then (none, true)
  else (some s.coinbase, false)

/-- One turn of the loop of `fill_block_template`. -/
def templateStep (E : Env) (db : Db) (mineStemTxes : Bool) (version medianWeight generated : ℕ)
    (s : Template) (entry : FeeEntry) : Template :=
  if s.done then s
  else
    match s.table.get entry.id with
    | none => s
    | some e =>
        if ¬(e.info.relayMethod.isLegacy ∨ mineStemTxes ∧ e.info.relayMethod = .stem) then s
        else if maxTotalWeight version medianWeight < s.totalWeight + e.info.weight then s
        else
          match templateCoinbase E version medianWeight generated s e.info with
          | (none, done) => { s with done := done }
          | (some coinbase, _) =>
              let r := isTransactionReadyToGo E db s.inputCache e.info e.id e.tx
              let s := { s with
                table := s.table.update e.id fun _ => r.info
                coinbase := coinbase
                inputCache := r.inputCache }
              if r.ready = false then s
              else if haveKeyImages s.keyImages r.vin then s
              else
                { s with
                  txHashes := s.txHashes ++ [entry.id]
                  totalWeight := s.totalWeight + e.info.weight
                  fee := s.fee + e.info.fee
                  bestCoinbase := coinbase
                  keyImages := appendKeyImages s.keyImages r.vin }

/-- `fill_block_template`: the transactions chosen for a block on top of the chain. -/
def fillBlockTemplate (E : Env) (db : Db) (pool : TxPool) (cache : InputCache)
    (medianWeight generated version : ℕ) : Option Template :=
  match E.blockReward medianWeight 0 generated version with
  | none => none
  | some reward =>
      some (pool.byFee.foldl
        (templateStep E db pool.mineStemTxes version medianWeight generated)
        { txHashes := [], totalWeight := 0, fee := 0, bestCoinbase := reward, coinbase := 0,
          keyImages := [], table := pool.table, inputCache := cache, done := false })

end Monzero.TxMemoryPool
