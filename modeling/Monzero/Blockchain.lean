import Monzero.AssetRuns
import Monzero.TxMemoryPool

/-!
Blocks on the main chain. A block takes its transactions from the pool or from the
supplement that came with it, checks them, applies their asset payloads in order and is
stored; on any failure the transactions taken from the pool are offered back to it. A
popped block offers its transactions to the pool in reverse order. The asset tables of
a failed block are as the payloads before the failure left them, because the write
batch stays open.
-/
namespace Monzero.Blockchain

open Primitives AssetWire AssetDb AssetRuns TxExtra TxMemoryPool

/-- The chain, its asset tables and the pool. -/
structure Node where
  db : Db
  pool : TxPool

def txExists (E : Env) (db : Db) (id : Hash) : Bool :=
  db.blocks.any fun b => id ∈ b.block.txHashes ∨ id = E.H.txHash b.block.minerTx

/-- A transaction of the block being handled: an element of `txs`, `txs_meta` and
`asset_payloads`. -/
structure Taken where
  id : Hash
  tx : Transaction
  weight : ℕ
  fee : ℕ
  fromPool : Bool
  payload : Option (AssetTransactionPayload Key)

/-- The state of the loop over the transactions of a block. -/
structure Collecting where
  pool : TxPool
  supplement : List Transaction
  taken : List Taken

/-- Why `handle_block_to_main_chain` fails. -/
inductive BlockError
  | header
  | supplement
  | alreadyInChain
  | missingTx
  | assetEnvelope (message : String)
  | wrongInputs
  | minerTx
  | assets (failure : Failure)
  | store
deriving DecidableEq

/-- The transaction with an id, from the pool or else from the supplement. -/
def findTx (E : Env) (s : Collecting) (id : Hash) : Option (Taken × Collecting) :=
  match takeTx s.pool id with
  | (some e, pool) =>
      some ({ id := id, tx := e.tx, weight := e.info.weight, fee := e.info.fee,
              fromPool := true, payload := none }, { s with pool := pool })
  | (none, _) =>
      match s.supplement.find? fun tx => E.H.txHash tx = id with
      | none => none
      | some tx =>
          some ({ id := id, tx := tx, weight := E.txWeight tx, fee := (E.fee tx).getD 0,
                  fromPool := false, payload := none },
            { s with supplement := s.supplement.filter fun tx => E.H.txHash tx ≠ id })

/-- The envelope of a transaction of a block, which is not looked at before activation. -/
def blockPayload (E : Env) (version : ℕ) (tx : Transaction) :
    Except String (Option (AssetTransactionPayload Key)) :=
  if version ≥ hfVersionMonzeroAssets then E.payload version tx else .ok none

/-- The loop over the transaction hashes of a block. -/
def collectTxs (E : Env) (db : Db) (version : ℕ) (fast : Bool) :
    List Hash → Collecting → Except BlockError Unit × Collecting
  | [], s => (.ok (), s)
  | id :: rest, s =>
      if txExists E db id then (.error .alreadyInChain, s)
      else
        match findTx E s id with
        | none => (.error .missingTx, s)
        | some (found, s) =>
            match blockPayload E version found.tx with
            | .error message =>
                (.error (.assetEnvelope message), { s with taken := s.taken ++ [found] })
            | .ok payload =>
                let s := { s with taken := s.taken ++ [{ found with payload := payload }] }
                if fast = false ∧ E.checkTxInputs db.blocks found.tx false = none then
                  (.error .wrongInputs, s)
                else collectTxs E db version fast rest s

def returnTxsToPool (E : Env) (db : Db) (version : ℕ) (clock : Clock) (pool : TxPool)
    (taken : List Taken) : TxPool :=
  (taken.filter Taken.fromPool).foldl
    (fun pool t => (addTx E db pool t.tx t.id t.weight .block true version version clock).2) pool

/-- The payloads of a block with the carrier hashes they are applied with. -/
def assetPayloads (taken : List Taken) : List (AssetTransactionPayload Key × Hash) :=
  taken.filterMap fun t => t.payload.map fun p => (p, p.carrierPrefixHash)

/-- The pool after the chain changed: revalidated when the version in force changed. -/
def afterChange (E : Env) (clock : Clock) (versionBefore : ℕ) (node : Node) : Node :=
  if E.hardFork node.db.blocks ≠ versionBefore then
    { node with pool := validate E node.db (E.hardFork node.db.blocks) clock node.pool }
  else node

def handleBlockToMainChain (E : Env) (clock : Clock) (node : Node) (block : Block)
    (supplement : List Transaction) : Except BlockError Unit × Node :=
  let version := E.hardFork node.db.blocks
  let fast := E.fastCheck node.db.blocks block
  if E.checkHeader node.db.blocks block = false then (.error .header, node)
  else if fast = false ∧ supplement.any (fun tx => E.nonInputConsensus tx version = false) then
    (.error .supplement, node)
  else
    match collectTxs E node.db version fast block.txHashes
        { pool := node.pool, supplement := supplement, taken := [] } with
    | (.error e, s) =>
        (.error e, { node with pool := returnTxsToPool E node.db version clock s.pool s.taken })
    | (.ok (), s) =>
        if E.checkMinerTx node.db.blocks block (s.taken.map Taken.weight).sum
            (s.taken.map Taken.fee).sum = false then
          (.error .minerTx,
            { node with pool := returnTxsToPool E node.db version clock s.pool s.taken })
        else
          match applyAssetPayloads E.C E.assetNetwork node.db.height (assetPayloads s.taken)
              node.db.assets with
          | (.error failure, tables) =>
              let db := { node.db with assets := tables }
              (.error (.assets failure),
                { db := db, pool := returnTxsToPool E db version clock s.pool s.taken })
          | (.ok (), tables) =>
              let db := { node.db with assets := tables }
              let stored := { block := block, txs := s.taken.map Taken.tx }
              if E.canStore node.db.blocks stored = false then
                (.error .store,
                  { db := db, pool := returnTxsToPool E db version clock s.pool s.taken })
              else
                (.ok (), afterChange E clock version { db := db.addBlock stored, pool := s.pool })

def isCoinbase (tx : Transaction) : Bool :=
  match tx.vin with
  | [.gen _] => true
  | _ => false

/-- The transactions of a popped block offered back to the pool, last one first. -/
def returnPopped (E : Env) (db : Db) (clock : Clock) (pool : TxPool) (txs : List Transaction) :
    TxPool :=
  txs.reverse.foldl
    (fun pool tx =>
      if isCoinbase tx then pool
      else (addTxOf E db pool tx .block true (E.idealHardFork db.height)
        (E.idealHardFork db.height) clock).2)
    pool

/-- `pop_block_from_blockchain`; it throws on the genesis block. -/
def popBlockFromBlockchain (E : Env) (clock : Clock) (node : Node) : Option Node :=
  match node.db.blocks with
  | top :: _ :: _ =>
      let db := node.db.popBlock
      some (afterChange E clock (E.hardFork node.db.blocks)
        { db := db, pool := returnPopped E db clock node.pool top.txs })
  | _ => none

/-- A number of pops, as `rollback_blockchain_switching` makes them. -/
def popBlocks (E : Env) (clock : Clock) : ℕ → Node → Option Node
  | 0, node => some node
  | k + 1, node => do
      let node ← popBlockFromBlockchain E clock node
      popBlocks E clock k node

/-- The blocks of a chain added again in order, with nothing but the pool to take their
transactions from. -/
def readdBlocks (E : Env) (clock : Clock) : List Block → Node → Except BlockError Unit × Node
  | [], node => (.ok (), node)
  | block :: rest, node =>
      match handleBlockToMainChain E clock node block [] with
      | (.error e, node) => (.error e, node)
      | (.ok (), node) => readdBlocks E clock rest node

/-- `rollback_blockchain_switching`: `none` when a pop throws. -/
def rollbackBlockchainSwitching (E : Env) (clock : Clock) (originalChain : List Block)
    (rollbackHeight : ℕ) (node : Node) : Option (Except BlockError Unit × Node) :=
  if rollbackHeight > node.db.height then some (.ok (), node)
  else (popBlocks E clock (node.db.height - rollbackHeight) node).map
    (readdBlocks E clock originalChain)

end Monzero.Blockchain

/-!
A node over the executable primitives, with native checks that accept every transaction
spending a key image.
-/
namespace Monzero.ToyNode

open Primitives AssetTypes AssetWire AssetWireCodec TxExtra TxMemoryPool Blockchain ToyCrypto

def inputBytes : TxIn → List UInt8
  | .gen _ => [0]
  | .toKey keyImage => 1 :: keyImage.bytes

def prefixBytes (tx : TransactionPrefix) : List UInt8 :=
  tx.vin.flatMap inputBytes ++ (tx.extra ++ tx.other)

/-- The hash of a transaction looks at its inputs only, which is enough to tell those of the
samples apart. -/
def toyHashes : TransactionHashes where
  prefixHash tx := polynomialHash (prefixBytes tx)
  txHash tx := polynomialHash (1 :: tx.vin.flatMap inputBytes)

/-- Every transaction that spends a key image is natively valid. -/
def toyInputs (tx : Transaction) : Option (ℕ × Hash) :=
  match tx.vin with
  | .toKey _ :: _ => some (0, nullHash)
  | _ => none

def toyEnv : Env where
  C := toy
  H := toyHashes
  network := .mainnet
  nonInputConsensus _ _ := true
  fee _ := some 10
  txWeight _ := 100
  checkFee _ _ _ := true
  checkTxInputs _ tx _ := toyInputs tx
  feePerByte _ _ := 0
  topHash blocks := keyOfNat (1000 + blocks.length)
  blockReward _ _ _ _ := some 0
  acceptThreshold _ := 0
  hardFork _ := hfVersionMonzeroAssets
  idealHardFork _ := hfVersionMonzeroAssets
  checkHeader _ _ := true
  fastCheck _ _ := false
  checkMinerTx _ _ _ _ := true
  canStore _ _ := true

def nativeTx (keyImage : ℕ) (extra : List UInt8) : Transaction where
  unlockTime := 0
  vin := [.toKey (keyOfNat keyImage)]
  extra := extra
  other := []
  signatures := []

/-- The carrier hash of such a transaction. -/
def carrierOf (keyImage : ℕ) : Hash :=
  toyHashes.prefixHash (nativeTx keyImage []).toTransactionPrefix

/-- The transaction that carries a payload in an envelope. -/
def carry (keyImage : ℕ) (p : AssetTransactionPayload Key) : Transaction :=
  nativeTx keyImage
    (0x7A :: writeString (((encodeAssetTransactionPayload toy p).toOption).getD []))

def issuance (keyImage : ℕ) (d : IssuanceDescriptor) : AssetTransactionPayload Key :=
  issue .mainnet (carrierOf keyImage) d 21

def issuanceTx (keyImage : ℕ) (d : IssuanceDescriptor) : Transaction :=
  carry keyImage (issuance keyImage d)

def minerTx : Transaction where
  unlockTime := 60
  vin := [.gen 0]
  extra := []
  other := []
  signatures := []

/-- A block that lists some transactions. -/
def blockOf (txs : List Transaction) : Block where
  minerTx := minerTx
  txHashes := txs.map toyHashes.txHash
  other := []

def emptyPool : TxPool where
  table := .empty
  byFee := []
  addedById := []
  spentKeyImages := []
  timedOut := []
  weight := 0
  maxWeight := 1000000
  mineStemTxes := false
  log := .empty 0 fun _ => 0

def startNode : Node where
  db := { blocks := [{ block := blockOf [], txs := [] }], assets := .empty }
  pool := emptyPool

def clock : Clock := { now := 1, forwardTime := 2 }

/-- The node after a transaction was relayed to it. -/
def withTx (node : Node) (tx : Transaction) : Node :=
  { node with pool := (addTxOf toyEnv node.db node.pool tx .fluff true
    (toyEnv.hardFork node.db.blocks) hfVersionMonzeroAssets clock).2 }

/-- The node after a block that came with some transactions. -/
def withBlock (node : Node) (txs supplement : List Transaction) : Node :=
  (handleBlockToMainChain toyEnv clock node (blockOf txs) supplement).2

theorem withBlock_result {node : Node} {txs supp : List Transaction} {res : Except BlockError Unit}
    (h : (handleBlockToMainChain toyEnv clock node (blockOf txs) supp).1 = res) :
    handleBlockToMainChain toyEnv clock node (blockOf txs) supp = (res, withBlock node txs supp) :=
  Prod.ext h rfl

/-- Two transactions with different native inputs that issue the same asset. -/
def firstIssue : Transaction := issuanceTx 1 sampleCollection

def secondIssue : Transaction := issuanceTx 2 sampleCollection

def pooledNode : Node := withTx startNode firstIssue

end Monzero.ToyNode
