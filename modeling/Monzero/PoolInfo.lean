import Monzero.PoolChanges

/-!
What clients are told about the pool. `get_pool_info` gives the changes since a time if the logs
go back that far, and the whole pool otherwise. A client that saw the pool at some moment and
is told the changes since then has the pool as it is now, whatever was done to the pool in
between.
-/
namespace Monzero.PoolChanges

open Primitives TxExtra ChangeLog TxMemoryPool PoolRows List

/-- `tx_details`, without the blob and its size. -/
structure TxDetails where
  tx : Transaction
  weight : ℕ
  fee : ℕ
  maxUsedBlockId : Hash
  maxUsedBlockHeight : ℕ
  keptByBlock : Bool
  lastFailedHeight : ℕ
  lastFailedId : Hash
  receiveTime : ℕ
  lastRelayedTime : ℕ
  relayed : Bool
  doNotRelay : Bool
  doubleSpendSeen : Bool

def getTransactionInfo (table : PoolTable) (includeSensitive : Bool) (id : Hash) :
    Option TxDetails :=
  match table.get id with
  | none => none
  | some e =>
      if includeSensitive = false ∧ e.info.relayMethod.isBroadcasted = false then none
      else
        some
          { tx := e.tx
            weight := e.info.weight
            fee := e.info.fee
            maxUsedBlockId := e.info.maxUsedBlockId
            maxUsedBlockHeight := e.info.maxUsedBlockHeight
            keptByBlock := e.info.relayMethod = .block
            lastFailedHeight := e.info.lastFailedHeight
            lastFailedId := e.info.lastFailedId
            receiveTime := if includeSensitive then e.info.receiveTime else 0
            lastRelayedTime :=
              if includeSensitive ∧ e.info.relayMethod ≠ .stem then e.info.lastRelayedTime else 0
            relayed := e.info.relayed
            doNotRelay := e.info.relayMethod = .none
            doubleSpendSeen := e.info.doubleSpendSeen }

/-- `get_transactions_info`: those that are not found are left out. -/
def getTransactionsInfo (table : PoolTable) (includeSensitive : Bool) (txids : List Hash) :
    List (Hash × TxDetails) :=
  txids.filterMap fun id => (getTransactionInfo table includeSensitive id).map fun td => (id, td)

def getTransactionHashes (table : PoolTable) (includeSensitive : Bool) : List Hash :=
  ((listed table).filter fun e =>
    includeSensitive || e.info.relayMethod.isBroadcasted).map PoolTx.id

/-- What `get_pool_info` gives back. -/
structure PoolInfo where
  addedTxs : List (Hash × TxDetails)
  remainingAddedTxids : List Hash
  removedTxs : List Hash
  incremental : Bool

/-- The logs go back to before a time. -/
def isIncremental (log : PoolLog) (startTime : ℕ) : Bool :=
  if startTime = 0 then false
  else if log.addedStart ≠ 0 ∧ log.removedStart ≠ 0 then
    ¬(startTime ≤ log.addedStart ∨ startTime ≤ log.removedStart)
  else false

def getPoolInfo (pool : TxPool) (startTime : ℕ) (includeSensitive : Bool) (maxTxCount : ℕ) :
    PoolInfo :=
  if isIncremental pool.log startTime then
    let txids := pool.addedById.filter fun id => startTime ≤ pool.log.addedTime id
    let addedTxs := getTransactionsInfo pool.table includeSensitive txids
    { addedTxs := addedTxs.take maxTxCount
      remainingAddedTxids := (addedTxs.drop maxTxCount).map Prod.fst
      removedTxs := ((pool.log.removedByTime.since startTime).entries.filter fun e =>
        includeSensitive || !e.2.sensitive).map fun e => e.2.txid
      incremental := true }
  else
    let txids := getTransactionHashes pool.table includeSensitive
    { addedTxs := getTransactionsInfo pool.table includeSensitive (txids.take maxTxCount)
      remainingAddedTxids := txids.drop maxTxCount
      removedTxs := []
      incremental := false }

/-- The pool as a client sees it: the transactions by their ids. -/
def visibleTo (includeSensitive : Bool) (table : PoolTable) (id : Hash) : Option Transaction :=
  (table.get id).bind fun e =>
    if includeSensitive || e.info.relayMethod.isBroadcasted then some e.tx else none

def PoolInfo.applyTo (info : PoolInfo) (view : Hash → Option Transaction) :
    Hash → Option Transaction :=
  insertAll (info.addedTxs.map fun added => (added.1, added.2.tx)) (deleteAll info.removedTxs view)

theorem visible_contents (pool : TxPool) (sens : Bool) :
    (contents pool).visible sens = visibleTo sens pool.table := by
  funext id
  rw [State.visible, visibleTo]
  show (items pool.table id).bind _ = _
  rw [items, Option.bind_map]
  simp [PoolTx.isSensitive]

theorem getTransactionInfo_tx (tab : PoolTable) (sens : Bool) (id : Hash) :
    (getTransactionInfo tab sens id).map TxDetails.tx = visibleTo sens tab id := by
  rw [getTransactionInfo, visibleTo]
  cases tab.get id with
  | none => rfl
  | some e =>
    cases sens <;> cases hshown : e.info.relayMethod.isBroadcasted <;> simp [hshown]

theorem isIncremental_iff {log : PoolLog} {t0 : ℕ} : isIncremental log t0 = true ↔
      (log.addedStart ≠ 0 ∧ log.addedStart < t0) ∧
        (log.removedStart ≠ 0 ∧ log.removedStart < t0) := by
  rw [isIncremental]
  split_ifs with hzero hstarts
  · simp only [false_iff]
    omega
  · simp only [decide_eq_true_eq]
    omega
  · simp only [false_iff]
    omega

theorem mem_removedTxs {pool : TxPool} {t0 : ℕ} {sens : Bool}
    (maxN : ℕ) (hincremental : isIncremental pool.log t0 = true) (id : Hash) :
    id ∈ (getPoolInfo pool t0 sens maxN).removedTxs ↔ (contents pool).RemovedSince sens t0 id := by
  rw [getPoolInfo, if_pos hincremental]
  simp only [mem_map, mem_filter, Timeline.mem_since, State.RemovedSince, contents]
  constructor
  · rintro ⟨⟨time, txid, sensitive⟩, ⟨⟨hmem, hsince⟩, htold⟩, rfl⟩
    exact ⟨⟨time, txid, sensitive⟩, hmem, rfl, hsince, by simpa using htold⟩
  · rintro ⟨r, hmem, rfl, hsince, htold⟩
    exact ⟨_, ⟨⟨hmem, hsince⟩, by simpa using htold⟩, rfl⟩

/-- With no ids remaining, the transactions that are told as added are the visible ones that
were added since. -/
theorem mem_addedTxs {pool : TxPool} {t0 : ℕ} {sens : Bool} {maxN : ℕ}
    (hincremental : isIncremental pool.log t0 = true)
    (hremaining : (getPoolInfo pool t0 sens maxN).remainingAddedTxids = [])
    (id : Hash) (tx : Transaction) : (id, tx) ∈ (getPoolInfo pool t0 sens maxN).addedTxs.map
        (fun added => (added.1, added.2.tx)) ↔
      (contents pool).AddedSince t0 id ∧ (contents pool).visible sens id = some tx := by
  rw [getPoolInfo, if_pos hincremental] at hremaining ⊢
  simp only [map_eq_nil_iff, drop_eq_nil_iff] at hremaining
  simp only [take_of_length_le hremaining]
  have hadded : (contents pool).AddedSince t0 id ↔
      id ∈ pool.addedById.filter fun id => t0 ≤ pool.log.addedTime id := by
    simp only [State.AddedSince, contents, mem_filter, decide_eq_true_eq]
    by_cases hid : id ∈ pool.addedById
    · simp [hid]
    · simp [hid]
  rw [hadded, visible_contents, ← getTransactionInfo_tx, getTransactionsInfo]
  simp only [mem_map, mem_filterMap, Option.map_eq_some_iff, Prod.mk.injEq]
  constructor
  · rintro ⟨_, ⟨id', hid', td, htd, rfl⟩, rfl, rfl⟩
    exact ⟨hid', td, htd, rfl⟩
  · rintro ⟨hid, td, htd, rfl⟩
    exact ⟨(id, td), ⟨id, hid, td, htd, rfl⟩, rfl, rfl⟩

theorem leads_run (E : Env) (ops : List PoolOperation) (pool : TxPool) :
    Leads pool (ops.foldl (perform E) pool) :=
  leads_foldl (leads_perform E) ops

/-- A client that saw the pool at a moment, and is told the changes since a time that is not
later, has the pool as it is now. This holds from the construction of the pool on, for every
clock that does not go back. -/
theorem incremental_pool_info_complete (E : Env) (pool : TxPool) (clock : ℕ) (waits : ℕ → ℕ)
    (before after : List PoolOperation) (moment now : TxPool)
    (hmoment : before.foldl (perform E) { pool with log := .empty clock waits } = moment)
    (hnow : after.foldl (perform E) moment = now) (includeSensitive : Bool)
    (view : Hash → Option Transaction)
    (hview : view = visibleTo includeSensitive moment.table) (startTime maxTxCount : ℕ)
    (hstart : startTime ≤ moment.log.clock)
    (hincremental : (getPoolInfo now startTime includeSensitive maxTxCount).incremental = true)
    (hremaining :
      (getPoolInfo now startTime includeSensitive maxTxCount).remainingAddedTxids = []) :
    (getPoolInfo now startTime includeSensitive maxTxCount).applyTo view =
      visibleTo includeSensitive now.table := by
  have hlogs : isIncremental now.log startTime = true := by
    by_contra hnot
    rw [getPoolInfo, if_neg hnot] at hincremental
    cases hincremental
  have hbefore := leads_run E before { pool with log := .empty clock waits }
  rw [hmoment] at hbefore
  have hafter := leads_run E after moment
  rw [hnow] at hafter
  obtain ⟨haddedStart, hremovedStart⟩ := isIncremental_iff.mp hlogs
  have hempty : (contents { pool with log := .empty clock waits }).removals = ∅ := by
    ext r
    simp [contents, PoolLog.empty, Timeline.empty]
  have hcaught := catch_up hempty rfl hbefore hafter hstart haddedStart
    hremovedStart (mem_removedTxs maxTxCount hlogs) (mem_addedTxs hlogs hremaining)
  rw [visible_contents, visible_contents, ← hview] at hcaught
  exact hcaught

/-- Two transactions of a pool. -/
def firstTx : Transaction := ToyNode.nativeTx 3 []

def secondTx : Transaction := ToyNode.nativeTx 4 []

def idOf (tx : Transaction) : Hash := PoolRuns.growingEnv.H.txHash tx

/-- The first transaction comes on the stem, is taken out and comes again; the second one is
broadcasted. A client looks at the pool. -/
def beforeLook : List PoolOperation :=
  [.init 0 false,
    .addTx PoolRuns.shortDb firstTx (idOf firstTx) 100 .stem true 17 17 ToyNode.clock,
    .takeTx (idOf firstTx),
    .addTx PoolRuns.shortDb firstTx (idOf firstTx) 100 .stem true 17 17 ToyNode.clock,
    .addTx PoolRuns.shortDb secondTx (idOf secondTx) 100 .fluff true 17 17 ToyNode.clock, .look]

/-- The first transaction is broadcasted, the second one is taken out. -/
def afterLook : List PoolOperation :=
  [.setRelayed [(idOf firstTx, 9)] .fluff 5, .takeTx (idOf secondTx)]

/-- The pool that the client saw, and the one it asks. -/
def sampleMoment : TxPool :=
  beforeLook.foldl (perform PoolRuns.growingEnv)
    { ToyNode.emptyPool with log := .empty 100 fun _ => 1 }

def sampleNow : TxPool := afterLook.foldl (perform PoolRuns.growingEnv) sampleMoment

/-- A client that is not shown sensitive transactions sees the second transaction, and later the
first one instead. -/
theorem incremental_pool_info_sample :
    visibleTo false sampleMoment.table (idOf secondTx) = some secondTx ∧
      visibleTo false sampleNow.table (idOf firstTx) = some firstTx ∧
      (getPoolInfo sampleNow 105 false 10).removedTxs = [idOf secondTx] ∧
      (getPoolInfo sampleNow 105 false 10).applyTo (visibleTo false sampleMoment.table) =
        visibleTo false sampleNow.table := by
  refine ⟨by decide +kernel, by decide +kernel, by decide +kernel, ?_⟩
  exact incremental_pool_info_complete PoolRuns.growingEnv ToyNode.emptyPool 100 (fun _ => 1)
    beforeLook afterLook sampleMoment sampleNow rfl rfl false _ rfl 105 10 (by decide +kernel)
    (by decide +kernel) (by decide +kernel)

end Monzero.PoolChanges
