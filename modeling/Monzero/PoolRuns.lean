import Monzero.PoolUpkeep
import Monzero.Blockchain

/-!
Runs of the pool. After `init` and any calls of the other operations in any order, with
`init` again among them, the key-image index and the container ordered by fee mirror the
tables. So does the weight, as long as no transaction was counted again.
-/
namespace Monzero.PoolRuns

open List Primitives TxExtra TxMemoryPool PoolRows PoolIndex PoolMirror PoolUpkeep
open PoolTable (empty)
open ToyNode (clock emptyPool nativeTx toyEnv)

variable {E : Env} {known : List Transaction} {pool : TxPool} {e : PoolTx} {tab : PoolTable}
  {done : List PoolTx} {drifted : Prop}

theorem keeps_addToTransientLists (h : Good E known pool) (he : e ∈ pool.table.rows)
    {entry : FeeEntry} (hid : entry.id = e.id) :
    Keeps E known pool (addToTransientLists pool entry) := by
  have hmem : (entry.id, e.tx) ∈ stored pool.table :=
    mem_stored.mpr ⟨e, he, hid.symm, rfl⟩
  have hadded := mirrors_add h.mirrors e.tx entry h.mirrors.tidy (by
    intro k x
    refine ⟨Or.inl, ?_⟩
    rintro (hx | ⟨rfl, hk⟩)
    · exact hx
    · exact (h.mirrors.index k entry.id).mpr ⟨e.tx, hmem, hk⟩)
  refine ⟨⟨?_, ?_⟩, ?_⟩
  · rw [addToTransientLists_table]
    exact h.sound
  · rw [addToTransientLists_table]
    refine hadded.congr fun p => ?_
    rw [mem_cons]
    constructor
    · rintro (rfl | hp)
      · exact hmem
      · exact hp
    · exact Or.inr
  · intro hw
    rw [Weighed, addToTransientLists_weight, addToTransientLists_table]
    exact hw

theorem upgrade_block (meth : RelayMethod) : RelayMethod.block.upgrade meth = .block := by
  cases meth <;> rfl

theorem keeps_setRelayedOne (h : Good E known pool) (meth : RelayMethod) (now : ℕ)
    (hash : Hash × ℕ) : Keeps E known pool (setRelayedOne E meth now pool hash) := by
  unfold setRelayedOne
  cases hget : pool.table.get hash.1 with
  | none => exact h.keeps
  | some e =>
    obtain ⟨he, hid⟩ := PoolTable.get_eq_some_iff.mp hget
    have honly : ∀ f ∈ pool.table.rows, f.id = hash.1 → f = e := fun f hf hf' =>
      inj_on_of_nodup_map pool.table.ids_nodup hf he (hf'.trans hid.symm)
    dsimp only
    generalize hinfo : ({ e.info with
      relayMethod := e.info.relayMethod.upgrade meth
      relayed := true
      lastRelayedTime := if e.info.relayMethod.upgrade meth = .stem then hash.2 else now } :
        TxMeta) = info
    have hupdated : Keeps E known pool
        { pool with table := pool.table.update hash.1 fun _ => info } := by
      refine keeps_update h hash.1 _ ?_ ?_
      · intro f hf hf'
        rw [honly f hf hf', ← hinfo]
      · intro f hf hf' hb
        rw [honly f hf hf'] at hb
        rw [← hinfo, hb]
        exact upgrade_block meth
    split
    · have hrow : { e with info := info } ∈ (pool.table.update hash.1 fun _ => info).rows := by
        refine mem_map.mpr ⟨e, he, ?_⟩
        rw [if_pos hid]
      exact hupdated.trans (keeps_addToTransientLists hupdated.1 hrow hid.symm)
    · exact hupdated

theorem keeps_setRelayed (h : Good E known pool) (hashes : List (Hash × ℕ)) (meth : RelayMethod)
    (now : ℕ) : Keeps E known pool (setRelayed E hashes meth now pool) := by
  unfold setRelayed
  induction hashes generalizing pool with
  | nil => exact h.keeps
  | cons hash rest ih =>
    have hone := keeps_setRelayedOne h meth now hash
    exact hone.trans (ih hone.1)

theorem removeStuck_timeOut (pool : TxPool) (a b : PoolTx) :
    removeStuck (timeOut pool a) b = timeOut (removeStuck pool b) a := by
  unfold removeStuck
  rw [show (timeOut pool a).table = pool.table from rfl]
  cases pool.table.get b.id <;> rfl

theorem removeStuck_timeOut_self (hget : pool.table.get e.id = some e) :
    removeStuck (timeOut pool e) e =
      { removeEntry pool e (eraseEntry e.id pool.byFee) with
        timedOut := e.id :: pool.timedOut } := by
  unfold removeStuck
  rw [show (timeOut pool e).table = pool.table from rfl, hget]
  rfl

theorem listed_filter (tab : PoolTable) (p : PoolTx → Bool) :
    (∀ e ∈ (listed tab).filter p, e ∈ tab.rows) ∧
      (((listed tab).filter p).map PoolTx.id).Nodup := by
  have hperm := perm_insertionSort (fun a b => listedBefore b a = false) tab.rows
  refine ⟨fun e he => hperm.mem_iff.mp (mem_of_mem_filter he), ?_⟩
  exact ((hperm.map PoolTx.id).nodup_iff.mpr tab.ids_nodup).sublist (filter_sublist.map _)

/-- What holds of a pool and is kept when a stored transaction is removed and times out, holds
without the stuck transactions. -/
theorem removeStuckTransactions_invariant (P : TxPool → Prop) (now : Hash → ℕ)
    (hstep : ∀ pool e, e ∈ pool.table.rows → P pool →
      P { removeEntry pool e (eraseEntry e.id pool.byFee) with timedOut := e.id :: pool.timedOut })
    (h : P pool) : P (removeStuckTransactions now pool) := by
  unfold removeStuckTransactions
  rw [Runs.foldl_foldl_of_commute removeStuck_timeOut]
  obtain ⟨hrows, hids⟩ := listed_filter pool.table fun e => isStuck (now e.id) e.info
  generalize (listed pool.table).filter (fun e => isStuck (now e.id) e.info) = stuck at hrows hids
  induction stuck generalizing pool with
  | nil => exact h
  | cons e rest ih =>
    have he := hrows e mem_cons_self
    rw [map_cons, nodup_cons] at hids
    rw [foldl_cons, removeStuck_timeOut_self (PoolTable.get_eq_some_iff.mpr ⟨he, rfl⟩)]
    refine ih (hstep pool e he h) (fun f hf => ?_) hids.2
    refine PoolTable.mem_remove.mpr ⟨hrows f (mem_cons_of_mem _ hf), ?_⟩
    exact fun hid => hids.1 (hid ▸ mem_map_of_mem hf)

theorem keeps_removeStuckTransactions (h : Good E known pool) (now : Hash → ℕ) :
    Keeps E known pool (removeStuckTransactions now pool) := by
  refine removeStuckTransactions_invariant (fun left => Keeps E known pool left) now ?_ h.keeps
  intro left e he hleft
  have hrem := keeps_removeEntry hleft.1 he
  exact hleft.trans ⟨⟨hrem.1.sound, hrem.1.mirrors.tidy, hrem.1.mirrors.index,
    hrem.1.mirrors.once, hrem.1.mirrors.entries, hrem.1.mirrors.added⟩, hrem.2⟩

/-- A row as its id and its transaction. -/
def entryOf (e : PoolTx) : Hash × Transaction := (e.id, e.tx)

/-- The indexes that `init` has built from some of the rows of a table. -/
structure Built (table : PoolTable) (done : List PoolTx) (pool : TxPool) : Prop where
  table_eq : pool.table = table
  rows : ∀ e ∈ done, e ∈ table.rows
  mirrors : Mirrors (done.map entryOf) pool
  weight : pool.weight = (done.map fun e => e.info.weight).sum

theorem built_initRow (ht : Sound E known tab)
    (h : Built tab done pool) (he : e ∈ tab.rows) (hnew : e ∉ done)
    (hfst : e.info.relayMethod ≠ .block → ∀ f ∈ done, f.info.relayMethod ≠ .block) :
    ∃ pool', initRow E pool e = (true, pool') ∧ Built tab (e :: done) pool' := by
  have hindexed : ∀ k id, id ∈ idsOf pool.spentKeyImages k →
      ∃ f ∈ done, f.id = id ∧ .toKey k ∈ f.tx.vin := by
    intro k id hid
    obtain ⟨tx, htx, hk⟩ := (h.mirrors.index k id).mp hid
    obtain ⟨f, hf, heq⟩ := mem_map.mp htx
    cases heq
    exact ⟨f, hf, rfl, hk⟩
  have hother : ∀ f ∈ done, f.id ≠ e.id := by
    intro f hf hid
    rw [inj_on_of_nodup_map tab.ids_nodup (h.rows f hf) he hid] at hf
    exact hnew hf
  have hins : Insertable pool.table e.id e.info.relayMethod e.tx.vin pool.spentKeyImages := by
    refine ⟨(ht.plain e he).1.keys, ?_, ?_⟩
    · intro hrelay k hk
      left
      refine eq_nil_iff_forall_not_mem.mpr fun id hid => ?_
      obtain ⟨f, hf, -, hk'⟩ := hindexed k id hid
      exact hother f hf (ht.apart f (h.rows f hf) e he (hfst hrelay f hf) hrelay k hk' hk)
    · intro f _ _
      refine ⟨(ht.plain e he).1.nodup, ?_⟩
      intro k _ hid
      obtain ⟨g, hg, hid', -⟩ := hindexed k e.id hid
      exact hother g hg hid'
  obtain ⟨spent, hinsert, htidy, hspent⟩ := insertKeyImages_spec _ _ _ _ _ hins
  have hadded := mirrors_add h.mirrors e.tx
    { feePerByte := E.feePerByte e.info.fee e.info.weight, receiveTime := e.info.receiveTime,
      id := e.id } (htidy h.mirrors.tidy) hspent
  refine ⟨{ addToTransientLists { pool with spentKeyImages := spent }
      { feePerByte := E.feePerByte e.info.fee e.info.weight,
        receiveTime := e.info.receiveTime, id := e.id } with
    weight := pool.weight + e.info.weight }, ?_, ⟨?_, ?_, ?_, ?_⟩⟩
  · rw [initRow, hinsert]
  · exact (addToTransientLists_table _).trans h.table_eq
  · exact forall_mem_cons.mpr ⟨he, h.rows⟩
  · exact ⟨hadded.tidy, hadded.index, hadded.once, hadded.entries, hadded.added⟩
  · change pool.weight + e.info.weight = _
    rw [map_cons, sum_cons, h.weight, Nat.add_comm]

theorem built_initPass (ht : Sound E known tab) (kept : Bool) {rows : List PoolTx}
    (h : Built tab done pool) (hrows : ∀ e ∈ rows, e ∈ tab.rows) (hnd : rows.Nodup)
    (hnew : ∀ e ∈ rows, decide (e.info.relayMethod = .block) = kept → e ∉ done)
    (hfst : kept = false → ∀ f ∈ done, f.info.relayMethod ≠ .block) :
    ∃ pool', initPass E kept rows pool = (true, pool') ∧
      Built tab ((rows.filter fun e => decide (e.info.relayMethod = .block) = kept).reverse ++
        done) pool' := by
  induction rows generalizing done pool with
  | nil => exact ⟨pool, rfl, h⟩
  | cons e rest ih =>
    obtain ⟨hhead, htail⟩ := nodup_cons.mp hnd
    have hrest : ∀ f ∈ rest, f ∈ tab.rows := fun f hf => hrows f (mem_cons_of_mem _ hf)
    by_cases hkind : decide (e.info.relayMethod = .block) = kept
    · have hkind' : e.info.relayMethod ≠ .block → kept = false := by
        intro hne
        rw [← hkind]
        exact decide_eq_false hne
      obtain ⟨next, hrow, hbuilt⟩ := built_initRow ht h (hrows e mem_cons_self)
        (hnew e mem_cons_self hkind) fun hne => hfst (hkind' hne)
      obtain ⟨pool', hpass, hdone⟩ := ih hbuilt hrest htail (by
        intro f hf hk hmem
        rcases mem_cons.mp hmem with rfl | hmem
        · exact hhead hf
        · exact hnew f (mem_cons_of_mem _ hf) hk hmem) (by
        intro hk
        refine forall_mem_cons.mpr ⟨?_, hfst hk⟩
        exact of_decide_eq_false (hkind.trans hk))
      refine ⟨pool', ?_, ?_⟩
      · rw [initPass, if_neg (not_not.mpr hkind.symm), hrow]
        exact hpass
      · rw [filter_cons_of_pos (by simpa using hkind), reverse_cons, append_assoc]
        exact hdone
    · obtain ⟨pool', hpass, hdone⟩ := ih h hrest htail
        (fun f hf => hnew f (mem_cons_of_mem _ hf)) hfst
      refine ⟨pool', ?_, ?_⟩
      · rw [initPass, if_pos fun hk => hkind hk.symm]
        exact hpass
      · rw [filter_cons_of_neg (by simpa using hkind)]
        exact hdone

theorem init_spec (ht : Sound E known pool.table) (maxTxpoolWeight : ℕ) (mineStemTxes : Bool) :
    (init E maxTxpoolWeight mineStemTxes pool).1 = true ∧
      Good E known (init E maxTxpoolWeight mineStemTxes pool).2 ∧
      Weighed (init E maxTxpoolWeight mineStemTxes pool).2 := by
  have hperm : (listed pool.table).Perm pool.table.rows := perm_insertionSort _ _
  have hrows : ∀ e ∈ listed pool.table, e ∈ pool.table.rows := fun e he => hperm.mem_iff.mp he
  have hnd : (listed pool.table).Nodup :=
    hperm.nodup_iff.mpr (List.Nodup.of_map _ pool.table.ids_nodup)
  have hcleared : Built pool.table [] (cleared maxTxpoolWeight pool) :=
    ⟨rfl, by simp, ⟨⟨nodup_nil, by simp [cleared]⟩, by simp [cleared, idsOf], by simp [cleared],
      by simp [cleared], by simp [cleared, clearLogs]⟩, rfl⟩
  obtain ⟨first, hfst, hbuilt⟩ := built_initPass ht false hcleared hrows hnd (by simp) (by simp)
  obtain ⟨second, hsnd, hdone⟩ := built_initPass ht true hbuilt hrows hnd (by
      intro e _ hk hmem
      rw [append_nil, mem_reverse, mem_filter] at hmem
      simp [hk] at hmem)
    (fun h => by cases h)
  -- Both passes together have visited every row.
  have hall : ((listed pool.table).filter (fun e =>
      decide (decide (e.info.relayMethod = .block) = true))).reverse ++
        (((listed pool.table).filter fun e =>
          decide (decide (e.info.relayMethod = .block) = false)).reverse ++ []) ~
      pool.table.rows := by
    have hsplit := filter_append_perm (fun e : PoolTx => decide (e.info.relayMethod = .block))
      (listed pool.table)
    simp only [Bool.decide_eq_true, Bool.decide_eq_false, append_nil]
    exact ((reverse_perm _).append (reverse_perm _)).trans (hsplit.trans hperm)
  have hinit : init E maxTxpoolWeight mineStemTxes pool =
      (true, { second with mineStemTxes := mineStemTxes }) := by
    rw [init, hfst]
    dsimp only
    rw [hsnd]
  rw [hinit]
  have hmirrors : Mirrors (stored second.table) second := by
    refine hdone.mirrors.congr fun p => ?_
    rw [hdone.table_eq]
    exact (hall.map entryOf).mem_iff
  refine ⟨rfl, ⟨?_, ?_⟩, ?_⟩
  · change Sound E known second.table
    rw [hdone.table_eq]
    exact ht
  · exact ⟨hmirrors.tidy, hmirrors.index, hmirrors.once, hmirrors.entries, hmirrors.added⟩
  · change second.weight = rowsWeight second.table
    rw [hdone.weight, hdone.table_eq]
    exact (hall.map fun e => e.info.weight).sum_eq

/-- The calls of the pool. A call that adds comes with the chain it is made on. -/
inductive PoolEvent
  | init (maxTxpoolWeight : ℕ) (mineStemTxes : Bool)
  | addTx (db : Db) (tx : Transaction) (relay : RelayMethod) (relayed : Bool)
      (version nicVersion : ℕ) (clock : Clock)
  | takeTx (id : Hash)
  | prune (bytes : ℕ)
  | removeStuckTransactions (now : Hash → ℕ)
  | setRelayed (hashes : List (Hash × ℕ)) (method : RelayMethod) (now : ℕ)

/-- The pool after a call. -/
def perform (E : Env) (pool : TxPool) : PoolEvent → TxPool
  | .init maxTxpoolWeight mineStemTxes => (init E maxTxpoolWeight mineStemTxes pool).2
  | .addTx db tx relay relayed version nicVersion clock =>
      (addTxOf E db pool tx relay relayed version nicVersion clock).2
  | .takeTx id => (takeTx pool id).2
  | .prune bytes => pruneTo bytes pool
  | .removeStuckTransactions now => removeStuckTransactions now pool
  | .setRelayed hashes method now => setRelayed E hashes method now pool

/-- A transaction that is added is a known one, and the caller has checked it when it says so. -/
def Offered (E : Env) (known : List Transaction) : PoolEvent → Prop
  | .addTx _ tx _ _ version nicVersion _ =>
      tx ∈ known ∧ (version = nicVersion → E.nonInputConsensus tx version = true)
  | _ => True

/-- Whether a transaction has been counted again since the last `init`, after a call. -/
def recounted (E : Env) (pool : TxPool) (drifted : Prop) : PoolEvent → Prop
  | .init _ _ => False
  | .addTx db tx relay _ _ _ _ => drifted ∨ Recounts E db pool tx relay
  | _ => drifted

/-- Whether a transaction has been counted again since the last `init`, after a run. -/
def Drifted (E : Env) : TxPool → Prop → List PoolEvent → Prop
  | _, drifted, [] => drifted
  | pool, drifted, event :: rest =>
      Drifted E (perform E pool event) (recounted E pool drifted event) rest

/-- Every call keeps the indexes, and the weight unless it counts a transaction again. -/
theorem good_perform (hhash : ∀ a ∈ known, ∀ b ∈ known, E.H.txHash a = E.H.txHash b → a = b)
    (hchecked : ∀ tx ∈ known, ∀ ver, E.nonInputConsensus tx ver = true →
      PlainInputs tx.vin ∧ tx.vin ≠ []) (h : Good E known pool) (hw : ¬drifted → Weighed pool)
    {event : PoolEvent} (hevent : Offered E known event) : Good E known (perform E pool event) ∧
      (¬recounted E pool drifted event → Weighed (perform E pool event)) := by
  cases event with
  | init maxTxpoolWeight mineStemTxes =>
    obtain ⟨-, hgood, hweighed⟩ := init_spec h.sound maxTxpoolWeight mineStemTxes
    exact ⟨hgood, fun _ => hweighed⟩
  | addTx db tx relay relayed ver nicVersion clock =>
    obtain ⟨htx, hnic⟩ := hevent
    have hkeeps := keeps_addTx h db relay relayed clock htx hhash (by
      rintro (hsame | hcheck)
      · exact hchecked tx htx ver (hnic hsame)
      · exact hchecked tx htx ver hcheck)
    refine ⟨hkeeps.1, ?_⟩
    intro hnot
    exact hkeeps.2 (fun hr => hnot (Or.inr hr)) (hw fun hd => hnot (Or.inl hd))
  | takeTx id =>
    have hkeeps := keeps_takeTx h id
    exact ⟨hkeeps.1, fun hd => hkeeps.2 (hw hd)⟩
  | prune bytes =>
    have hkeeps := keeps_pruneTo bytes h
    exact ⟨hkeeps.1, fun hd => hkeeps.2 (hw hd)⟩
  | removeStuckTransactions now =>
    have hkeeps := keeps_removeStuckTransactions h now
    exact ⟨hkeeps.1, fun hd => hkeeps.2 (hw hd)⟩
  | setRelayed hashes method now =>
    have hkeeps := keeps_setRelayed h hashes method now
    exact ⟨hkeeps.1, fun hd => hkeeps.2 (hw hd)⟩

/-- Runs keep the indexes, and the weight unless a transaction was counted again. -/
theorem good_run (hhash : ∀ a ∈ known, ∀ b ∈ known, E.H.txHash a = E.H.txHash b → a = b)
    (hchecked : ∀ tx ∈ known, ∀ ver, E.nonInputConsensus tx ver = true →
      PlainInputs tx.vin ∧ tx.vin ≠ []) (h : Good E known pool) (hw : ¬drifted → Weighed pool)
    {evs : List PoolEvent} (hevents : ∀ event ∈ evs, Offered E known event) :
    Good E known (evs.foldl (perform E) pool) ∧
      (¬Drifted E pool drifted evs → Weighed (evs.foldl (perform E) pool)) := by
  induction evs generalizing pool drifted with
  | nil => exact ⟨h, hw⟩
  | cons event rest ih =>
    obtain ⟨hgood, hweighed⟩ := good_perform hhash hchecked h hw (hevents event mem_cons_self)
    exact ih hgood hweighed fun other hother => hevents other (mem_cons_of_mem _ hother)

/-- After `init` on sound tables and every run, the key-image index and the container mirror the
tables, and so does the weight unless a transaction that was stored privately came with a block
while its inputs did not pass. -/
theorem pool_indexes_mirror (E : Env) (known : List Transaction)
    (hhash : ∀ a ∈ known, ∀ b ∈ known, E.H.txHash a = E.H.txHash b → a = b)
    (hchecked : ∀ tx ∈ known, ∀ version, E.nonInputConsensus tx version = true →
      PlainInputs tx.vin ∧ tx.vin ≠ [])
    (pool : TxPool) (htable : Sound E known pool.table) (maxTxpoolWeight : ℕ)
    (mineStemTxes : Bool) (events : List PoolEvent)
    (hevents : ∀ event ∈ events, Offered E known event) (start reached : TxPool)
    (hstart : perform E pool (.init maxTxpoolWeight mineStemTxes) = start)
    (hreached : events.foldl (perform E) start = reached) :
    Mirrors (stored reached.table) reached ∧
      (¬Drifted E start False events → reached.weight = rowsWeight reached.table) := by
  subst hstart hreached
  obtain ⟨-, hgood, hweighed⟩ := init_spec htable maxTxpoolWeight mineStemTxes
  obtain ⟨hgood', hweighed'⟩ := good_run hhash hchecked hgood (fun _ => hweighed) hevents
  exact ⟨hgood'.mirrors, hweighed'⟩

/-- A node whose chain grows by a block after which no inputs pass. -/
def growingEnv : Env :=
  { toyEnv with
    checkTxInputs := fun blocks tx _ => if blocks.length ≤ 1 then ToyNode.toyInputs tx else none }

/-- The chain of one block, and with one more. -/
def shortDb : Db := ToyNode.startNode.db

def longDb : Db :=
  { shortDb with blocks := ⟨ToyNode.blockOf [], []⟩ :: shortDb.blocks }

def sampleTx : Transaction := nativeTx 3 []

/-- A transaction arrives on the stem and is broadcast. -/
def sampleEvents : List PoolEvent :=
  [.addTx shortDb sampleTx .stem true 17 17 clock,
    .setRelayed [(growingEnv.H.txHash sampleTx, 9)] .fluff 5, .prune 0]

theorem pool_indexes_sample : ∃ start reached,
    perform growingEnv emptyPool (.init 0 false) = start ∧
      sampleEvents.foldl (perform growingEnv) start = reached ∧
      reached.table.rows.length = 1 ∧ Mirrors (stored reached.table) reached ∧
      reached.weight = rowsWeight reached.table := by
  refine ⟨_, _, rfl, rfl, by decide +kernel, ?_⟩
  have hmirror := pool_indexes_mirror growingEnv [sampleTx] (by simp) (by
      intro tx htx version _
      obtain rfl := mem_singleton.mp htx
      exact ⟨⟨by simp [sampleTx, nativeTx], by simp [sampleTx, nativeTx]⟩,
        by simp [sampleTx, nativeTx]⟩)
    emptyPool ⟨by simp [emptyPool, empty],
      by simp [emptyPool, empty], by simp [emptyPool, empty],
      by simp [emptyPool, empty]⟩ 0 false sampleEvents
    (by simp [sampleEvents, Offered, growingEnv, toyEnv]) _ _ rfl rfl
  exact ⟨hmirror.1, hmirror.2 (by simp [sampleEvents, Drifted, recounted, Recounts])⟩

/-- The same transaction comes with a block after its inputs have stopped to pass: it is stored
once and counted twice. -/
theorem pool_weight_counted_again :
    ∃ start reached, perform growingEnv emptyPool (.init 0 false) = start ∧
      [PoolEvent.addTx shortDb sampleTx .stem true 17 17 clock,
        .addTx longDb sampleTx .block true 17 17 clock].foldl (perform growingEnv) start =
          reached ∧
      reached.table.rows.length = 1 ∧ rowsWeight reached.table = 100 ∧ reached.weight = 200 := by
  refine ⟨_, _, rfl, rfl, ?_, ?_, ?_⟩
  · decide +kernel
  · decide +kernel
  · decide +kernel

end Monzero.PoolRuns
