import Monzero.ChainTables
import Monzero.NodeRuns
import Monzero.PoolAccounts

/-!
The chain as a stack of accepted blocks. What a block was accepted for does not depend on
whether its transactions came from the pool or with the block, so a chain can be described
without the pools its blocks met. In every run of a node the chain is such a stack, popping
a block uncovers exactly the chain below it, and no two payloads on it issue the same asset
or spend the same key image.
-/
namespace Monzero.AcceptedChain

open IndexedTable Primitives AssetTypes AssetRegistry AssetWire AssetDb AssetApplication AssetRuns
  ChainTables TxExtra TxMemoryPool PoolRows PoolAssets PoolAccounts Blockchain BlockHandling
  NodeRuns Runs List
open BlockchainDb (addBlock height)

def payloadsOf (E : Env) (version : ℕ) (txs : List Transaction) :
    List (AssetTransactionPayload Key × Hash) :=
  txs.filterMap fun tx =>
    match blockPayload E version tx with
    | .ok (some p) => some (p, p.carrierPrefixHash)
    | _ => none

structure Accepted (E : Env) (db : Db) (b : StoredBlock) (t : AssetTables Key) : Prop where
  header : E.checkHeader db.blocks b.block = true
  listed : b.block.txHashes = b.txs.map E.H.txHash
  fresh : ∀ tx ∈ b.txs, txExists E db (E.H.txHash tx) = false
  parsed : ∀ tx ∈ b.txs, ∃ payload, blockPayload E (E.hardFork db.blocks) tx = .ok payload
  inputs : ∀ tx ∈ b.txs, E.fastCheck db.blocks b.block = true ∨
    E.checkTxInputs db.blocks tx false ≠ none
  miner : E.checkMinerTx db.blocks b.block (b.txs.map E.txWeight).sum
    (b.txs.map fun tx => (E.fee tx).getD 0).sum = true
  applied : applyAssetPayloads E.C E.assetNetwork db.height
    (payloadsOf E (E.hardFork db.blocks) b.txs) db.assets = (.ok (), t)
  storable : E.canStore db.blocks b = true

/-- A transaction as it is collected for a block. -/
structure Collected (E : Env) (db : Db) (version : ℕ) (fast : Bool) (t : Taken) : Prop where
  id : t.id = E.H.txHash t.tx
  weight : t.weight = E.txWeight t.tx
  fee : t.fee = (E.fee t.tx).getD 0
  payload : blockPayload E version t.tx = .ok t.payload
  inputs : fast = true ∨ E.checkTxInputs db.blocks t.tx false ≠ none
  fresh : txExists E db t.id = false

variable (E : Env) (version : ℕ) (base db : Db) (bs : List StoredBlock)

theorem findTx_accounted (s s' : Collecting) (id : Hash) (found : Taken)
    (hpool : Canonical E s.pool.table) (h : findTx E s id = some (found, s')) :
    found.id = id ∧ id = E.H.txHash found.tx ∧ found.weight = E.txWeight found.tx ∧
      found.fee = (E.fee found.tx).getD 0 ∧ s'.taken = s.taken ∧ Canonical E s'.pool.table := by
  unfold findTx takeTx at h
  cases hget : s.pool.table.get id with
  | some e =>
    obtain ⟨he, hid⟩ := PoolTable.get_eq_some_iff.mp hget
    obtain ⟨hacct, hwt, hfee⟩ := hpool e he
    simp only [hget, Option.some.injEq, Prod.mk.injEq] at h
    obtain ⟨rfl, rfl⟩ := h
    refine ⟨rfl, hid.symm.trans hacct, hwt, by simp [hfee], rfl, ?_⟩
    exact hpool.subset fun f hf => (PoolTable.mem_remove.mp hf).1
  | none =>
    simp only [hget] at h
    split at h
    · cases h
    · rename_i tx hfind
      cases h
      have hhash : E.H.txHash tx = id := by simpa using find?_some hfind
      exact ⟨rfl, hhash.symm, rfl, rfl, rfl, hpool⟩

theorem collectTxs_collected (db : Db) (ver : ℕ) (fast : Bool) (ids : List Hash) (s s' : Collecting)
    (hpool : Canonical E s.pool.table) (h : collectTxs E db ver fast ids s = (.ok (), s')) :
    ∃ added, s'.taken = s.taken ++ added ∧ added.map Taken.id = ids ∧
      ∀ t ∈ added, Collected E db ver fast t := by
  induction ids generalizing s with
  | nil =>
    cases h
    exact ⟨[], by simp, rfl, by simp⟩
  | cons id rest ih =>
    obtain ⟨hfresh, found, next, pl, hfind, hpay, hins, hrest⟩ :=
      (collectTxs_cons_eq_ok ..).mp h
    obtain ⟨hid, hhash, hwt, hfee, htaken, hnext⟩ := findTx_accounted E s next id found hpool hfind
    obtain ⟨added, hadded, hids, hall⟩ := ih _ (by exact hnext) hrest
    refine ⟨{ found with payload := pl } :: added, ?_, ?_, ?_⟩
    · rw [hadded, htaken, append_assoc, singleton_append]
    · rw [map_cons, hids, hid]
    · rw [forall_mem_cons]
      exact ⟨⟨hid.trans hhash, hwt, hfee, hpay, hins, hid ▸ hfresh⟩, hall⟩

theorem assetPayloads_eq (taken : List Taken)
    (h : ∀ t ∈ taken, blockPayload E version t.tx = .ok t.payload) :
    assetPayloads taken = payloadsOf E version (taken.map Taken.tx) := by
  rw [assetPayloads, payloadsOf, filterMap_map]
  refine filterMap_congr fun t ht => ?_
  simp only [Function.comp_apply, h t ht]
  cases t.payload with
  | none => rfl
  | some p => rfl

theorem accepted_of_handled {node : Node} {block : Block} {supp : List Transaction}
    {s : Collecting} {t : AssetTables Key} (hpool : Canonical E node.pool.table)
    (h : Handled E node block supp s t) :
    Accepted E node.db { block := block, txs := s.taken.map Taken.tx } t := by
  obtain ⟨added, hadded, hids, hall⟩ := collectTxs_collected E node.db _ _ _ _ s hpool h.collected
  rw [nil_append] at hadded
  subst hadded
  have hmem : ∀ tx ∈ s.taken.map Taken.tx, ∃ u ∈ s.taken, u.tx = tx :=
    fun tx htx => mem_map.mp htx
  have hminer := h.miner
  have happ := h.applied
  rw [assetPayloads_eq E _ s.taken fun u hu => (hall u hu).payload] at happ
  rw [map_congr_left fun u hu => (hall u hu).weight,
    map_congr_left fun u hu => (hall u hu).fee] at hminer
  refine ⟨h.header, ?_, ?_, ?_, ?_, ?_, happ, h.storable⟩
  · rw [map_map, ← hids]
    exact map_congr_left fun u hu => (hall u hu).id
  · intro tx htx
    obtain ⟨u, hu, rfl⟩ := hmem tx htx
    exact (hall u hu).id ▸ (hall u hu).fresh
  · intro tx htx
    obtain ⟨u, hu, rfl⟩ := hmem tx htx
    exact ⟨_, (hall u hu).payload⟩
  · intro tx htx
    obtain ⟨u, hu, rfl⟩ := hmem tx htx
    exact (hall u hu).inputs
  · rw [map_map, map_map]
    exact hminer

variable {E} in
theorem collectTxs_pooled {db : Db} {version : ℕ} {fast : Bool} {txs : List Transaction}
    (s : Collecting) (hnd : (txs.map E.H.txHash).Nodup)
    (hpooled : ∀ tx ∈ txs, (E.H.txHash tx, tx) ∈ stored s.pool.table)
    (hfresh : ∀ tx ∈ txs, txExists E db (E.H.txHash tx) = false)
    (hprs : ∀ tx ∈ txs, ∃ payload, blockPayload E version tx = .ok payload)
    (hins : ∀ tx ∈ txs, fast = true ∨ E.checkTxInputs db.blocks tx false ≠ none) :
    ∃ s', collectTxs E db version fast (txs.map E.H.txHash) s = (.ok (), s') ∧
      s'.taken.map Taken.tx = s.taken.map Taken.tx ++ txs := by
  induction txs generalizing s with
  | nil => exact ⟨s, rfl, by simp⟩
  | cons tx rest ih =>
    simp only [forall_mem_cons] at hpooled hfresh hprs hins
    rw [map_cons, nodup_cons] at hnd
    obtain ⟨e, he, hid, htx⟩ := mem_stored.mp hpooled.1
    obtain ⟨payload, hpay⟩ := hprs.1
    have hget := PoolTable.get_eq_some_iff.mpr ⟨he, hid⟩
    have hfind : findTx E s (E.H.txHash tx) = some
        ({ id := E.H.txHash tx, tx := tx, weight := e.info.weight, fee := e.info.fee,
           fromPool := true, payload := none },
          { s with pool := removeEntry s.pool e (eraseEntry (E.H.txHash tx) s.pool.byFee) }) := by
      simp [findTx, takeTx, hget, htx]
    have hleft : ∀ tx' ∈ rest, (E.H.txHash tx', tx') ∈
        stored (removeEntry s.pool e (eraseEntry (E.H.txHash tx) s.pool.byFee)).table := by
      intro tx' htx'
      obtain ⟨f, hf, hfid, hftx⟩ := mem_stored.mp (hpooled.2 tx' htx')
      refine mem_stored.mpr ⟨f, PoolTable.mem_remove.mpr ⟨hf, ?_⟩, hfid, hftx⟩
      rw [hfid, hid]
      intro hsame
      exact hnd.1 (hsame ▸ mem_map_of_mem htx')
    obtain ⟨s', hcol, htaken⟩ := ih
      { pool := removeEntry s.pool e (eraseEntry (E.H.txHash tx) s.pool.byFee)
        supplement := s.supplement
        taken := s.taken ++ [{ id := E.H.txHash tx, tx := tx, weight := e.info.weight,
                               fee := e.info.fee, fromPool := true, payload := payload }] }
      hnd.2 hleft hfresh.2 hprs.2 hins.2
    refine ⟨s', (collectTxs_cons_eq_ok ..).mpr
      ⟨hfresh.1, _, _, payload, hfind, hpay, hins.1, hcol⟩, ?_⟩
    rw [htaken, map_append, append_assoc]
    rfl

/-- A block that was accepted once is accepted again on the same chain, with its transactions
taken from the pool. -/
theorem handled_of_accepted {db : Db} {b : StoredBlock} {t : AssetTables Key} {pool : TxPool}
    (hpool : Canonical E pool.table) (hnd : (b.txs.map E.H.txHash).Nodup)
    (hpooled : ∀ tx ∈ b.txs, (E.H.txHash tx, tx) ∈ stored pool.table) (h : Accepted E db b t) :
    ∃ s, Handled E { db := db, pool := pool } b.block [] s t ∧ s.taken.map Taken.tx = b.txs := by
  obtain ⟨s, hcol, htxs⟩ := collectTxs_pooled { pool := pool, supplement := [], taken := [] } hnd
    hpooled h.fresh h.parsed h.inputs
  rw [← h.listed] at hcol
  obtain ⟨added, hadded, -, hall⟩ := collectTxs_collected E db _ _ _ _ s hpool hcol
  rw [nil_append] at hadded
  subst hadded
  rw [map_nil, nil_append] at htxs
  refine ⟨s, ⟨h.header, Or.inr (by simp), hcol, ?_, ?_, ?_⟩, htxs⟩
  · rw [map_congr_left fun u hu => (hall u hu).weight, map_congr_left fun u hu => (hall u hu).fee]
    have hminer := h.miner
    rw [← htxs, map_map, map_map] at hminer
    exact hminer
  · rw [assetPayloads_eq E _ s.taken fun u hu => (hall u hu).payload, htxs]
    exact h.applied
  · rw [htxs]
    exact h.storable

/-- A chain that accepted blocks on top of another one, the blocks newest first. -/
inductive Built (E : Env) (base : Db) : List StoredBlock → Db → Prop
  | base : Built E base [] base
  | block {bs : List StoredBlock} {db : Db} {b : StoredBlock} {t : AssetTables Key}
      (below : Built E base bs db) (accepted : Accepted E db b t) :
      Built E base (b :: bs) (addBlock { db with assets := t } b)

theorem built_blocks (h : Built E base bs db) : db.blocks = bs ++ base.blocks := by
  induction h with
  | base => rfl
  | block below accepted ih => simp [addBlock, ih]

theorem built_split (h : Built E base bs db) (k : ℕ) (hk : k ≤ bs.length) :
    ∃ mid, Built E base (bs.drop k) mid ∧ Built E mid (bs.take k) db := by
  induction h generalizing k with
  | base => exact ⟨base, by simpa using Built.base, by simpa using Built.base⟩
  | @block bs db b t below accepted ih =>
    cases k with
    | zero => exact ⟨_, by simpa using Built.block below accepted, by simpa using Built.base⟩
    | succ k =>
      obtain ⟨mid, hlow, hhigh⟩ := ih k (by simpa using hk)
      exact ⟨mid, hlow, Built.block hhigh accepted⟩

theorem below_built (h : Built E base bs db) (hbelow : base.assets.Below base.height) :
    db.assets.Below db.height := by
  induction h with
  | base => exact hbelow
  | @block bs db b t below accepted ih =>
    exact below_applyAssetPayloads E.C E.assetNetwork db.height
      (below_mono _ _ (Nat.le_succ _) ih) accepted.applied

theorem popBlock_accepted (db : Db) (b : StoredBlock) (t : AssetTables Key)
    (hbelow : db.assets.Below db.height) (h : Accepted E db b t) :
    (addBlock { db with assets := t } b).popBlock = db := by
  have hundo := removeFromHeight_of_extended db.height db.assets t hbelow
    (extended_applyAssetPayloads E.C E.assetNetwork db.height _ db.assets t () h.applied)
  simp only [BlockchainDb.popBlock, addBlock, height, length_cons,
    Nat.add_sub_cancel, tail_cons] at hundo ⊢
  rw [hundo]

theorem pop_db {clock : Clock} {node node' : Node}
    (h : popBlockFromBlockchain E clock node = some node') :
    node'.db = node.db.popBlock ∧ 2 ≤ node.db.height := by
  unfold popBlockFromBlockchain at h
  split at h
  · rename_i top below rest hblks
    cases h
    refine ⟨afterChange_db E clock _ _, ?_⟩
    simp [height, hblks]
  · cases h

/-- A node whose chain was built from accepted blocks and whose pool is accounted for. -/
structure Grown (E : Env) (genesis : Db) (node : Node) : Prop where
  chain : ∃ bs, Built E genesis bs node.db
  pool : Canonical E node.pool.table

theorem grown_step (genesis : Db) (node node' : Node) (event : NodeEvent)
    (hsingle : genesis.height = 1) (hbelow : genesis.assets.Below genesis.height)
    (hstep : NodeStep E node event node') (h : Grown E genesis node) : Grown E genesis node' := by
  obtain ⟨⟨bs, hbuilt⟩, hpool⟩ := h
  cases hstep with
  | add tx relay rld nic clock =>
    exact ⟨⟨bs, hbuilt⟩, canonical_addTx E node.db node.pool tx _ _ relay rld _ nic
      clock rfl rfl hpool⟩
  | block =>
    rename_i block supplement clock accepted
    refine ⟨?_, canonical_block E clock accepted hpool⟩
    obtain ⟨s, t, hhandled, rfl⟩ := (handle_eq_ok ..).mp accepted
    rw [afterChange_db]
    exact ⟨_, .block hbuilt (accepted_of_handled E hpool hhandled)⟩
  | pop =>
    rename_i clock popped
    refine ⟨?_, canonical_pop E clock node node' popped hpool⟩
    obtain ⟨hdb, hht⟩ := pop_db E popped
    rw [hdb]
    obtain ⟨ndb, npool⟩ := node
    dsimp only at hbuilt hht ⊢
    cases hbuilt with
    | base => omega
    | block below accepted =>
      rw [popBlock_accepted E _ _ _ (below_built E genesis _ _ below hbelow) accepted]
      exact ⟨_, below⟩

/-- In every run from a genesis block the chain is a stack of accepted blocks. -/
theorem grown_run {start node : Node} {evs : List NodeEvent}
    (run : Run (NodeStep E) start evs node) (hsingle : start.db.height = 1)
    (hbelow : start.db.assets.Below start.db.height) (hpool : Canonical E start.pool.table) :
    Grown E start.db node :=
  run.invariant (Grown E start.db) (fun _ => True)
    (fun s e s' hs _ hstep => grown_step E start.db s s' e hsingle hbelow hstep hs)
    (fun _ _ => trivial) ⟨⟨[], .base⟩, hpool⟩

/-- The payloads applied so far are compatible with each other, and what they issued and spent
is in the tables. -/
structure Separate (C : Crypto Key) (history : List (AssetTransactionPayload Key × Hash))
    (t : AssetTables Key) : Prop where
  compatible : history.Pairwise fun a b => Compatible C a.1 b.1
  issued : ∀ a ∈ history, ∀ i, a.1.issuance = some i →
    ∃ id, deriveAssetId C i.descriptor = .ok id ∧ t.records.contains id = true
  spent : ∀ a ∈ history, ∀ proof ∈ a.1.ownershipProofs,
    t.keyImages.contains proof.keyImage = true

private theorem contains_append {κ ν : Type} [DecidableEq κ] {t u : Table κ ν}
    {added : List (Row κ ν)} (h : u.rows = t.rows ++ added) (key : κ) :
    u.contains key = true ↔ t.contains key = true ∨ ∃ r ∈ added, r.key = key := by
  simp only [Table.contains_iff, h, mem_append, or_and_right, exists_or]

theorem separate_apply {C : Crypto Key} {net : NetworkType}
    {history : List (AssetTransactionPayload Key × Hash)} {t t' : AssetTables Key}
    {p : AssetTransactionPayload Key} {car : Hash} {height : ℕ} {ids : List Hash}
    (hs : Separate C history t)
    (h : applyAssetTransactionToDb C t p net car height = (.ok ids, t')) :
    Separate C (history ++ [(p, car)]) t' := by
  obtain ⟨issued, hprep, ⟨hrecFresh, hkiFresh, -⟩, hadded⟩ := apply_eq_ok.mp h
  obtain ⟨reg, -, hiss, -⟩ := (prepare_eq_ok ..).mp hprep
  have hown : ∀ i, p.issuance = some i → ∃ id, deriveAssetId C i.descriptor = .ok id ∧
      t.records.contains id = false ∧ t'.records.contains id = true := by
    intro i hi
    rcases (prepareIssuance_eq_ok ..).mp hiss with ⟨hnone, -⟩ | ⟨j, r, id, enc, hj, happly, -, rfl⟩
    · rw [hi] at hnone
      cases hnone
    · obtain rfl : i = j := by simpa using hi.symm.trans hj
      refine ⟨id, (Registry.applyIssuance_eq_ok.mp happly).1,
        hrecFresh.1 _ (mem_singleton_self _), ?_⟩
      exact (contains_append hadded.records id).mpr (Or.inr ⟨_, mem_singleton_self _, rfl⟩)
  have hnew : ∀ pf ∈ p.ownershipProofs, t.keyImages.contains pf.keyImage = false ∧
      t'.keyImages.contains pf.keyImage = true := by
    intro pf hpf
    have hrow : ({ key := pf.keyImage, height := height, value := () } : Row Key Unit) ∈
        keyImageRows p height := mem_map.mpr ⟨pf, hpf, rfl⟩
    exact ⟨hkiFresh.1 _ hrow, (contains_append hadded.keyImages _).mpr (Or.inr ⟨_, hrow, rfl⟩)⟩
  refine ⟨?_, ?_, ?_⟩
  · rw [pairwise_append]
    refine ⟨hs.compatible, pairwise_singleton _ _, ?_⟩
    intro a ha b hb
    rw [mem_singleton.mp hb]
    refine ⟨fun i j hi hj => ?_, fun pf hpf pf' hpf' hsame => ?_⟩
    · obtain ⟨id, hid, hold⟩ := hs.issued a ha i hi
      obtain ⟨id', hid', hfresh, -⟩ := hown j hj
      refine ⟨id, id', hid, hid', fun hsame => ?_⟩
      rw [hsame, hfresh] at hold
      cases hold
    · have hold := hs.spent a ha pf hpf
      rw [hsame, (hnew pf' hpf').1] at hold
      cases hold
  · intro a ha i hi
    rcases mem_append.mp ha with ha | ha
    · obtain ⟨id, hid, hold⟩ := hs.issued a ha i hi
      exact ⟨id, hid, (contains_append hadded.records id).mpr (Or.inl hold)⟩
    · rw [mem_singleton.mp ha] at hi
      obtain ⟨id, hid, -, hst⟩ := hown i hi
      exact ⟨id, hid, hst⟩
  · intro a ha pf hpf
    rcases mem_append.mp ha with ha | ha
    · exact (contains_append hadded.keyImages _).mpr (Or.inl (hs.spent a ha pf hpf))
    · rw [mem_singleton.mp ha] at hpf
      exact (hnew pf hpf).2

/-- The payloads in the envelopes of some transactions after activation. -/
def envelopes (E : Env) (txs : List Transaction) : List (AssetTransactionPayload Key × Hash) :=
  payloadsOf E hfVersionMonzeroAssets txs

theorem blockPayload_of_active (tx : Transaction) (h : hfVersionMonzeroAssets ≤ version) :
    blockPayload E version tx = envelope E tx := by
  rw [blockPayload, if_pos h, payload_of_active E tx h]

theorem payloadsOf_of_active {txs : List Transaction} (h : hfVersionMonzeroAssets ≤ version) :
    payloadsOf E version txs = envelopes E txs := by
  simp [envelopes, payloadsOf, blockPayload_of_active E version _ h,
    blockPayload_of_active E hfVersionMonzeroAssets _ (le_refl _)]

/-- Assets were active for every block of a stack and are active on top of it. -/
def ActiveFrom (E : Env) (blocks : List StoredBlock) (k : ℕ) : Prop :=
  ∀ j ≤ k, hfVersionMonzeroAssets ≤ E.hardFork (blocks.drop j)

theorem ActiveFrom.tail {E : Env} {b : StoredBlock} {blocks : List StoredBlock} {k : ℕ}
    (h : ActiveFrom E (b :: blocks) (k + 1)) : ActiveFrom E blocks k :=
  fun j hj => h (j + 1) (Nat.succ_le_succ hj)

theorem separate_built (h : Built E base bs db) (hact : ActiveFrom E db.blocks bs.length) :
    Separate E.C (envelopes E (bs.reverse.flatMap StoredBlock.txs)) db.assets := by
  induction h with
  | base => exact ⟨by simp [envelopes, payloadsOf], by simp [envelopes, payloadsOf],
      by simp [envelopes, payloadsOf]⟩
  | @block bs db b t below accepted ih =>
    have hbelow := ih hact.tail
    have hver : hfVersionMonzeroAssets ≤ E.hardFork db.blocks :=
      hact 1 (by simp)
    have happ := accepted.applied
    rw [payloadsOf_of_active E _ hver] at happ
    have happend : envelopes E ((b :: bs).reverse.flatMap StoredBlock.txs) =
        envelopes E (bs.reverse.flatMap StoredBlock.txs) ++ envelopes E b.txs := by
      simp [envelopes, payloadsOf]
    rw [happend]
    exact applyAssetPayloads_history E.C E.assetNetwork db.height (Separate E.C)
      (fun history t p car height ids t' hs happly =>
        separate_apply hs happly)
      _ _ _ _ () hbelow happ

/-- The payloads of two transactions, if both have one, are compatible. -/
def CompatibleTxs (E : Env) (tx tx' : Transaction) : Prop :=
  ∀ p q, envelope E tx = .ok (some p) → envelope E tx' = .ok (some q) → Compatible E.C p q

instance (E : Env) : Std.Symm (CompatibleTxs E) :=
  ⟨fun _ _ h p q hp hq => (h q p hq hp).symm⟩

/-- Transactions whose envelopes parse and whose payloads are compatible with each other. -/
structure Mutual (E : Env) (txs : List Transaction) : Prop where
  parsed : ∀ tx ∈ txs, ∃ payload, envelope E tx = .ok payload
  compatible : ∀ tx ∈ txs, ∀ tx' ∈ txs, tx ≠ tx' → CompatibleTxs E tx tx'

theorem parsed_built (h : Built E base bs db) (hact : ActiveFrom E db.blocks bs.length) :
    ∀ tx ∈ bs.flatMap StoredBlock.txs, ∃ pl, envelope E tx = .ok pl := by
  induction h with
  | base => simp
  | @block bs db b t below accepted ih =>
    intro tx htx
    rw [flatMap_cons, mem_append] at htx
    rcases htx with htx | htx
    · rw [← blockPayload_of_active E (E.hardFork db.blocks) tx (hact 1 (by simp))]
      exact accepted.parsed tx htx
    · exact ih hact.tail tx htx

theorem mutual_built (h : Built E base bs db) (hact : ActiveFrom E db.blocks bs.length) :
    Mutual E (bs.flatMap StoredBlock.txs) := by
  refine ⟨parsed_built E base db bs h hact, ?_⟩
  have hpairs := (separate_built E base db bs h hact).compatible
  rw [envelopes, payloadsOf, pairwise_filterMap] at hpairs
  have hall : (bs.reverse.flatMap StoredBlock.txs).Pairwise (CompatibleTxs E) := by
    refine hpairs.imp ?_
    intro tx tx' hcompatible p q hp hq
    exact hcompatible (p, p.carrierPrefixHash)
      (by rw [blockPayload_of_active E _ tx (le_refl _), hp]) (q, q.carrierPrefixHash)
      (by rw [blockPayload_of_active E _ tx' (le_refl _), hq])
  have hmem : ∀ tx, tx ∈ bs.flatMap StoredBlock.txs → tx ∈ bs.reverse.flatMap StoredBlock.txs := by
    intro tx htx
    obtain ⟨b, hb, hin⟩ := mem_flatMap.mp htx
    exact mem_flatMap.mpr ⟨b, mem_reverse.mpr hb, hin⟩
  intro tx htx tx' htx' hne
  exact hall.forall (hmem tx htx) (hmem tx' htx') hne

end Monzero.AcceptedChain
