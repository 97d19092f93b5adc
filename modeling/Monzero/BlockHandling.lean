import Monzero.Blockchain
import Monzero.PoolRows

/-!
What an accepted block has gone through. `handle_block_to_main_chain` succeeds exactly
when the header, the transactions, the miner transaction, the asset payloads and the
store all pass, and the result is then determined by them. The transactions it collects
leave the pool; no other transaction does.
-/
namespace Monzero.BlockHandling

open Primitives AssetWire AssetDb AssetRuns TxExtra TxMemoryPool PoolRows Blockchain

/-- The payloads of a block, from the pool or from what came with it. -/
def blockPayloads (E : Env) (node : Node) (block : Block) (supplement : List Transaction) :
    List (AssetTransactionPayload Key × Hash) :=
  assetPayloads (collectTxs E node.db (E.hardFork node.db.blocks)
    (E.fastCheck node.db.blocks block) block.txHashes
    { pool := node.pool, supplement := supplement, taken := [] }).2.taken

theorem assetPayloads_carrier (taken : List Taken)
    (q : AssetTransactionPayload Key × Hash) (hq : q ∈ assetPayloads taken) :
    q.2 = q.1.carrierPrefixHash := by
  obtain ⟨t, -, hpay⟩ := List.mem_filterMap.mp hq
  obtain ⟨p, -, rfl⟩ := Option.map_eq_some_iff.mp hpay
  rfl

/-- The checks of a block that passed, with the transactions collected for it and the tables
its payloads lead to. -/
structure Handled (E : Env) (node : Node) (block : Block) (supplement : List Transaction)
    (s : Collecting) (t : AssetTables Key) : Prop where
  header : E.checkHeader node.db.blocks block = true
  consensus : E.fastCheck node.db.blocks block = true ∨
    ∀ tx ∈ supplement, E.nonInputConsensus tx (E.hardFork node.db.blocks) = true
  collected : collectTxs E node.db (E.hardFork node.db.blocks) (E.fastCheck node.db.blocks block)
    block.txHashes { pool := node.pool, supplement := supplement, taken := [] } = (.ok (), s)
  miner : E.checkMinerTx node.db.blocks block (s.taken.map Taken.weight).sum
    (s.taken.map Taken.fee).sum = true
  applied : applyAssetPayloads E.C E.assetNetwork node.db.height (assetPayloads s.taken)
    node.db.assets = (.ok (), t)
  storable : E.canStore node.db.blocks { block := block, txs := s.taken.map Taken.tx } = true

/-- The database after an accepted block. -/
def extend (db : Db) (block : Block) (taken : List Taken) (t : AssetTables Key) : Db :=
  BlockchainDb.addBlock { db with assets := t } { block := block, txs := taken.map Taken.tx }

variable (E : Env) (db : Db) (ver : ℕ) (fast : Bool)

theorem handle_eq_ok (clock : Clock) (node node' : Node) (block : Block) (supp : List Transaction) :
    handleBlockToMainChain E clock node block supp = (.ok (), node') ↔
      ∃ s t, Handled E node block supp s t ∧ node' = afterChange E clock
        (E.hardFork node.db.blocks) { db := extend node.db block s.taken t, pool := s.pool } := by
  unfold handleBlockToMainChain
  dsimp only
  constructor
  · intro h
    split at h
    · cases h
    · rename_i hheader
      split at h
      · cases h
      · rename_i hconsensus
        split at h
        · cases h
        · rename_i s hcol
          split at h
          · cases h
          · rename_i hminer
            split at h
            · cases h
            · rename_i t happ
              split at h
              · cases h
              · rename_i hstore
                cases h
                refine ⟨s, t, ⟨by simpa using hheader, ?_, hcol, by simpa using hminer,
                  happ, by simpa using hstore⟩, rfl⟩
                cases hfast : E.fastCheck node.db.blocks block with
                | true => exact Or.inl rfl
                | false =>
                  right
                  simpa [hfast] using hconsensus
  · rintro ⟨s, t, h, rfl⟩
    have hconsensus : ¬(E.fastCheck node.db.blocks block = false ∧ (supp.any fun tx =>
        E.nonInputConsensus tx (E.hardFork node.db.blocks) = false) = true) := by
      intro hfail
      rcases h.consensus with hfast | hall
      · simp [hfast] at hfail
      · obtain ⟨tx, htx, hfalse⟩ := List.any_eq_true.mp hfail.2
        simp [hall tx htx] at hfalse
    rw [if_neg (by simp [h.header]), if_neg hconsensus, h.collected]
    simp only [h.miner, h.applied, h.storable, Bool.true_eq_false, if_false]
    rfl

/-- A transaction found for a block is no longer in the pool, and nothing else leaves it. -/
theorem findTx_pool (s s' : Collecting) (id : Hash) (found : Taken)
    (h : findTx E s id = some (found, s')) (e : PoolTx) :
    e ∈ s'.pool.table.rows ↔ e ∈ s.pool.table.rows ∧ e.id ≠ id := by
  unfold findTx takeTx at h
  cases hget : s.pool.table.get id with
  | some row =>
    obtain ⟨-, hid⟩ := PoolTable.get_eq_some_iff.mp hget
    rw [hget] at h
    simp only [Option.some.injEq, Prod.mk.injEq] at h
    obtain ⟨-, rfl⟩ := h
    rw [← hid]
    exact PoolTable.mem_remove
  | none =>
    have hnone := PoolTable.get_eq_none_iff.mp hget
    rw [hget] at h
    dsimp only at h
    split at h
    · cases h
    · simp only [Option.some.injEq, Prod.mk.injEq] at h
      obtain ⟨-, rfl⟩ := h
      exact ⟨fun he => ⟨he, hnone e he⟩, fun he => he.1⟩

theorem collectTxs_cons_eq_ok (id : Hash) (rest : List Hash) (s s' : Collecting) :
    collectTxs E db ver fast (id :: rest) s = (.ok (), s') ↔
      txExists E db id = false ∧ ∃ found next pl, findTx E s id = some (found, next) ∧
        blockPayload E ver found.tx = .ok pl ∧
        (fast = true ∨ E.checkTxInputs db.blocks found.tx false ≠ none) ∧
        collectTxs E db ver fast rest
          { next with taken := next.taken ++ [{ found with payload := pl }] } =
            (.ok (), s') := by
  rw [collectTxs]
  cases txExists E db id with
  | true => simp
  | false =>
    cases findTx E s id with
    | none => simp
    | some result =>
      obtain ⟨found, next⟩ := result
      simp only [Bool.false_eq_true, if_false, Option.some.injEq, Prod.mk.injEq, true_and]
      cases hpay : blockPayload E ver found.tx with
      | error message =>
        constructor
        · intro h
          cases h
        · rintro ⟨_, _, pl, ⟨rfl, rfl⟩, hok, -⟩
          rw [hpay] at hok
          cases hok
      | ok pl =>
        by_cases hins : fast = false ∧ E.checkTxInputs db.blocks found.tx false = none
        · simp only [hins, and_self, if_true, Prod.mk.injEq, reduceCtorEq, false_and, false_iff]
          rintro ⟨_, _, _, ⟨rfl, rfl⟩, -, hor, -⟩
          simp [hins.2] at hor
        · have hor : fast = true ∨ E.checkTxInputs db.blocks found.tx false ≠ none := by
            cases fast with
            | true => exact Or.inl rfl
            | false => exact Or.inr fun hnone => hins ⟨rfl, hnone⟩
          simp only [if_neg hins]
          constructor
          · intro h
            exact ⟨found, next, pl, ⟨rfl, rfl⟩, hpay, hor, h⟩
          · rintro ⟨_, _, pl', ⟨rfl, rfl⟩, hok, -, h⟩
            obtain rfl : pl = pl' := by simpa using hpay.symm.trans hok
            exact h

theorem collectTxs_pool (ids : List Hash) (s s' : Collecting)
    (h : collectTxs E db ver fast ids s = (.ok (), s')) (e : PoolTx) :
    e ∈ s'.pool.table.rows ↔ e ∈ s.pool.table.rows ∧ e.id ∉ ids := by
  induction ids generalizing s with
  | nil =>
    cases h
    simp
  | cons id rest ih =>
    obtain ⟨-, found, next, pl, hfind, -, -, hrest⟩ := (collectTxs_cons_eq_ok ..).mp h
    rw [ih _ hrest, List.mem_cons, not_or, ← and_assoc]
    exact and_congr_left fun _ => findTx_pool E s next id found hfind e

/-- The loop over the transactions of a block never reports a failure of the asset stage. -/
theorem collectTxs_ne_assets (ids : List Hash) (s s' : Collecting) (failure : Failure) :
    collectTxs E db ver fast ids s ≠ (.error (.assets failure), s') := by
  intro h
  induction ids generalizing s with
  | nil => cases h
  | cons id rest ih =>
    rw [collectTxs] at h
    split at h
    · cases h
    · split at h
      · cases h
      · split at h
        · cases h
        · dsimp only at h
          split at h
          · cases h
          · exact ih _ h

/-- A block that fails leaves the node as it is, or with the tables as the payloads before the
failure left them and what came from the pool offered back. -/
theorem handle_error {clock : Clock} {node node' : Node} {block : Block} {supp : List Transaction}
    {e : BlockError} (h : handleBlockToMainChain E clock node block supp = (.error e, node')) :
    (node' = node ∧ ∀ failure, e ≠ .assets failure) ∨ ∃ res s t,
      collectTxs E node.db (E.hardFork node.db.blocks) (E.fastCheck node.db.blocks block)
        block.txHashes { pool := node.pool, supplement := supp, taken := [] } = (res, s) ∧
      (∀ failure, e = .assets failure → res = .ok () ∧
        applyAssetPayloads E.C E.assetNetwork node.db.height (assetPayloads s.taken)
          node.db.assets = (.error failure, t)) ∧
      node' = { db := { node.db with assets := t },
                pool := returnTxsToPool E { node.db with assets := t }
                  (E.hardFork node.db.blocks) clock s.pool s.taken } := by
  unfold handleBlockToMainChain at h
  dsimp only at h
  split at h
  · cases h
    exact Or.inl ⟨rfl, nofun⟩
  · split at h
    · cases h
      exact Or.inl ⟨rfl, nofun⟩
    · right
      split at h
      · rename_i err s hcol
        cases h
        refine ⟨_, s, _, hcol, fun failure he => ?_, rfl⟩
        exact absurd (he ▸ hcol) (collectTxs_ne_assets _ _ _ _ _ _ _ _)
      · rename_i s hcol
        split at h
        · cases h
          exact ⟨_, s, _, hcol, nofun, rfl⟩
        · split at h
          · rename_i failure t happ
            cases h
            exact ⟨_, s, t, hcol, fun _ he => ⟨rfl, by cases he; exact happ⟩, rfl⟩
          · split at h
            · cases h
              exact ⟨_, s, _, hcol, nofun, rfl⟩
            · cases h

theorem collectTxs_payload (ids : List Hash) (s s' : Collecting)
    (h : collectTxs E db ver fast ids s = (.ok (), s')) (t : Taken) (ht : t ∈ s'.taken) :
    t ∈ s.taken ∨ blockPayload E ver t.tx = .ok t.payload := by
  induction ids generalizing s with
  | nil =>
    cases h
    exact Or.inl ht
  | cons id rest ih =>
    obtain ⟨-, found, next, pl, hfind, hpay, -, hrest⟩ :=
      (collectTxs_cons_eq_ok ..).mp h
    have htaken : next.taken = s.taken := by
      unfold findTx takeTx at hfind
      split at hfind
      · cases hfind
        rfl
      · split at hfind
        · cases hfind
        · cases hfind
          rfl
    rcases ih _ hrest with hold | hnew
    · rcases List.mem_append.mp hold with hold | hlast
      · exact Or.inl (htaken ▸ hold)
      · rw [List.mem_singleton.mp hlast]
        exact Or.inr hpay
    · exact Or.inr hnew

/-! An invariant of the pool that the calls of the chain keep is kept by whole blocks. -/

section Invariant

variable {P : TxPool → Prop} {clock : Clock} {node node' : Node}
  (hvalidate : ∀ db ver pool, P pool → P (validate E db ver clock pool))

include hvalidate

theorem afterChange_invariant (ver : ℕ) (h : P node.pool) :
    P (afterChange E clock ver node).pool := by
  unfold afterChange
  split
  · exact hvalidate _ _ _ h
  · exact h

theorem block_invariant (htake : ∀ pool id, P pool → P (takeTx pool id).2) {block : Block}
    {supp : List Transaction} (h : P node.pool)
    (hacc : handleBlockToMainChain E clock node block supp = (.ok (), node')) : P node'.pool := by
  have hfind : ∀ s id found next, findTx E s id = some (found, next) → P s.pool → P next.pool := by
    intro s id found next hfind h
    have htaken := htake s.pool id h
    unfold findTx at hfind
    split at hfind
    · rename_i heq
      rw [heq] at htaken
      cases hfind
      exact htaken
    · split at hfind
      · cases hfind
      · cases hfind
        exact h
  have hcollect : ∀ fast ids s s', collectTxs E node.db (E.hardFork node.db.blocks) fast ids s =
      (.ok (), s') → P s.pool → P s'.pool := by
    intro fast ids
    induction ids with
    | nil =>
      intro s s' hcol h
      cases hcol
      exact h
    | cons id rest ih =>
      intro s s' hcol h
      obtain ⟨-, found, next, pl, hfound, -, -, hrest⟩ := (collectTxs_cons_eq_ok ..).mp hcol
      exact ih _ s' hrest (hfind s id found next hfound h)
  obtain ⟨s, t, hhandled, rfl⟩ := (handle_eq_ok ..).mp hacc
  exact afterChange_invariant E hvalidate _ (hcollect _ _ _ _ hhandled.collected h)

theorem pop_invariant (hadd : ∀ db pool tx relay rld ver nic, P pool →
      P (addTxOf E db pool tx relay rld ver nic clock).2) (h : P node.pool)
    (hpop : popBlockFromBlockchain E clock node = some node') : P node'.pool := by
  unfold popBlockFromBlockchain at hpop
  split at hpop
  · cases hpop
    refine afterChange_invariant E hvalidate _ ?_
    refine List.foldlRecOn (motive := P) _ _ h fun pool h tx _ => ?_
    split
    · exact h
    · exact hadd _ _ _ _ _ _ _ h
  · cases hpop

end Invariant

end Monzero.BlockHandling
