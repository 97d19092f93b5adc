import Monzero.TxExtraCodec
import Monzero.AcceptedChain

/-!
Asset envelopes and the version that activates them. `parse_native_asset_transaction` refuses
an envelope below version 17, but neither the pool nor the chain calls it there, so a
transaction with an envelope passes like any other. None gets into the pool or a block before
activation only as long as none is offered.
-/
namespace Monzero.Activation

open Primitives TxExtra TxMemoryPool PoolRows Blockchain BlockHandling NodeRuns PoolAccounts Runs
  ToyNode List

/-- An extra field has an asset envelope among its fields. -/
def hasEnvelope (extra : List UInt8) : Bool :=
  match parseTxExtra extra with
  | none => false
  | some fields => fields.any isEnvelope

/-- A transaction without an asset envelope. -/
def Plain (tx : Transaction) : Prop := hasEnvelope tx.extra = false

instance (tx : Transaction) : Decidable (Plain tx) := by
  unfold Plain
  infer_instance

/-- All transactions of the pool are plain. -/
def PlainPool (table : PoolTable) : Prop := ∀ e ∈ table.rows, Plain e.tx

theorem PlainPool.within {t t' : PoolTable} (h : PlainPool t) (hwithin : Within t' t) :
    PlainPool t' := by
  intro e he
  obtain ⟨e', he', -, htx⟩ := hwithin e he
  exact htx ▸ h e' he'

theorem plainPool_addTx (E : Env) (db : Db) (pool : TxPool) (tx : Transaction) (id : Hash)
    (wt : ℕ) (relay : RelayMethod) (rld : Bool) (ver nic : ℕ) (clock : Clock)
    (htx : Plain tx) (h : PlainPool pool.table) :
    PlainPool (addTx E db pool tx id wt relay rld ver nic clock).2.table := by
  intro e he
  rcases addTx_rows E db pool tx id wt relay rld ver nic clock e he with
    ⟨e', he', -, htx'⟩ | ⟨-, htx', -⟩
  · exact htx' ▸ h e' he'
  · exact htx' ▸ htx

theorem plainPool_returnTxsToPool (E : Env) (db : Db) (ver : ℕ) (clock : Clock) (pool : TxPool)
    (taken : List Taken) (htaken : ∀ t ∈ taken, Plain t.tx) (h : PlainPool pool.table) :
    PlainPool (returnTxsToPool E db ver clock pool taken).table := by
  unfold returnTxsToPool
  have hfrom : ∀ t ∈ taken.filter Taken.fromPool, Plain t.tx :=
    fun t ht => htaken t (mem_of_mem_filter ht)
  generalize taken.filter Taken.fromPool = back at hfrom
  induction back generalizing pool with
  | nil => exact h
  | cons t rest ih =>
    refine ih _ (plainPool_addTx E db pool t.tx _ _ _ _ _ _ clock ?_ h) ?_
    · exact hfrom t mem_cons_self
    · exact fun u hu => hfrom u (mem_cons_of_mem _ hu)

theorem plainPool_returnPopped (E : Env) {db : Db} (clock : Clock) (pool : TxPool)
    (txs : List Transaction) (htxs : ∀ tx ∈ txs, Plain tx) (h : PlainPool pool.table) :
    PlainPool (returnPopped E db clock pool txs).table := by
  unfold returnPopped
  have hback : ∀ tx ∈ txs.reverse, Plain tx := fun tx htx => htxs tx (mem_reverse.mp htx)
  generalize txs.reverse = back at hback
  induction back generalizing pool with
  | nil => exact h
  | cons tx rest ih =>
    rw [foldl_cons]
    refine ih _ ?_ fun u hu => hback u (mem_cons_of_mem _ hu)
    by_cases hcoinbase : isCoinbase tx = true
    · rw [if_pos hcoinbase]
      exact h
    · rw [if_neg hcoinbase]
      exact plainPool_addTx E db pool tx _ _ _ _ _ _ clock (hback tx mem_cons_self) h

/-- What a block is collected from, and what is collected so far, is plain. -/
structure PlainSources (s : Collecting) : Prop where
  pool : PlainPool s.pool.table
  supplement : ∀ tx ∈ s.supplement, Plain tx
  taken : ∀ t ∈ s.taken, Plain t.tx

theorem plain_findTx (E : Env) (s s' : Collecting) (id : Hash) (found : Taken)
    (h : findTx E s id = some (found, s')) (hs : PlainSources s) :
    PlainSources s' ∧ Plain found.tx := by
  unfold findTx takeTx at h
  cases hget : s.pool.table.get id with
  | some row =>
    obtain ⟨hrow, -⟩ := PoolTable.get_eq_some_iff.mp hget
    rw [hget] at h
    cases h
    exact ⟨⟨hs.pool.within (within_remove _ _), hs.supplement, hs.taken⟩, hs.pool row hrow⟩
  | none =>
    rw [hget] at h
    dsimp only at h
    split at h
    · cases h
    · rename_i tx hfind
      cases h
      refine ⟨⟨hs.pool, ?_, hs.taken⟩, hs.supplement tx (mem_of_find?_eq_some hfind)⟩
      exact fun tx htx => hs.supplement tx (mem_of_mem_filter htx)

/-- The loop over the transactions of a block takes plain transactions from plain sources,
whether it succeeds or not. -/
theorem plain_collectTxs (E : Env) (db : Db) (ver : ℕ) (fast : Bool) (ids : List Hash)
    (s s' : Collecting) (res : Except BlockError Unit)
    (h : collectTxs E db ver fast ids s = (res, s')) (hs : PlainSources s) : PlainSources s' := by
  induction ids generalizing s with
  | nil =>
    cases h
    exact hs
  | cons id rest ih =>
    rw [collectTxs] at h
    split at h
    · cases h
      exact hs
    · split at h
      · cases h
        exact hs
      · rename_i found next hfind
        obtain ⟨hnext, hfound⟩ := plain_findTx E s next id found hfind hs
        have hmore : ∀ pl, PlainSources
            { next with taken := next.taken ++ [{ found with payload := pl }] } := by
          intro pl
          refine ⟨hnext.pool, hnext.supplement, fun t ht => ?_⟩
          rcases mem_append.mp ht with ht | ht
          · exact hnext.taken t ht
          · rw [mem_singleton.mp ht]
            exact hfound
        split at h
        · cases h
          exact hmore found.payload
        · rename_i pl hpay
          dsimp only at h
          split at h
          · cases h
            exact hmore pl
          · exact ih _ h (hmore pl)

/-- One step of a node: a transaction is offered to the pool, a block is offered to the chain,
accepted or not, or the top block is popped. -/
def advance (E : Env) (node : Node) : NodeEvent → Option Node
  | .add tx relay relayed nicVersion clock =>
      some { node with pool := (addTxOf E node.db node.pool tx relay relayed
        (E.hardFork node.db.blocks) nicVersion clock).2 }
  | .block block supplement clock =>
      some (handleBlockToMainChain E clock node block supplement).2
  | .pop clock => popBlockFromBlockchain E clock node

/-- No transaction with an envelope was admitted or included before activation: every block
that was accepted below version 17 has plain transactions only, and below version 17 the
pool holds plain transactions only. -/
structure Quiet (E : Env) (node : Node) : Prop where
  chain : ∀ b below, (b :: below) <:+ node.db.blocks →
    E.hardFork below < hfVersionMonzeroAssets → ∀ tx ∈ b.txs, Plain tx
  pool : E.hardFork node.db.blocks < hfVersionMonzeroAssets → PlainPool node.pool.table

/-- Below version 17 only plain transactions are offered to the pool or come with a block, and
the pool holds only plain ones when a pop takes the version below 17. -/
def OffersPlain (E : Env) (node : Node) : NodeEvent → Prop
  | .add tx _ _ _ _ => E.hardFork node.db.blocks < hfVersionMonzeroAssets → Plain tx
  | .block _ supplement _ =>
      E.hardFork node.db.blocks < hfVersionMonzeroAssets → ∀ tx ∈ supplement, Plain tx
  | .pop _ => hfVersionMonzeroAssets ≤ E.hardFork node.db.blocks →
      E.hardFork node.db.blocks.tail < hfVersionMonzeroAssets → PlainPool node.pool.table

theorem quiet_block {E : Env} {clock : Clock} {node : Node} {block : Block}
    {supp : List Transaction} (hgrows : ∀ b bs, E.hardFork bs ≤ E.hardFork (b :: bs))
    (hplain : OffersPlain E node (.block block supp clock)) (h : Quiet E node) :
    Quiet E (handleBlockToMainChain E clock node block supp).2 := by
  have hsources : E.hardFork node.db.blocks < hfVersionMonzeroAssets → PlainSources
      { pool := node.pool, supplement := supp, taken := [] } := by
    intro hearly
    exact ⟨h.pool hearly, hplain hearly, by simp⟩
  cases hres : handleBlockToMainChain E clock node block supp with
  | mk res node' =>
    cases res with
    | error e =>
      rcases handle_error E hres with ⟨rfl, -⟩ | ⟨outcome, s, t, hcol, -, rfl⟩
      · exact h
      · refine ⟨h.chain, fun hearly => ?_⟩
        have hs := plain_collectTxs E node.db _ _ _ _ s outcome hcol (hsources hearly)
        exact plainPool_returnTxsToPool E _ _ clock s.pool s.taken hs.taken hs.pool
    | ok u =>
      obtain ⟨s, t, hhandled, rfl⟩ := (handle_eq_ok ..).mp hres
      have hcollect := fun hearly => plain_collectTxs E node.db _ _ _ _ s _ hhandled.collected
        (hsources hearly)
      refine ⟨?_, ?_⟩
      · rw [afterChange_db]
        intro b below hsuf hearly
        rcases suffix_cons_iff.mp hsuf with hnew | hold
        · cases hnew
          intro tx htx
          obtain ⟨u, hu, rfl⟩ := mem_map.mp htx
          exact (hcollect hearly).taken u hu
        · exact h.chain b below hold hearly
      · rw [afterChange_db]
        intro hearly
        have hbefore := lt_of_le_of_lt (hgrows _ node.db.blocks) hearly
        exact (hcollect hbefore).pool.within (within_afterChange E clock _ _)

theorem quiet_pop {E : Env} {clock : Clock} {node node' : Node}
    (hplain : OffersPlain E node (.pop clock))
    (hpop : popBlockFromBlockchain E clock node = some node') (h : Quiet E node) :
    Quiet E node' := by
  unfold popBlockFromBlockchain at hpop
  split at hpop
  · rename_i top below rest hblks
    cases hpop
    have htail : node.db.popBlock.blocks = node.db.blocks.tail := rfl
    refine ⟨?_, ?_⟩
    · rw [afterChange_db]
      intro b under hsuf
      exact h.chain b under (hsuf.trans (tail_suffix _))
    · rw [afterChange_db]
      intro hearly
      rw [htail] at hearly
      refine PlainPool.within ?_ (within_afterChange E clock _ _)
      refine plainPool_returnPopped E clock node.pool top.txs ?_ ?_
      · refine h.chain top (below :: rest) ?_ ?_
        · exact hblks ▸ suffix_refl _
        · rw [hblks] at hearly
          exact hearly
      · by_cases hbefore : E.hardFork node.db.blocks < hfVersionMonzeroAssets
        · exact h.pool hbefore
        · exact hplain (Nat.not_lt.mp hbefore) hearly
  · cases hpop

theorem quiet_advance {E : Env} {node node' : Node} {event : NodeEvent}
    (hgrows : ∀ b bs, E.hardFork bs ≤ E.hardFork (b :: bs))
    (hstep : advance E node event = some node') (hplain : OffersPlain E node event)
    (h : Quiet E node) : Quiet E node' := by
  cases event with
  | add tx relay relayed nicVersion clock =>
    cases hstep
    refine ⟨h.chain, fun hearly => ?_⟩
    exact plainPool_addTx E node.db node.pool tx _ _ _ _ _ _ clock (hplain hearly) (h.pool hearly)
  | block block supplement clock =>
    cases hstep
    exact quiet_block hgrows hplain h
  | pop clock => exact quiet_pop hplain hstep h

/-- Over every run from a genesis block in which only plain transactions are offered before
activation, none with an envelope is admitted or included before activation. -/
theorem no_envelope_before_activation (E : Env) (start node : Node) (events : List NodeEvent)
    (hgrows : ∀ b blocks, E.hardFork blocks ≤ E.hardFork (b :: blocks))
    (hgenesis : ∃ b, start.db.blocks = [{ block := b, txs := [] }])
    (hempty : start.pool.table.rows = [])
    (run : Run (fun s e s' => advance E s e = some s' ∧ OffersPlain E s e) start events node) :
    Quiet E node := by
  have hstart : Quiet E start := by
    obtain ⟨genesis, hblocks⟩ := hgenesis
    refine ⟨?_, ?_⟩
    · intro b below hsuffix _ tx htx
      rw [hblocks, suffix_cons_iff, suffix_nil] at hsuffix
      rcases hsuffix with hnew | hnil
      · cases hnew
        cases htx
      · cases hnil
    · intro _ e he
      rw [hempty] at he
      cases he
  exact run.invariant (Quiet E) (fun _ => True)
    (fun s e s' hs _ hstep => quiet_advance hgrows hstep.1 hstep.2 hs) (fun _ _ => trivial) hstart

/-- The sample node one version before activation. -/
def earlyEnv : Env := { toyEnv with hardFork := fun _ => 16, idealHardFork := fun _ => 16 }

/-- A transaction with an envelope that holds one byte. -/
def envelopeTx : Transaction := nativeTx 1 [0x7A, 0x01, 0x00]

def addEvent (tx : Transaction) : NodeEvent := .add tx .fluff true 16 clock

def blockEvent (txs : List Transaction) : NodeEvent := .block (blockOf txs) [] clock

theorem no_envelope_before_activation_sample :
    ∃ node, advance earlyEnv startNode (addEvent (nativeTx 1 [])) = some node ∧
      node.pool.table.rows.length = 1 ∧ Quiet earlyEnv node := by
  have hplain : Plain (nativeTx 1 []) := by decide
  refine ⟨_, rfl, by decide +kernel, ?_⟩
  refine no_envelope_before_activation earlyEnv startNode _ [addEvent (nativeTx 1 [])]
    (fun _ _ => le_rfl) ⟨_, rfl⟩ rfl ?_
  exact .cons ⟨rfl, fun _ => hplain⟩ (.nil _)

/-- The node that was offered it. -/
def earlyPooled : Node :=
  { startNode with pool := (addTxOf earlyEnv startNode.db startNode.pool envelopeTx .fluff true 16
    16 clock).2 }

/-- The node after a block that lists it. -/
def earlyMined : Node :=
  (handleBlockToMainChain earlyEnv clock earlyPooled (blockOf [envelopeTx]) []).2

/-- One version before activation the pool admits a transaction with an envelope, and a block
that lists it is accepted. -/
theorem envelope_admitted_before_activation :
    hasEnvelope envelopeTx.extra = true ∧
      (addTxOf earlyEnv startNode.db startNode.pool envelopeTx .fluff true 16 16 clock).1 =
        .ok true ∧
      (handleBlockToMainChain earlyEnv clock earlyPooled (blockOf [envelopeTx]) []).1 = .ok () ∧
      Run (fun s e s' => advance earlyEnv s e = some s') startNode
        [addEvent envelopeTx, blockEvent [envelopeTx]] earlyMined ∧
      ¬Quiet earlyEnv earlyPooled ∧ ¬Quiet earlyEnv earlyMined := by
  have hfacts : hasEnvelope envelopeTx.extra = true ∧
      (addTxOf earlyEnv startNode.db startNode.pool envelopeTx .fluff true 16 16 clock).1 =
        .ok true ∧
      (handleBlockToMainChain earlyEnv clock earlyPooled (blockOf [envelopeTx]) []).1 = .ok () ∧
      earlyPooled.pool.table.rows.map PoolTx.tx = [envelopeTx] ∧
      earlyMined.db.blocks =
        { block := blockOf [envelopeTx], txs := [envelopeTx] } :: startNode.db.blocks := by
    decide +kernel
  obtain ⟨henvelope, hadmitted, haccepted, hpool, hblocks⟩ := hfacts
  have hnot : ¬Plain envelopeTx := by
    unfold Plain
    simp [henvelope]
  have hearly : (16 : ℕ) < hfVersionMonzeroAssets := by decide
  refine ⟨henvelope, hadmitted, haccepted, .cons rfl (.cons rfl (.nil _)), ?_, ?_⟩
  · intro hquiet
    have hmem : envelopeTx ∈ earlyPooled.pool.table.rows.map PoolTx.tx := by
      rw [hpool]
      exact mem_singleton_self _
    obtain ⟨e, he, htx⟩ := mem_map.mp hmem
    exact hnot (htx ▸ hquiet.pool hearly e he)
  · intro hquiet
    have hplain := hquiet.chain
    rw [hblocks] at hplain
    exact hnot (hplain _ _ (suffix_refl _) hearly _ (mem_singleton_self _))

end Monzero.Activation
