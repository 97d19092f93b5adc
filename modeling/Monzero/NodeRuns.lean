import Monzero.BlockHandling
import Monzero.PoolAssets

/-!
Runs of a node: transactions are added to its pool, blocks are accepted and popped. The
code checks an asset transaction when it enters the pool and not again while it stays
there, so the pool remains sound only if the chain changes around it leave the view of
its transactions alone. Under that condition every state of a run has a sound pool.
-/
namespace Monzero.NodeRuns

open Primitives AssetDb AssetRuns RegistryRuns PayloadView IndependentPayloads TxExtra TxMemoryPool
  PoolRows PoolAssets Blockchain BlockHandling Runs List

/-- Assets are active on a chain. -/
def Active (E : Env) (db : Db) : Prop :=
  hfVersionMonzeroAssets ≤ E.hardFork db.blocks ∧
    hfVersionMonzeroAssets ≤ E.idealHardFork db.height

inductive NodeEvent
  | add (tx : Transaction) (relay : RelayMethod) (relayed : Bool) (nicVersion : ℕ) (clock : Clock)
  | block (block : Block) (supplement : List Transaction) (clock : Clock)
  | pop (clock : Clock)

/-- A transaction is offered to the pool, a block is accepted, or the top block is popped. -/
inductive NodeStep (E : Env) : Node → NodeEvent → Node → Prop
  | add (node : Node) (tx : Transaction) (relay : RelayMethod) (relayed : Bool) (nicVersion : ℕ)
      (clock : Clock) :
      NodeStep E node (.add tx relay relayed nicVersion clock)
        { node with pool := (addTxOf E node.db node.pool tx relay relayed
          (E.hardFork node.db.blocks) nicVersion clock).2 }
  | block (node node' : Node) (block : Block) (supplement : List Transaction) (clock : Clock)
      (accepted : handleBlockToMainChain E clock node block supplement = (.ok (), node')) :
      NodeStep E node (.block block supplement clock) node'
  | pop (node node' : Node) (clock : Clock)
      (popped : popBlockFromBlockchain E clock node = some node') :
      NodeStep E node (.pop clock) node'

/-- A step with assets active before and after it. -/
structure ActiveStep (E : Env) (node : Node) (event : NodeEvent) (node' : Node) : Prop where
  step : NodeStep E node event node'
  before : Active E node.db
  after : Active E node'.db

/-- Transactions with their hashes, as they are offered to the pool. -/
def offered (E : Env) (txs : List Transaction) : List (Hash × Transaction) :=
  txs.map fun tx => (E.H.txHash tx, tx)

/-- The event leaves the pooled asset transactions alone. What is offered to the pool is
proper and shares no output id with the rest of it; a block issues assets of this network
only, each collection before its members, and nothing in it collides with a transaction that
stays in the pool; nothing pooled refers to the block that is popped. -/
def Independent (E : Env) (node : Node) : NodeEvent → Prop
  | .add tx _ _ _ _ => Clean E (stored node.pool.table ++ offered E [tx])
  | .block block supplement _ =>
      (∀ q ∈ blockPayloads E node block supplement, ∀ i, q.1.issuance = some i →
        i.descriptor.network = E.assetNetwork) ∧
      (blockPayloads E node block supplement).Pairwise (SortsFirst E.C) ∧
      ∀ e ∈ node.pool.table.rows, e.id ∉ block.txHashes → ∀ p, envelope E e.tx = .ok (some p) →
        ∀ q ∈ blockPayloads E node block supplement, Apart E.C E.assetNetwork p q.1
  | .pop _ =>
      Clean E (stored node.pool.table ++
        offered E ((node.db.blocks.head?.map StoredBlock.txs).getD [])) ∧
      ∀ e ∈ node.pool.table.rows, ∀ p, envelope E e.tx = .ok (some p) →
        Settled p node.db.assets (node.db.height - 1)

variable {E : Env} {db : Db} {family : List (Hash × Transaction)} {tab : PoolTable} {ver : ℕ}
  {pool : TxPool} {node' : Node} {clock : Clock}

theorem SoundPool.mono {family' : List (Hash × Transaction)} (h : SoundPool E db family tab)
    (hsub : ∀ e ∈ tab.rows, (e.id, e.tx) ∈ family') : SoundPool E db family' tab :=
  ⟨hsub, h.parsed, h.pending, h.apart⟩

theorem clean_stored (h : SoundPool E db family tab) : Clean E (stored tab) where
  proper := by
    intro a ha
    obtain ⟨e, he, rfl⟩ := mem_map.mp ha
    exact ⟨fun p i hp hi => (h.pending e he p hp).ownNetwork i hi,
      fun p hp => (h.pending e he p hp).free⟩
  outputs := by
    intro a ha b hb hne
    obtain ⟨e, he, rfl⟩ := mem_map.mp ha
    obtain ⟨f, hf, rfl⟩ := mem_map.mp hb
    intro p q hp hq
    exact (h.apart e he f hf hne p q hp hq).outputs

theorem SoundPool.moved {db' : Db} (h : SoundPool E db family tab)
    (hdb' : Reloadable E.C E.assetNetwork db')
    (hview : ∀ e ∈ tab.rows, ∀ p, envelope E e.tx = .ok (some p) →
      SameView E.C E.assetNetwork p db.assets db'.assets) :
    SoundPool E db' family tab := by
  refine ⟨h.inside, h.parsed, ?_, h.apart⟩
  intro e he p hp
  refine pending_sameView (h.pending e he p hp)
    (hview e he p hp) (loadable_of_reloadable hdb') ?_
  intro i _ _ row hrow _
  exact hdb'.below.records row hrow

variable (E : Env) (node : Node)

theorem sound_revalidate (clock : Clock) (e : PoolTx) (hact : hfVersionMonzeroAssets ≤ ver)
    (hdb : Reloadable E.C E.assetNetwork db) (hclean : Clean E family)
    (h : SoundPool E db family pool.table) :
    SoundPool E db family (revalidate E db ver clock pool e).table := by
  have htake := h.within (within_takeTx pool e.id)
  unfold revalidate
  cases hget : pool.table.get e.id with
  | none =>
    simp only [takeTx, hget] at htake ⊢
    exact htake
  | some found =>
    obtain ⟨hmem, hid⟩ := PoolTable.get_eq_some_iff.mp hget
    have hfamily : (e.id, found.tx) ∈ family := hid ▸ h.inside found hmem
    simp only [takeTx, hget] at htake ⊢
    have hadd := sound_addTx E db family _ found.tx e.id e.info.weight e.info.relayMethod
      e.info.relayed ver 0 clock hact hdb hclean hfamily htake
    split
    · rename_i hres
      rw [hres] at hadd
      exact hadd
    · rename_i hres
      rw [hres] at hadd
      exact hadd.within (within_update _ _ _)

theorem sound_validate (clock : Clock) (hact : hfVersionMonzeroAssets ≤ ver)
    (hdb : Reloadable E.C E.assetNetwork db) (hclean : Clean E family)
    (h : SoundPool E db family pool.table) :
    SoundPool E db family (validate E db ver clock pool).table := by
  refine validate_invariant E db pool ver clock
    (fun _ validated => SoundPool E db family validated.table) ?_ h
  exact fun e _ _ hstart => sound_revalidate E clock e hact hdb hclean hstart

theorem sound_returnPopped (db : Db) (family : List (Hash × Transaction)) (clock : Clock)
    (pool : TxPool) (txs : List Transaction)
    (hact : hfVersionMonzeroAssets ≤ E.idealHardFork db.height)
    (hdb : Reloadable E.C E.assetNetwork db) (hclean : Clean E family)
    (hoffered : ∀ tx ∈ txs, (E.H.txHash tx, tx) ∈ family) (h : SoundPool E db family pool.table) :
    SoundPool E db family (returnPopped E db clock pool txs).table := by
  unfold returnPopped
  have hreversed : ∀ tx ∈ txs.reverse, (E.H.txHash tx, tx) ∈ family := by
    intro tx htx
    exact hoffered tx (mem_reverse.mp htx)
  generalize txs.reverse = offers at hreversed
  induction offers generalizing pool with
  | nil => exact h
  | cons tx rest ih =>
    rw [foldl_cons]
    refine ih _ ?_ fun tx htx => hreversed tx (mem_cons_of_mem _ htx)
    by_cases hcoinbase : isCoinbase tx = true
    · rw [if_pos hcoinbase]
      exact h
    · rw [if_neg hcoinbase]
      exact sound_addTx E db family pool tx _ _ _ _ _ _ clock hact hdb hclean
        (hreversed tx mem_cons_self) h

theorem afterChange_db (clock : Clock) (ver : ℕ) (node : Node) :
    (afterChange E clock ver node).db = node.db := by
  unfold afterChange
  split
  · rfl
  · rfl

/-- A node whose registry can be loaded and whose pool is sound. -/
structure Sound (E : Env) (node : Node) : Prop where
  chain : Reloadable E.C E.assetNetwork node.db
  pool : SoundPool E node.db (stored node.pool.table) node.pool.table

theorem sound_of_family (family : List (Hash × Transaction))
    (hchain : Reloadable E.C E.assetNetwork node.db)
    (h : SoundPool E node.db family node.pool.table) : Sound E node :=
  ⟨hchain, SoundPool.mono h fun e he => mem_map.mpr ⟨e, he, rfl⟩⟩

theorem sound_afterChange (clock : Clock) (ver : ℕ) (node : Node)
    (family : List (Hash × Transaction)) (hact : Active E node.db)
    (hdb : Reloadable E.C E.assetNetwork node.db) (hclean : Clean E family)
    (h : SoundPool E node.db family node.pool.table) : Sound E (afterChange E clock ver node) := by
  unfold afterChange
  split
  · exact sound_of_family E _ family hdb (sound_validate E clock hact.1 hdb hclean h)
  · exact sound_of_family E node family hdb h

theorem sound_add {tx : Transaction} (relay : RelayMethod) (rld : Bool) (nic : ℕ)
    (clock : Clock) (hact : Active E node.db)
    (hclean : Clean E (stored node.pool.table ++ offered E [tx])) (h : Sound E node) :
    Sound E { node with pool := (addTxOf E node.db node.pool tx relay rld
      (E.hardFork node.db.blocks) nic clock).2 } := by
  refine sound_of_family E _ (stored node.pool.table ++ offered E [tx]) h.chain ?_
  refine sound_addTx E node.db _ node.pool tx _ _ relay rld _ nic clock hact.1
    h.chain hclean (by simp [offered]) ?_
  exact SoundPool.mono h.pool fun e he => mem_append_left _ (h.pool.inside e he)

theorem sound_block {node : Node} {block : Block} {supplement : List Transaction}
    (hact : Active E node'.db) (hindependent : Independent E node (.block block supplement clock))
    (hacc : handleBlockToMainChain E clock node block supplement = (.ok (), node'))
    (h : Sound E node) : Sound E node' := by
  obtain ⟨s, t, hhandled, rfl⟩ := (handle_eq_ok ..).mp hacc
  obtain ⟨hown, hsort, hapart⟩ := hindependent
  have htaken : blockPayloads E node block supplement = assetPayloads s.taken := by
    rw [blockPayloads, hhandled.collected]
  rw [htaken] at hown hsort hapart
  have hstep : AssetStep E.C E.assetNetwork node.db
      (.attach { block := block, txs := s.taken.map Taken.tx } (assetPayloads s.taken))
      (extend node.db block s.taken t) := AssetStep.attach node.db _ _ t hhandled.applied
  have hchain := reloadable_step E.C E.assetNetwork node.db _
    (.attach { block := block, txs := s.taken.map Taken.tx } (assetPayloads s.taken)) hown hsort
    h.chain hstep
  have hrows := collectTxs_pool E node.db _ _ _ _ s hhandled.collected
  -- What stays in the pool is apart from the block, so it sees the same tables.
  have hstay : SoundPool E node.db (stored node.pool.table) s.pool.table :=
    h.pool.within (within_of_subset fun e he => ((hrows e).mp he).1)
  have hpool : SoundPool E (extend node.db block s.taken t) (stored node.pool.table)
      s.pool.table := by
    refine SoundPool.moved hstay hchain ?_
    intro e he p hp
    obtain ⟨hold, hid⟩ := (hrows e).mp he
    exact sameView_applyAssetPayloads E.C E.assetNetwork node.db.height (assetPayloads s.taken)
      node.db.assets t () p (hstay.pending e he p hp).finds (hapart e hold hid p hp)
      (assetPayloads_carrier s.taken) hhandled.applied
  rw [afterChange_db] at hact
  exact sound_afterChange E clock _ _ _ hact hchain (clean_stored h.pool) hpool

theorem sound_pop {node : Node} (hact : Active E node'.db)
    (hindependent : Independent E node (.pop clock))
    (hpop : popBlockFromBlockchain E clock node = some node') (h : Sound E node) :
    Sound E node' := by
  unfold popBlockFromBlockchain at hpop
  split at hpop
  · rename_i top below rest hblks
    cases hpop
    obtain ⟨hclean, hsettled⟩ := hindependent
    rw [hblks] at hclean
    have hstep : AssetStep E.C E.assetNetwork node.db .detach node.db.popBlock :=
      AssetStep.detach node.db (by simp [hblks])
    have hchain := reloadable_step E.C E.assetNetwork node.db _ .detach trivial trivial h.chain
      hstep
    have hpool : SoundPool E node.db.popBlock
        (stored node.pool.table ++ offered E top.txs) node.pool.table := by
      refine SoundPool.mono (SoundPool.moved h.pool hchain ?_)
        fun e he => mem_append_left _ (h.pool.inside e he)
      intro e he p hp
      exact sameView_rollback E.C (h.pool.pending e he p hp).finds (hsettled e he p hp)
    rw [afterChange_db] at hact
    refine sound_afterChange E clock _ _ _ hact hchain hclean ?_
    refine sound_returnPopped E node.db.popBlock _ clock node.pool top.txs hact.2 hchain hclean
      ?_ hpool
    intro tx htx
    exact mem_append_right _ (mem_map.mpr ⟨tx, htx, rfl⟩)
  · cases hpop

theorem sound_step (node node' : Node) (event : NodeEvent) (hstep : ActiveStep E node event node')
    (hindependent : Independent E node event) (h : Sound E node) : Sound E node' := by
  obtain ⟨step, before, after⟩ := hstep
  cases step with
  | add tx relay relayed nicVersion clock =>
    exact sound_add E node relay relayed nicVersion clock before hindependent h
  | block =>
    rename_i block supplement clock accepted
    exact sound_block E after hindependent accepted h
  | pop =>
    rename_i clock popped
    exact sound_pop E after hindependent popped h

theorem sound_start (hassets : node.db.assets = .empty) (hpool : node.pool.table.rows = []) :
    Sound E node := by
  refine ⟨⟨?_, ?_, ?_⟩, ?_, ?_, ?_, ?_⟩
  · rw [hassets]
    exact issued_empty E.C E.assetNetwork
  · rw [hassets]
    exact ⟨by simp [AssetTables.empty], by simp [AssetTables.empty], by simp [AssetTables.empty]⟩
  · rw [hassets]
    intro row hrow
    simp [AssetTables.empty] at hrow
  all_goals simp [hpool]

theorem sound_run (start node : Node) (evs : List NodeEvent)
    (run : Run (fun s e s' => ActiveStep E s e s' ∧ Independent E s e) start evs node)
    (h : Sound E start) : Sound E node :=
  run.invariant (Sound E) (fun _ => True)
    (fun s e s' hs _ hstep => sound_step E s s' e hstep.1 hstep.2 hs) (fun _ _ => trivial) h

end Monzero.NodeRuns
