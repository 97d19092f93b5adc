import Monzero.AcceptedChain
import Monzero.PoolReturns

/-!
Popping blocks and adding them again. Each popped transaction is offered to the pool and
checked against the chain below its own block, so one that depends on its own block is
refused there. The blocks are added again with nothing but the pool to take transactions
from; this succeeds, and restores the chain, when every popped transaction came back. As
long as the version in force stays the same and nothing is pruned, it succeeds only then.
-/
namespace Monzero.ChainRollback

open Checked Primitives AssetDb TxExtra TxMemoryPool PoolRows PoolIndex PoolReturns PoolAccounts
  Blockchain BlockHandling NodeRuns AcceptedChain Runs ToyCrypto ToyNode List
open AssetTables (empty)
open BlockchainDb (addBlock height)
open PoolTable (get_eq_none_iff)

/-- The transactions of some blocks. -/
def txsOf (bs : List StoredBlock) : List Transaction := bs.flatMap StoredBlock.txs

theorem txsOf_cons (b : StoredBlock) (bs : List StoredBlock) :
    txsOf (b :: bs) = b.txs ++ txsOf bs := flatMap_cons

/-- A popped transaction as it is offered to the pool. -/
def offer (E : Env) (tx : Transaction) : Taken where
  id := E.H.txHash tx
  tx := tx
  weight := E.txWeight tx
  fee := (E.fee tx).getD 0
  fromPool := true
  payload := none

/-- The same version with active assets is in force on a chain and below each of its top blocks, so
that popping them does not make the pool check its transactions again. -/
structure Steady (E : Env) (db : Db) (k : ℕ) : Prop where
  version : ∀ j ≤ k, E.hardFork (db.blocks.drop j) = E.hardFork db.blocks
  active : hfVersionMonzeroAssets ≤ E.hardFork db.blocks
  ideal : ∀ j ≤ k, hfVersionMonzeroAssets ≤ E.idealHardFork (db.height - j)

/-- The transactions of some blocks are natively plain, and none of them is in the pool. -/
structure Poppable (E : Env) (pool : TxPool) (bs : List StoredBlock) : Prop where
  plain : ∀ tx ∈ txsOf bs, PlainInputs tx.vin
  fee : ∀ tx ∈ txsOf bs, E.fee tx ≠ none
  absent : ∀ tx ∈ txsOf bs, pool.table.get (E.H.txHash tx) = none

/-- The pool has room for the transactions of some blocks. -/
def Room (E : Env) (pool : TxPool) (bs : List StoredBlock) : Prop :=
  pool.weight + ((txsOf bs).map E.txWeight).sum ≤ pool.maxWeight

variable {E : Env} {db : Db} {pool : TxPool} {bs : List StoredBlock}

theorem Steady.activeFrom {k : ℕ} (h : Steady E db k) : ActiveFrom E db.blocks k := by
  intro j hj
  rw [h.version j hj]
  exact h.active

theorem Steady.tail {db' : Db} {b : StoredBlock} {k : ℕ} (h : Steady E db' (k + 1))
    (hblks : db'.blocks = b :: db.blocks) : Steady E db k := by
  have hfst := h.version 1 (by omega)
  rw [hblks, drop_one, tail_cons] at hfst
  have hht : db'.height = db.height + 1 := by
    simp [height, hblks]
  refine ⟨?_, ?_, ?_⟩
  · intro j hj
    have hnext := h.version (j + 1) (by omega)
    rw [hblks, drop_succ_cons] at hnext
    rw [hnext, hfst]
  · rw [hfst, ← hblks]
    exact h.active
  · intro j hj
    have hnext := h.ideal (j + 1) (by omega)
    rwa [hht, Nat.add_sub_add_right] at hnext

/-- Every transaction of the blocks passes the asset stage on the chain below its block, against
the pool. -/
def PopsPass (E : Env) (family : Set (Hash × Transaction)) : List StoredBlock → Db → Prop
  | [], _ => True
  | b :: bs, db =>
      (∀ tx ∈ b.txs, Stage E db.popBlock family (E.H.txHash tx) tx) ∧
        PopsPass E family bs db.popBlock

variable {txs : List Transaction} {tx : Transaction} {pool' : TxPool} {base : Db}

/-- Transactions that are compatible with each other do not get in each other's way. -/
theorem stage_of_mutual {db : Db} {family family' : Set (Hash × Transaction)}
    (hmutual : Mutual E txs) (htx : tx ∈ txs)
    (hfrom : ∀ x ∈ family', x ∈ family ∨ ∃ tx' ∈ txs, x = (E.H.txHash tx', tx'))
    (h : Stage E db family (E.H.txHash tx) tx) : Stage E db family' (E.H.txHash tx) tx := by
  obtain ⟨pl, henv, hchk⟩ := h
  refine ⟨pl, henv, fun p hp => ?_⟩
  obtain ⟨hverify, hcand, hall⟩ := hchk p hp
  refine ⟨hverify, hcand, fun a ha hne => ?_⟩
  rcases hfrom a ha with hold | ⟨tx', htx', rfl⟩
  · exact hall a hold hne
  · obtain ⟨pl', henv'⟩ := hmutual.parsed tx' htx'
    refine ⟨pl', henv', fun q hq => ?_⟩
    have hdiffer : tx ≠ tx' := by
      rintro rfl
      exact hne rfl
    exact hmutual.compatible tx htx tx' htx' hdiffer p q (hp ▸ henv) (hq ▸ henv')

/-- What each of the transactions passes on a chain, they pass against another family. -/
theorem PopsPass.imp {family family' : Set (Hash × Transaction)} {bs : List StoredBlock} {db : Db}
    (h : PopsPass E family bs db) (himp : ∀ tx ∈ txsOf bs, ∀ db,
      Stage E db family (E.H.txHash tx) tx → Stage E db family' (E.H.txHash tx) tx) :
    PopsPass E family' bs db := by
  induction bs generalizing db with
  | nil => trivial
  | cons b bs ih =>
    rw [txsOf_cons, forall_mem_append] at himp
    exact ⟨fun tx htx => himp.1 tx htx _ (h.1 tx htx), ih h.2 himp.2⟩

theorem isCoinbase_of_plain (h : PlainInputs tx.vin) : isCoinbase tx = false := by
  unfold isCoinbase
  split
  · rename_i height hvin
    obtain ⟨ki, hin⟩ := h.keys (.gen height) (by simp [hvin])
    cases hin
  · rfl

theorem returnPopped_eq (E : Env) (db : Db) (clock : Clock) (pool : TxPool)
    (hplain : ∀ tx ∈ txs, PlainInputs tx.vin) :
    returnPopped E db clock pool txs =
      giveBack E db (E.idealHardFork db.height) clock pool (txs.reverse.map (offer E)) := by
  unfold returnPopped giveBack
  rw [foldl_map]
  refine foldl_ext _ _ _ fun pool' tx htx => ?_
  rw [isCoinbase_of_plain (hplain tx (mem_reverse.mp htx))]
  rfl

theorem pop_accepted (E : Env) (clock : Clock) (db : Db) (b : StoredBlock) (t : AssetTables Key)
    (pool : TxPool) (hne : db.blocks ≠ []) (hbelow : db.assets.Below db.height)
    (hacc : Accepted E db b t) (hplain : ∀ tx ∈ b.txs, PlainInputs tx.vin)
    (hver : E.hardFork db.blocks = E.hardFork (b :: db.blocks)) : popBlockFromBlockchain E clock
        { db := addBlock { db with assets := t } b, pool := pool } =
      some
        { db := db
          pool := giveBack E db (E.idealHardFork db.height) clock pool
            (b.txs.reverse.map (offer E)) } := by
  have hpop := popBlock_accepted E db b t hbelow hacc
  obtain ⟨below, rest, hblks⟩ := exists_cons_of_ne_nil hne
  have hstack : (addBlock { db with assets := t } b).blocks = b :: below :: rest := by
    simp [addBlock, hblks]
  unfold popBlockFromBlockchain
  simp only [hstack, hpop, returnPopped_eq E db clock pool hplain]
  unfold afterChange
  rw [if_neg]
  rw [hver, hblks]
  simp

private theorem ids_apart {b : StoredBlock}
    (hnd : ((txsOf (b :: bs)).map E.H.txHash).Nodup) {tx' : Transaction}
    (htx : tx ∈ b.txs) (htx' : tx' ∈ txsOf bs) : E.H.txHash tx ≠ E.H.txHash tx' := by
  rw [txsOf_cons, map_append, nodup_append] at hnd
  exact hnd.2.2 _ (mem_map_of_mem htx) _ (mem_map_of_mem htx')

variable {b : StoredBlock}

theorem Poppable.returnable (h : Poppable E pool (b :: bs))
    (hnd : ((txsOf (b :: bs)).map E.H.txHash).Nodup) :
    Returnable E pool (b.txs.reverse.map (offer E)) := by
  have hmem : ∀ t ∈ b.txs.reverse.map (offer E), ∃ tx ∈ txsOf (b :: bs), t = offer E tx := by
    intro t ht
    obtain ⟨tx, htx, rfl⟩ := mem_map.mp ht
    rw [txsOf_cons]
    exact ⟨tx, mem_append_left _ (mem_reverse.mp htx), rfl⟩
  refine ⟨?_, ?_, ?_, ?_⟩
  · rw [txsOf_cons, map_append, nodup_append] at hnd
    rw [map_map]
    change (b.txs.reverse.map E.H.txHash).Nodup
    rw [map_reverse, nodup_reverse]
    exact hnd.1
  · intro t ht
    obtain ⟨tx, htx, rfl⟩ := hmem t ht
    exact h.absent tx htx
  · intro t ht
    obtain ⟨tx, htx, rfl⟩ := hmem t ht
    exact h.plain tx htx
  · intro t ht
    obtain ⟨tx, htx, rfl⟩ := hmem t ht
    exact h.fee tx htx

/-- What popping some blocks does to the pool. It keeps what is kept by a block, nothing else than
the popped transactions comes in, and the rest of what it had stays if there is room for all. All
popped transactions come back when each passes on the chain below its block, and only then if the
rest stays. -/
structure PoppedInto (E : Env) (db : Db) (bs : List StoredBlock) (pool pool' : TxPool) : Prop where
  kept : ∀ x, KeptByBlock pool.table x → KeptByBlock pool'.table x
  source : ∀ x ∈ stored pool'.table, x ∈ stored pool.table ∨
    ∃ tx ∈ txsOf bs, x = (E.H.txHash tx, tx)
  total : pool'.weight ≤ pool.weight + ((txsOf bs).map E.txWeight).sum ∧
    pool'.maxWeight = pool.maxWeight
  whole : Room E pool bs → ∀ x ∈ stored pool.table, x ∈ stored pool'.table
  returned : PopsPass E {x | x ∈ stored pool.table} bs db →
    ∀ tx ∈ txsOf bs, KeptByBlock pool'.table (E.H.txHash tx, tx)
  passes : (∀ x ∈ stored pool.table, x ∈ stored pool'.table) →
    (∀ tx ∈ txsOf bs, (E.H.txHash tx, tx) ∈ stored pool'.table) →
      PopsPass E {x | x ∈ stored pool.table} bs db

theorem Poppable.not_stored (h : Poppable E pool bs) (htx : tx ∈ txsOf bs) :
    (E.H.txHash tx, tx) ∉ stored pool.table := by
  intro hmem
  obtain ⟨e, he, hid, -⟩ := mem_stored.mp hmem
  exact get_eq_none_iff.mp (h.absent tx htx) e he hid

/-- One block: its transactions do not get in each other's way. -/
theorem poppedInto_block (E : Env) (clock : Clock) (db db' : Db) (pool : TxPool) (b : StoredBlock)
    (hreturnable : Returnable E pool (b.txs.reverse.map (offer E))) (hpop : db'.popBlock = db)
    (hact : hfVersionMonzeroAssets ≤ E.idealHardFork db.height) (hmutual : Mutual E b.txs) :
    PoppedInto E db' [b] pool
      (giveBack E db (E.idealHardFork db.height) clock pool (b.txs.reverse.map (offer E))) := by
  have hgiven := givenBack_giveBack E db (E.idealHardFork db.height) clock hact _ pool hreturnable
  have htxs : txsOf [b] = b.txs := by
    simp [txsOf]
  have hsum : ((b.txs.reverse.map (offer E)).map Taken.weight).sum =
      ((txsOf [b]).map E.txWeight).sum := by
    rw [map_map, htxs]
    exact (b.txs.reverse_perm.map E.txWeight).sum_eq
  have hoffers : ∀ P : Taken → Prop, (∀ t ∈ b.txs.reverse.map (offer E), P t) ↔
      ∀ tx ∈ txsOf [b], P (offer E tx) := by
    intro P
    simp [htxs]
  have hoffered : ∀ x, (∃ t ∈ b.txs.reverse.map (offer E), x = entryOf t) ↔
      ∃ tx ∈ txsOf [b], x = (E.H.txHash tx, tx) := by
    intro x
    simp [entryOf, offer, htxs]
  have hpass : Passes E db {x | x ∈ stored pool.table} (b.txs.reverse.map (offer E)) ↔
      PopsPass E {x | x ∈ stored pool.table} [b] db' := by
    rw [passes_iff E db _ hreturnable.nodup, hoffers, PopsPass, hpop, htxs]
    simp only [PopsPass, and_true]
    refine forall_congr' fun tx => forall_congr' fun htx =>
      ⟨fun h => h.mono Set.subset_union_left, stage_of_mutual hmutual htx ?_⟩
    rintro x (hx | hx)
    · exact Or.inl hx
    · exact Or.inr (htxs ▸ (hoffered x).mp hx)
  refine ⟨hgiven.kept, ?_, ?_, ?_, ?_, ?_⟩
  · intro x hx
    rw [← hoffered]
    exact hgiven.source x hx
  · rw [← hsum]
    exact hgiven.total
  · intro hroom
    rw [Room, ← hsum] at hroom
    exact hgiven.whole hroom
  · intro h
    rw [← hpass] at h
    exact (hoffers _).mp (hgiven.returned h)
  · intro hsub hall
    exact hpass.mp (hgiven.passes hsub ((hoffers _).mpr hall))

theorem Poppable.popped (h : Poppable E pool (b :: bs))
    (hnd : ((txsOf (b :: bs)).map E.H.txHash).Nodup)
    (hsource : ∀ x ∈ stored pool'.table, x ∈ stored pool.table ∨
      ∃ tx ∈ txsOf [b], x = (E.H.txHash tx, tx)) : Poppable E pool' bs := by
  have hmem : ∀ tx ∈ txsOf bs, tx ∈ txsOf (b :: bs) := by
    intro tx htx
    rw [txsOf_cons]
    exact mem_append_right _ htx
  refine ⟨fun tx htx => h.plain tx (hmem tx htx), fun tx htx => h.fee tx (hmem tx htx), ?_⟩
  intro tx htx
  rw [get_eq_none_iff]
  intro e he hid
  rcases hsource (e.id, e.tx) (mem_stored.mpr ⟨e, he, rfl, rfl⟩) with hold | ⟨tx', htx', heq⟩
  · obtain ⟨f, hf, hfid, -⟩ := mem_stored.mp hold
    exact get_eq_none_iff.mp (h.absent tx (hmem tx htx)) f hf (hfid.trans hid)
  · have hsame : E.H.txHash tx' = E.H.txHash tx := (congrArg Prod.fst heq).symm.trans hid
    exact ids_apart hnd (by simpa [txsOf] using htx') htx hsame

/-- The pops of a block and of those below it. -/
theorem PoppedInto.trans {db' : Db} {pool₁ : TxPool} (hpop : db'.popBlock = db)
    (hpoppable : Poppable E pool (b :: bs)) (hnd : ((txsOf (b :: bs)).map E.H.txHash).Nodup)
    (hmutual : Mutual E (txsOf (b :: bs))) (h : PoppedInto E db' [b] pool pool₁)
    (h' : PoppedInto E db bs pool₁ pool') : PoppedInto E db' (b :: bs) pool pool' := by
  have hsplit : txsOf (b :: bs) = txsOf [b] ++ txsOf bs := by
    simp [txsOf]
  have hone : PopsPass E {x | x ∈ stored pool.table} (b :: bs) db' ↔
      PopsPass E {x | x ∈ stored pool.table} [b] db' ∧
        PopsPass E {x | x ∈ stored pool.table} bs db := by
    simp only [PopsPass, hpop, and_true]
  refine ⟨fun x hx => h'.kept x (h.kept x hx), ?_, ?_, ?_, ?_, ?_⟩
  · intro x hx
    rw [hsplit]
    rcases h'.source x hx with hx | ⟨tx, htx, rfl⟩
    · rcases h.source x hx with hx | ⟨tx, htx, rfl⟩
      · exact Or.inl hx
      · exact Or.inr ⟨tx, mem_append_left _ htx, rfl⟩
    · exact Or.inr ⟨tx, mem_append_right _ htx, rfl⟩
  · obtain ⟨hless, hlim⟩ := h.total
    obtain ⟨hless', hlim'⟩ := h'.total
    rw [hsplit, map_append, sum_append]
    exact ⟨by omega, hlim'.trans hlim⟩
  · intro hroom x hx
    obtain ⟨hless, hlim⟩ := h.total
    rw [Room, hsplit, map_append, sum_append] at hroom
    have hroom' : Room E pool₁ bs := by
      rw [Room]
      omega
    exact h'.whole hroom' x (h.whole (by rw [Room]; omega) x hx)
  · rw [hone, hsplit, forall_mem_append]
    rintro ⟨hfirst, hrest⟩
    refine ⟨fun tx htx => h'.kept _ (h.returned hfirst tx htx), h'.returned (hrest.imp ?_)⟩
    -- What was added to the pool for the first block gets in the way of none of the others.
    intro tx htx db
    refine stage_of_mutual hmutual (hsplit ▸ mem_append_right _ htx) fun x hx => ?_
    rcases h.source x hx with hx | ⟨tx', htx', rfl⟩
    · exact Or.inl hx
    · exact Or.inr ⟨tx', hsplit ▸ mem_append_left _ htx', rfl⟩
  · intro hsub hall
    rw [hsplit, forall_mem_append] at hall
    rw [hone]
    -- What is there in the end was not pruned at first, and is not a popped transaction.
    have hfirst : ∀ x ∈ stored pool.table, x ∈ stored pool₁.table := by
      intro x hx
      rcases h'.source x (hsub x hx) with hx' | ⟨tx, htx, rfl⟩
      · exact hx'
      · exact absurd hx (hpoppable.not_stored (hsplit ▸ mem_append_right _ htx))
    have hback : ∀ tx ∈ txsOf [b], (E.H.txHash tx, tx) ∈ stored pool₁.table := by
      intro tx htx
      rcases h'.source _ (hall.1 tx htx) with hx | ⟨tx', htx', heq⟩
      · exact hx
      · exact absurd (congrArg Prod.fst heq)
          (ids_apart hnd (by simpa [txsOf] using htx) htx')
    have hrest : ∀ x ∈ stored pool₁.table, x ∈ stored pool'.table := by
      intro x hx
      rcases h.source x hx with hx | ⟨tx, htx, rfl⟩
      · exact hsub x hx
      · exact hall.1 tx htx
    exact ⟨h.passes hfirst hback, (h'.passes hrest hall.2).imp
      fun tx _ _ hstage => hstage.mono hfirst⟩

/-- Popping a stack of accepted blocks uncovers the chain below it. -/
theorem popBlocks_built (E : Env) (clock : Clock) (base db : Db) (bs : List StoredBlock)
    (h : Built E base bs db) (hne : base.blocks ≠ [])
    (hbelow : base.assets.Below base.height) (hsteady : Steady E db bs.length) (pool : TxPool)
    (hpoppable : Poppable E pool bs) (hnd : ((txsOf bs).map E.H.txHash).Nodup)
    (hcan : Canonical E pool.table) :
    ∃ pool', popBlocks E clock bs.length { db := db, pool := pool } =
        some { db := base, pool := pool' } ∧ Canonical E pool'.table ∧
      PoppedInto E db bs pool pool' := by
  have hmutual := mutual_built E base db bs h hsteady.activeFrom
  induction h generalizing pool with
  | base =>
    refine ⟨pool, rfl, hcan, fun _ hx => hx, fun _ hx => Or.inl hx, ?_, fun _ _ hx => hx,
      by simp [txsOf], fun _ _ => trivial⟩
    exact ⟨Nat.le_add_right _ _, rfl⟩
  | @block bs db b t below accepted ih =>
    have hblks : (addBlock { db with assets := t } b).blocks = b :: db.blocks := rfl
    have hdb := below_built E base db bs below hbelow
    have hnonempty : db.blocks ≠ [] := by
      rw [built_blocks E base db bs below]
      exact append_ne_nil_of_right_ne_nil _ hne
    have hhere : ∀ tx ∈ b.txs, tx ∈ txsOf (b :: bs) := by
      intro tx htx
      rw [txsOf_cons]
      exact mem_append_left _ htx
    have hpop := pop_accepted E clock db b t pool hnonempty hdb accepted
      (fun tx htx => hpoppable.plain tx (hhere tx htx)) (hsteady.version 1 (by simp))
    have hnext := canonical_pop E clock _ _ hpop hcan
    have hpopped := popBlock_accepted E db b t hdb accepted
    have hact : hfVersionMonzeroAssets ≤ E.idealHardFork db.height := hsteady.ideal 1 (by simp)
    have hfirst := poppedInto_block E clock db _ pool b (hpoppable.returnable hnd) hpopped hact
      ⟨fun tx htx => hmutual.parsed tx (hhere tx htx), fun tx htx tx' htx' =>
        hmutual.compatible tx (hhere tx htx) tx' (hhere tx' htx')⟩
    have hnd₁ : ((txsOf bs).map E.H.txHash).Nodup := by
      rw [txsOf_cons, map_append, nodup_append] at hnd
      exact hnd.2.1
    have hsteady₁ := hsteady.tail hblks
    obtain ⟨pool', hpops, hcan', hinto⟩ := ih hsteady₁ _ (hpoppable.popped hnd hfirst.source) hnd₁
      hnext (mutual_built E base db bs below hsteady₁.activeFrom)
    refine ⟨pool', ?_, hcan', hfirst.trans hpopped hpoppable hnd hmutual hinto⟩
    rw [length_cons, popBlocks, hpop]
    exact hpops

theorem listed_built (h : Built E base bs db) :
    ∀ b ∈ bs, b.block.txHashes = b.txs.map E.H.txHash := by
  induction h with
  | base => simp
  | block below accepted ih =>
    rw [forall_mem_cons]
    exact ⟨accepted.listed, ih⟩

/-- The transactions of a stack have different ids, if the store takes no id twice in a block. -/
theorem nodup_built (h : Built E base bs db)
    (hstore : ∀ blocks b, E.canStore blocks b = true → b.block.txHashes.Nodup) :
    ((txsOf bs).map E.H.txHash).Nodup := by
  induction h with
  | base => simp [txsOf]
  | @block bs db b t below accepted ih =>
    rw [txsOf_cons, map_append, nodup_append]
    refine ⟨accepted.listed ▸ hstore _ _ accepted.storable, ih, ?_⟩
    intro id hid id' hid' hsame
    subst hsame
    obtain ⟨tx, htx, rfl⟩ := mem_map.mp hid
    obtain ⟨tx', htx', hhash⟩ := mem_map.mp hid'
    obtain ⟨c, hc, hin⟩ := mem_flatMap.mp htx'
    have hexists : txExists E db (E.H.txHash tx) = true := by
      rw [txExists, any_eq_true]
      refine ⟨c, ?_, ?_⟩
      · rw [built_blocks E base db bs below]
        exact mem_append_left _ hc
      · rw [listed_built below c hc, ← hhash, decide_eq_true_eq]
        exact Or.inl (mem_map_of_mem hin)
    rw [accepted.fresh tx htx] at hexists
    cases hexists

theorem readdBlocks_append (E : Env) (clock : Clock) (blocks : List Block) (block : Block)
    (node node' next : Node) (h : readdBlocks E clock blocks node = (.ok (), node'))
    (hlast : handleBlockToMainChain E clock node' block [] = (.ok (), next)) :
    readdBlocks E clock (blocks ++ [block]) node = (.ok (), next) := by
  induction blocks generalizing node with
  | nil =>
    cases h
    rw [nil_append, readdBlocks, hlast]
    rfl
  | cons first rest ih =>
    rw [readdBlocks] at h
    rw [cons_append, readdBlocks]
    split at h
    · cases h
    · exact ih _ h

theorem readdBlocks_built (clock : Clock) (h : Built E base bs db)
    (hver : ∀ j ≤ bs.length, E.hardFork (db.blocks.drop j) = E.hardFork db.blocks)
    (hnd : ((txsOf bs).map E.H.txHash).Nodup) (hcan : Canonical E pool.table)
    (hpooled : ∀ tx ∈ txsOf bs, (E.H.txHash tx, tx) ∈ stored pool.table) :
    ∃ pool', readdBlocks E clock (bs.reverse.map StoredBlock.block)
        { db := base, pool := pool } = (.ok (), { db := db, pool := pool' }) ∧
      Canonical E pool'.table ∧
      ∀ e ∈ pool.table.rows, e.id ∉ (txsOf bs).map E.H.txHash → e ∈ pool'.table.rows := by
  induction h with
  | base => exact ⟨pool, rfl, hcan, fun e he _ => he⟩
  | @block bs db b t below accepted ih =>
    have hdrop : ∀ j, (addBlock { db with assets := t } b).blocks.drop (j + 1) =
        db.blocks.drop j := fun j => rfl
    have hfst : E.hardFork db.blocks =
        E.hardFork (addBlock { db with assets := t } b).blocks :=
      hver 1 (by simp)
    have hparts := hnd
    rw [txsOf_cons, map_append, nodup_append] at hparts
    rw [txsOf_cons] at hpooled
    obtain ⟨pool₁, hreadd, hcan₁, hkeep⟩ := ih
      (fun j hj => by rw [← hdrop, hver (j + 1) (by simpa using hj), hfst]) hparts.2.1
      (fun tx htx => hpooled tx (mem_append_right _ htx))
    have hleft : ∀ tx ∈ b.txs, (E.H.txHash tx, tx) ∈ stored pool₁.table := by
      intro tx htx
      obtain ⟨e, he, hid, htx'⟩ := mem_stored.mp (hpooled tx (mem_append_left _ htx))
      refine mem_stored.mpr ⟨e, hkeep e he ?_, hid, htx'⟩
      rw [hid]
      intro hmem
      exact hparts.2.2 _ (mem_map_of_mem htx) _ hmem rfl
    obtain ⟨s, hhandled, htxs⟩ := handled_of_accepted E hcan₁ hparts.1 hleft accepted
    have hextend : extend db b.block s.taken t = addBlock { db with assets := t } b := by
      rw [extend, htxs]
    have hres := (handle_eq_ok E clock _ _ b.block []).mpr ⟨s, t, hhandled, rfl⟩
    have hafter : afterChange E clock (E.hardFork db.blocks)
        { db := extend db b.block s.taken t, pool := s.pool } =
          { db := addBlock { db with assets := t } b, pool := s.pool } := by
      rw [hextend, afterChange, if_neg]
      exact fun hne => hne hfst.symm
    rw [hafter] at hres
    refine ⟨s.pool, ?_, ?_, ?_⟩
    · rw [reverse_cons, map_append, map_singleton]
      exact readdBlocks_append E clock _ b.block _ _ _ hreadd hres
    · exact canonical_block E clock hres hcan₁
    · intro e he hid
      rw [txsOf_cons, map_append, mem_append, not_or] at hid
      refine (collectTxs_pool E db _ _ _ _ s hhandled.collected e).mpr ⟨hkeep e he hid.2, ?_⟩
      rw [accepted.listed]
      exact hid.1

theorem collectTxs_only_pool (E : Env) (db : Db) (ver : ℕ) (fast : Bool) (ids : List Hash)
    (s s' : Collecting) (hnone : s.supplement = [])
    (h : collectTxs E db ver fast ids s = (.ok (), s')) :
    ∀ id ∈ ids, ∃ e ∈ s.pool.table.rows, e.id = id := by
  induction ids generalizing s with
  | nil => simp
  | cons id rest ih =>
    obtain ⟨-, found, next, pl, hfind, -, -, hrest⟩ := (collectTxs_cons_eq_ok ..).mp h
    have hpool := findTx_pool E s next id found hfind
    unfold findTx takeTx at hfind
    cases hget : s.pool.table.get id with
    | none =>
      rw [hget] at hfind
      simp [hnone] at hfind
    | some e =>
      obtain ⟨he, hid⟩ := PoolTable.get_eq_some_iff.mp hget
      simp only [hget, Option.some.injEq, Prod.mk.injEq] at hfind
      obtain ⟨-, rfl⟩ := hfind
      rw [forall_mem_cons]
      refine ⟨⟨e, he, hid⟩, fun id' hid' => ?_⟩
      obtain ⟨f, hf, hfid⟩ := ih _ (by exact hnone) hrest id' hid'
      exact ⟨f, ((hpool f).mp hf).1, hfid⟩

theorem readdBlocks_pooled (E : Env) (clock : Clock) (blocks : List Block) (node node' : Node)
    (h : readdBlocks E clock blocks node = (.ok (), node')) :
    ∀ block ∈ blocks, ∀ id ∈ block.txHashes, ∃ e ∈ node.pool.table.rows, e.id = id := by
  induction blocks generalizing node with
  | nil => simp
  | cons first rest ih =>
    rw [readdBlocks] at h
    split at h
    · cases h
    · rename_i next hhandled
      obtain ⟨s, t, hh, rfl⟩ := (handle_eq_ok ..).mp hhandled
      rw [forall_mem_cons]
      refine ⟨collectTxs_only_pool E node.db _ _ _ _ s rfl hh.collected, ?_⟩
      intro block hblk id hid
      obtain ⟨e, he, heid⟩ := ih _ h block hblk id hid
      obtain ⟨f, hf, hfid, -⟩ := within_afterChange E clock _ _ e he
      exact ⟨f, ((collectTxs_pool E node.db _ _ _ _ s hh.collected f).mp hf).1, hfid.trans heid⟩

/-- Every transaction of the top blocks passes the asset stage of `add_tx` on the database below
its block, against the given pool. -/
def PoppedPass (E : Env) (table : PoolTable) : ℕ → Db → Prop
  | 0, _ => True
  | k + 1, db =>
      (∀ b ∈ db.blocks.head?, ∀ tx ∈ b.txs, ∃ payload, assetStage E db.popBlock table tx
        (E.H.txHash tx) (E.idealHardFork db.popBlock.height) = .ok payload) ∧
      PoppedPass E table k db.popBlock

theorem poppedPass_iff (tab : PoolTable)
    (h : Built E base bs db) (hbelow : base.assets.Below base.height)
    (hideal : ∀ j ≤ bs.length, hfVersionMonzeroAssets ≤ E.idealHardFork (db.height - j)) :
    PoppedPass E tab bs.length db ↔ PopsPass E {x | x ∈ stored tab} bs db := by
  induction h with
  | base => exact Iff.rfl
  | @block bs db b t below accepted ih =>
    have hpop := popBlock_accepted E db b t (below_built E base db bs below hbelow) accepted
    have hht : (addBlock { db with assets := t } b).height = db.height + 1 := rfl
    have hhead : ∀ c, c ∈ (addBlock { db with assets := t } b).blocks.head? ↔ c = b := by
      intro c
      simp [addBlock, eq_comm]
    have hact := hideal 1 (by simp)
    rw [hht, Nat.add_sub_cancel] at hact
    rw [length_cons, PoppedPass, PopsPass, hpop, ih]
    · refine and_congr_left fun _ => ?_
      simp only [hhead, forall_eq]
      refine forall_congr' fun tx => forall_congr' fun _ => ?_
      exact assetStage_iff_stage E db tab tx _ _ hact
    · intro j hj
      have hnext := hideal (j + 1) (by simpa using hj)
      rw [hht, Nat.add_sub_add_right] at hnext
      exact hnext

theorem built_top {start : Db} {all : List StoredBlock} (k : ℕ) (h : Built E start all db)
    (hgen : start.height = 1) (hbelow : start.assets.Below start.height) (hk : k < db.height) :
    (db.blocks.take k).length = k ∧ ∃ base, Built E base (db.blocks.take k) db ∧
      base.assets.Below base.height ∧ base.blocks ≠ [] := by
  have hblks := built_blocks E start db all h
  have hlen : k ≤ all.length := by
    have hcnt := congrArg List.length hblks
    rw [length_append] at hcnt
    simp only [height] at hk hgen
    omega
  have htake : all.take k = db.blocks.take k := by
    rw [hblks, take_append_of_le_length hlen]
  obtain ⟨base, hlow, hhigh⟩ := built_split E start db all h k hlen
  rw [htake] at hhigh
  refine ⟨by rw [← htake, length_take, min_eq_left hlen], base, hhigh,
    below_built E start base _ hlow hbelow, ?_⟩
  rw [built_blocks E start base _ hlow]
  refine append_ne_nil_of_right_ne_nil _ fun hnil => ?_
  simp [height, hnil] at hgen

/-- Popped blocks that could be added again found each of their transactions in the pool, which
had it from the pops. -/
theorem popped_of_readd {clock : Clock} {node : Node} (h : Built E base bs db)
    (hnd : ((txsOf bs).map E.H.txHash).Nodup)
    (habs : ∀ tx ∈ txsOf bs, pool.table.get (E.H.txHash tx) = none)
    (hfrom : ∀ x ∈ stored pool'.table, x ∈ stored pool.table ∨
      ∃ tx ∈ txsOf bs, x = (E.H.txHash tx, tx))
    (hreadd : readdBlocks E clock (bs.reverse.map StoredBlock.block)
      { db := base, pool := pool' } = (.ok (), node)) :
    ∀ tx ∈ txsOf bs, (E.H.txHash tx, tx) ∈ stored pool'.table := by
  intro tx htx
  obtain ⟨b, hb, hin⟩ := mem_flatMap.mp htx
  obtain ⟨e, he, hid⟩ := readdBlocks_pooled E clock _ _ _ hreadd b.block
    (mem_map_of_mem (mem_reverse.mpr hb)) (E.H.txHash tx)
    (by rw [listed_built h b hb]; exact mem_map_of_mem hin)
  have hmem := mem_stored.mpr ⟨e, he, rfl, rfl⟩
  rcases hfrom _ hmem with hold | ⟨tx', htx', heq⟩
  · -- A popped transaction was not in the pool before.
    obtain ⟨f, hf, hfid, -⟩ := mem_stored.mp hold
    exact absurd (hfid.trans hid) (get_eq_none_iff.mp (habs tx htx) f hf)
  · have hsame : tx' = tx := inj_on_of_nodup_map hnd htx' htx
      ((congrArg Prod.fst heq).symm.trans hid)
    subst hsame
    rw [← heq]
    exact hmem

/-- The pops of the top blocks can be taken back: the blocks are accepted again, and the database is
the one from before. -/
def Restores (E : Env) (clock : Clock) (node : Node) (k : ℕ) : Prop :=
  ∃ node', rollbackBlockchainSwitching E clock
      ((node.db.blocks.take k).reverse.map StoredBlock.block) (node.db.height - k) node =
    some (.ok (), node') ∧ node'.db = node.db

/-- The sample node with a store that takes no transaction twice in a block. -/
def storingEnv : Env := { toyEnv with canStore := fun _ b => b.block.txHashes.Nodup }

/-- A node after it has accepted a block of some transactions. -/
def grow (node : Node) (txs : List Transaction) : Node :=
  (handleBlockToMainChain storingEnv clock node (blockOf txs) txs).2

theorem grow_step {node : Node}
    (h : (handleBlockToMainChain storingEnv clock node (blockOf txs) txs).1 = .ok ()) :
    NodeStep storingEnv node (.block (blockOf txs) txs clock) (grow node txs) :=
  .block node _ _ _ clock (Prod.ext h rfl)

/-- The issuance of a member of the sample collection. -/
def memberIssue : Transaction := issuanceTx 3 (sampleMember 0)

/-- A collection is issued in one block and a member of it in the next. -/
def twoBlocks : Node := grow (grow startNode [firstIssue]) [memberIssue]

end Monzero.ChainRollback
