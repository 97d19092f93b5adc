import Monzero.PoolRows
import Mathlib.Algebra.BigOperators.Group.List.Basic

/-!
The key-image index and the weight counter of the pool. In a pool that keeps its books
the index holds exactly the pairs of a stored transaction and a key image it spends, and
the counter covers the stored weights. Taking a transaction out keeps the books, and
offering it back as part of a block stores it again unless the asset stage refuses it.
-/
namespace Monzero.PoolIndex

open Checked Primitives TxExtra TxMemoryPool PoolRows List

theorem idsOf_filter (spent : List (Key × List Hash)) (ki k : Key) :
    idsOf (spent.filter fun e => e.1 ≠ ki) k =
      if k = ki then [] else idsOf spent k := by
  induction spent with
  | nil => simp [idsOf]
  | cons e rest ih =>
    obtain ⟨a, ids⟩ := e
    simp only [idsOf] at ih ⊢
    by_cases ha : a = ki
    · rw [filter_cons_of_neg (by simp [ha]), ih]
      by_cases hk : k = ki
      · rw [if_pos hk, if_pos hk]
      · rw [if_neg hk, if_neg hk, lookup_cons, beq_false_of_ne (ha ▸ hk)]
    · rw [filter_cons_of_pos (by simp [ha]), lookup_cons, lookup_cons]
      by_cases hka : k = a
      · subst hka
        simp [ha]
      · rw [beq_false_of_ne hka]
        exact ih

theorem idsOf_setIds (spent : List (Key × List Hash)) (ki k : Key) (ids : List Hash) :
    idsOf (setIds spent ki ids) k = if k = ki then ids else idsOf spent k := by
  by_cases hk : k = ki
  · simp [setIds, idsOf, hk]
  · have hrest := idsOf_filter spent ki k
    rw [if_neg hk] at hrest ⊢
    rw [← hrest]
    simp [setIds, idsOf, lookup_cons, beq_false_of_ne hk]

/-- All inputs of a transaction are key images, and none occurs twice. -/
structure PlainInputs (vin : List TxIn) : Prop where
  keys : ∀ input ∈ vin, ∃ keyImage, input = .toKey keyImage
  nodup : vin.Nodup

variable (pool : TxPool) (E : Env) (db : Db) (table : PoolTable) (e : PoolTx) (id : Hash)
  (vin : List TxIn) {spent : List (Key × List Hash)}

/-- Removing the key images of an indexed transaction removes its id from their sets and
nothing else. -/
theorem mem_removeKeyImages (spent : List (Key × List Hash)) (hplain : PlainInputs vin)
    (hindexed : ∀ k, .toKey k ∈ vin → id ∈ idsOf spent k) (k : Key) (x : Hash) :
    x ∈ idsOf (removeKeyImages id vin spent) k ↔
      x ∈ idsOf spent k ∧ ¬(x = id ∧ .toKey k ∈ vin) := by
  induction vin generalizing spent with
  | nil => simp [removeKeyImages]
  | cons input rest ih =>
    obtain ⟨ki, rfl⟩ := hplain.keys input mem_cons_self
    have hnd := nodup_cons.mp hplain.nodup
    have hmem := hindexed ki mem_cons_self
    rw [removeKeyImages, if_pos hmem]
    -- The set without the id replaces the old one, or its ent goes when it is empty.
    generalize hnext : (if ((idsOf spent ki).filter fun i => i ≠ id) = [] then
      spent.filter fun e => e.1 ≠ ki
      else setIds spent ki ((idsOf spent ki).filter fun i => i ≠ id)) = next
    have hids : ∀ k', idsOf next k' = if k' = ki then
        (idsOf spent ki).filter (fun i => i ≠ id) else idsOf spent k' := by
      intro k'
      rw [← hnext]
      split
      · rename_i hemp
        rw [idsOf_filter, hemp]
      · exact idsOf_setIds _ _ _ _
    have hrest : ∀ k', .toKey k' ∈ rest → k' ≠ ki := by
      intro k' hk' heq
      exact hnd.1 (heq ▸ hk')
    have hih := ih next ⟨fun i hi => hplain.keys i (mem_cons_of_mem _ hi), hnd.2⟩ (by
      intro k' hk'
      rw [hids, if_neg (hrest k' hk')]
      exact hindexed k' (mem_cons_of_mem _ hk'))
    dsimp only
    rw [hnext, hih, hids, mem_cons]
    by_cases hk : k = ki
    · subst hk
      have hnot : TxIn.toKey k ∉ rest := hnd.1
      simp [hnot]
    · simp [hk]

/-- An index that says who spends what says the same without a transaction after it was removed with
all that it spends. -/
theorem mem_removed_iff {spends : Hash → Key → Prop} {id : Hash} {vin : List TxIn}
    (hplain : PlainInputs vin) (hidx : ∀ k x, x ∈ idsOf spent k ↔ spends x k)
    (hspends : ∀ k, spends id k ↔ .toKey k ∈ vin) (k : Key) (x : Hash) :
    x ∈ idsOf (removeKeyImages id vin spent) k ↔ spends x k ∧ x ≠ id := by
  rw [mem_removeKeyImages id vin spent hplain
    (fun k hk => (hidx k id).mpr ((hspends k).mpr hk)), hidx]
  refine and_congr_right fun hx => not_congr ⟨And.left, ?_⟩
  rintro rfl
  exact ⟨rfl, (hspends k).mp hx⟩

/-- The map has one entry for each key image, with a set that is not empty. -/
structure Tidy (spent : List (Key × List Hash)) : Prop where
  keys : (spent.map Prod.fst).Nodup
  sets : ∀ entry ∈ spent, entry.2 ≠ [] ∧ entry.2.Nodup

theorem tidy_filter (ki : Key) (h : Tidy spent) : Tidy (spent.filter fun e => e.1 ≠ ki) where
  keys := h.keys.sublist (filter_sublist.map _)
  sets entry hent := h.sets entry (mem_of_mem_filter hent)

variable {keyImage : Key} {ids : List Hash} {relay : RelayMethod} {rest : List TxIn}

theorem tidy_setIds (h : Tidy spent) (hne : ids ≠ [])
    (hnd : ids.Nodup) : Tidy (setIds spent keyImage ids) where
  keys := by
    rw [setIds, map_cons, nodup_cons]
    refine ⟨?_, (tidy_filter keyImage h).keys⟩
    intro hmem
    obtain ⟨ent, hent, hkey⟩ := mem_map.mp hmem
    simpa [hkey] using (mem_filter.mp hent).2
  sets ent hent := by
    rcases mem_cons.mp hent with rfl | hold
    · exact ⟨hne, hnd⟩
    · exact (tidy_filter keyImage h).sets ent hold

theorem nodup_idsOf (h : Tidy spent) (k : Key) : (idsOf spent k).Nodup := by
  rw [idsOf]
  cases hlookup : spent.lookup k with
  | none => exact nodup_nil
  | some ids =>
    obtain ⟨front, back, rfl, -⟩ := lookup_eq_some_iff.mp hlookup
    exact (h.sets (k, ids) (by simp)).2

theorem tidy_removeKeyImages (h : Tidy spent) : Tidy (removeKeyImages id vin spent) := by
  induction vin generalizing spent with
  | nil => exact h
  | cons input rest ih =>
    cases input with
    | gen height => exact h
    | toKey keyImage =>
      rw [removeKeyImages]
      split
      · apply ih
        split
        · exact tidy_filter keyImage h
        · rename_i hne
          exact tidy_setIds h hne ((nodup_idsOf h keyImage).filter _)
      · exact h

/-- When `insert_key_images` accepts: a transaction that is not kept by a block shares none of
its key images, and one that is stored for everyone is not indexed yet. -/
structure Insertable (table : PoolTable) (id : Hash) (relay : RelayMethod) (vin : List TxIn)
    (spent : List (Key × List Hash)) : Prop where
  keys : ∀ input ∈ vin, ∃ keyImage, input = .toKey keyImage
  alone : relay ≠ .block → ∀ k, .toKey k ∈ vin → idsOf spent k = [] ∨ idsOf spent k = [id]
  fresh : ∀ e, table.get id = some e → e.info.relayMethod.isLegacy = true →
    vin.Nodup ∧ ∀ k, .toKey k ∈ vin → id ∉ idsOf spent k

/-- The first key image is accepted: its set has the id in it, and no other if it is to be
alone. -/
theorem insertKeyImages_head {tab : PoolTable} {id : Hash}
    (h : Insertable tab id relay (.toKey keyImage :: rest) spent) :
    ∃ ids, insertKeyImages tab id relay (.toKey keyImage :: rest) spent =
        insertKeyImages tab id relay rest (setIds spent keyImage ids) ∧
      (∀ x, x ∈ ids ↔ x ∈ idsOf spent keyImage ∨ x = id) ∧
      (idsOf spent keyImage = [] ∨ idsOf spent keyImage = [id] → ids = [id]) ∧
      (Tidy spent → ids.Nodup) := by
  have halone : ¬ (relay ≠ .block ∧ ¬(idsOf spent keyImage = [] ∨ idsOf spent keyImage = [id])) :=
    fun hshared => hshared.2 (h.alone hshared.1 keyImage mem_cons_self)
  by_cases hmem : id ∈ idsOf spent keyImage
  · refine ⟨idsOf spent keyImage, ?_, ?_, ?_, fun ht => nodup_idsOf ht keyImage⟩
    · rw [insertKeyImages, if_neg halone, if_pos hmem]
      cases hget : tab.get id with
      | none => rfl
      | some e =>
        have hprivate : e.info.relayMethod.isLegacy ≠ true := fun hlegacy =>
          (h.fresh e hget hlegacy).2 keyImage mem_cons_self hmem
        exact if_neg hprivate
    · intro x
      constructor
      · exact Or.inl
      · rintro (hx | rfl)
        · exact hx
        · exact hmem
    · rintro (hnone | hone)
      · simp [hnone] at hmem
      · exact hone
  · refine ⟨idsOf spent keyImage ++ [id], ?_, by simp, ?_, ?_⟩
    · rw [insertKeyImages, if_neg halone, if_neg hmem]
    · rintro (hnone | hone)
      · rw [hnone, nil_append]
      · simp [hone] at hmem
    · intro ht
      rw [nodup_append]
      refine ⟨nodup_idsOf ht keyImage, nodup_singleton _, ?_⟩
      intro a ha b hb hab
      rw [mem_singleton] at hb
      exact hmem (hb ▸ hab ▸ ha)

theorem Insertable.tail {tab : PoolTable} {id : Hash}
    (h : Insertable tab id relay (.toKey keyImage :: rest) spent)
    (honly : idsOf spent keyImage = [] ∨ idsOf spent keyImage = [id] → ids = [id]) :
    Insertable tab id relay rest (setIds spent keyImage ids) where
  keys i hi := h.keys i (mem_cons_of_mem _ hi)
  alone := by
    intro hrelay k hk
    rw [idsOf_setIds]
    split
    · exact Or.inr (honly (h.alone hrelay keyImage mem_cons_self))
    · exact h.alone hrelay k (mem_cons_of_mem _ hk)
  fresh := by
    intro e hget hlegacy
    obtain ⟨hnd, hnot⟩ := h.fresh e hget hlegacy
    obtain ⟨hhead, htail⟩ := nodup_cons.mp hnd
    refine ⟨htail, fun k hk => ?_⟩
    rw [idsOf_setIds, if_neg]
    · exact hnot k (mem_cons_of_mem _ hk)
    · rintro rfl
      exact hhead hk

theorem insertKeyImages_spec (relay : RelayMethod) (vin : List TxIn)
    (spent : List (Key × List Hash)) (h : Insertable table id relay vin spent) :
    ∃ spent', insertKeyImages table id relay vin spent = (true, spent') ∧
      (Tidy spent → Tidy spent') ∧
      ∀ k x, x ∈ idsOf spent' k ↔ x ∈ idsOf spent k ∨ (x = id ∧ .toKey k ∈ vin) := by
  induction vin generalizing spent with
  | nil => exact ⟨spent, rfl, fun h => h, by simp⟩
  | cons input rest ih =>
    obtain ⟨keyImage, rfl⟩ := h.keys input mem_cons_self
    obtain ⟨ids, hstep, hids, honly, hnd⟩ := insertKeyImages_head h
    obtain ⟨spent', hinsert, htidy, hspent⟩ := ih _ (h.tail honly)
    refine ⟨spent', hstep.trans hinsert, ?_, ?_⟩
    · intro ht
      have hne : ids ≠ [] := ne_nil_of_mem ((hids id).mpr (Or.inr rfl))
      exact htidy (tidy_setIds ht hne (hnd ht))
    · intro k x
      rw [hspent, idsOf_setIds, mem_cons]
      by_cases hk : k = keyImage
      · subst hk
        rw [if_pos rfl, hids]
        constructor
        · rintro ((hx | rfl) | ⟨rfl, -⟩)
          · exact Or.inl hx
          · exact Or.inr ⟨rfl, Or.inl rfl⟩
          · exact Or.inr ⟨rfl, Or.inl rfl⟩
        · rintro (hx | ⟨rfl, -⟩)
          · exact Or.inl (Or.inl hx)
          · exact Or.inl (Or.inr rfl)
      · simp [hk]

/-- The key images of a transaction kept by a block are always inserted, if it is not stored
and spends key images only. -/
theorem insertKeyImages_block (spent : List (Key × List Hash)) (habs : table.get id = none)
    (hkeys : ∀ input ∈ vin, ∃ keyImage, input = .toKey keyImage) :
    ∃ spent', insertKeyImages table id .block vin spent = (true, spent') ∧
      ∀ k x, x ∈ idsOf spent' k ↔ x ∈ idsOf spent k ∨ (x = id ∧ .toKey k ∈ vin) := by
  have hinsertable : Insertable table id .block vin spent := by
    refine ⟨hkeys, fun hne => absurd rfl hne, ?_⟩
    intro e hget
    rw [habs] at hget
    cases hget
  obtain ⟨spent', hinsert, -, hspent⟩ := insertKeyImages_spec table id .block vin spent hinsertable
  exact ⟨spent', hinsert, hspent⟩

/-- The weights of the stored transactions. -/
def rowsWeight (table : PoolTable) : ℕ := (table.rows.map fun e => e.info.weight).sum

/-- A pool that keeps its books: the index mirrors the stored transactions, whose fees can be
computed, and the counter covers their weights. -/
structure Booked (E : Env) (pool : TxPool) : Prop where
  inputs : ∀ e ∈ pool.table.rows, PlainInputs e.tx.vin
  fee : ∀ e ∈ pool.table.rows, E.fee e.tx ≠ none
  index : ∀ k id, id ∈ idsOf pool.spentKeyImages k ↔
    ∃ e ∈ pool.table.rows, e.id = id ∧ .toKey k ∈ e.tx.vin
  weight : rowsWeight pool.table ≤ pool.weight

theorem rows_perm_remove (he : e ∈ table.rows) :
    table.rows.Perm (e :: (table.remove e.id).rows) := by
  have hnd : table.rows.Nodup := List.Nodup.of_map _ table.ids_nodup
  have hfilter : (table.remove e.id).rows = table.rows.erase e := by
    rw [hnd.erase_eq_filter]
    refine filter_congr fun f hf => ?_
    by_cases hid : f.id = e.id
    · have hfe := inj_on_of_nodup_map table.ids_nodup hf he hid
      simp [hfe]
    · have hfe : f ≠ e := fun h => hid (h ▸ rfl)
      simp [hid, hfe]
  rw [hfilter]
  exact perm_cons_erase he

variable {table e} in
theorem rowsWeight_remove (he : e ∈ table.rows) :
    rowsWeight table = e.info.weight + rowsWeight (table.remove e.id) := by
  unfold rowsWeight
  rw [((rows_perm_remove table e he).map fun e => e.info.weight).sum_eq, map_cons, sum_cons]

theorem rowsWeight_put (habs : table.get e.id = none) :
    rowsWeight (table.put e) = rowsWeight table + e.info.weight := by
  have hremove : (table.remove e.id).rows = table.rows := by
    refine filter_eq_self.mpr fun f hf => ?_
    simpa using PoolTable.get_eq_none_iff.mp habs f hf
  simp [rowsWeight, PoolTable.put, hremove]

/-- Removing a transaction keeps the books, whatever the order by fee is then. -/
theorem booked_removeEntry {pool : TxPool} {e : PoolTx} (he : e ∈ pool.table.rows)
    (byFee : List FeeEntry) (h : Booked E pool) : Booked E (removeEntry pool e byFee) := by
  have hwt := rowsWeight_remove he
  have hcover := h.weight
  have hspends : ∀ k, (∃ f ∈ pool.table.rows, f.id = e.id ∧ .toKey k ∈ f.tx.vin) ↔
      .toKey k ∈ e.tx.vin := by
    intro k
    constructor
    · rintro ⟨f, hf, hid, hk⟩
      rw [← inj_on_of_nodup_map pool.table.ids_nodup hf he hid]
      exact hk
    · intro hk
      exact ⟨e, he, rfl, hk⟩
  refine ⟨?_, ?_, ?_, ?_⟩
  · intro f hf
    exact h.inputs f (PoolTable.mem_remove.mp hf).1
  · intro f hf
    exact h.fee f (PoolTable.mem_remove.mp hf).1
  · intro k id
    change id ∈ idsOf (removeKeyImages e.id e.tx.vin pool.spentKeyImages) k ↔
      ∃ f ∈ (pool.table.remove e.id).rows, f.id = id ∧ .toKey k ∈ f.tx.vin
    rw [mem_removed_iff (h.inputs e he) h.index hspends]
    constructor
    · rintro ⟨⟨f, hf, rfl, hk⟩, hne⟩
      exact ⟨f, PoolTable.mem_remove.mpr ⟨hf, hne⟩, rfl, hk⟩
    · rintro ⟨f, hf, rfl, hk⟩
      obtain ⟨hmem, hne⟩ := PoolTable.mem_remove.mp hf
      exact ⟨⟨f, hmem, rfl, hk⟩, hne⟩
  · change rowsWeight (pool.table.remove e.id) ≤ pool.weight - e.info.weight
    omega

/-- Taking a transaction out keeps the books and lowers the counter by its weight. -/
theorem booked_takeTx {pool : TxPool} {e : PoolTx} (he : e ∈ pool.table.rows) (h : Booked E pool) :
    Booked E (takeTx pool e.id).2 ∧ (takeTx pool e.id).2.weight + e.info.weight = pool.weight ∧
      (takeTx pool e.id).2.maxWeight = pool.maxWeight := by
  have hget := PoolTable.get_eq_some_iff.mpr ⟨he, rfl⟩
  have hwt := rowsWeight_remove he
  have hcover := h.weight
  rw [takeTx, hget]
  refine ⟨booked_removeEntry E he _ h, ?_, rfl⟩
  change pool.weight - e.info.weight + e.info.weight = pool.weight
  omega

/-- Pruning keeps the books and raises no weight. -/
theorem booked_prune (pool : TxPool) :
    (Booked E pool → Booked E (prune pool)) ∧ (prune pool).weight ≤ pool.weight ∧
      (prune pool).maxWeight = pool.maxWeight := by
  have hpruned := pruneLoop_invariant
    (fun _ pruned => (Booked E pool → Booked E pruned) ∧ pruned.weight ≤ pool.weight ∧
      pruned.maxWeight = pool.maxWeight)
    pool.maxWeight pool.byFee.reverse pool (fun _ _ _ h => h) ?_
    ⟨fun h => h, le_refl _, rfl⟩
  · obtain ⟨-, h⟩ := hpruned
    exact h
  · intro entry rest pruned e ⟨hbooked, hless, hmax⟩ he _ _
    exact ⟨fun h => booked_removeEntry E he _ (hbooked h), (Nat.sub_le _ _).trans hless, hmax⟩

/-- What a transaction kept by a block has to pass: the asset stage, and a fee that can be
computed. -/
theorem admission_block (pool : TxPool) (tx : Transaction) (id : Hash) (wt ver fee : ℕ) :
    admission E db pool tx id wt .block ver ver = .ok fee ↔
      (∃ pl, assetStage E db pool.table tx id ver = .ok pl) ∧ E.fee tx = some fee := by
  simp only [admission, bind_eq_ok, failIf_eq_ok, exists_unit, ne_eq, not_true_eq_false, false_and,
    not_false_eq_true, true_and]
  constructor
  · rintro ⟨pl, hstage, h⟩
    cases hfee : E.fee tx with
    | none =>
      rw [hfee] at h
      cases h
    | some f =>
      rw [hfee] at h
      simp only [bind_eq_ok, failIf_eq_ok, exists_unit, pure_eq_ok] at h
      exact ⟨⟨pl, hstage⟩, by rw [h.2.2.2.2]⟩
  · rintro ⟨⟨pl, hstage⟩, hfee⟩
    refine ⟨pl, hstage, ?_⟩
    rw [hfee]
    simp [failIf, bind, Except.bind, pure, Except.pure]

def withRow (pool : TxPool) (e : PoolTx) (spent : List (Key × List Hash)) (entry : FeeEntry) :
    TxPool :=
  { addToTransientLists { pool with spentKeyImages := spent, table := pool.table.put e } entry with
    weight := pool.weight + e.info.weight }

@[simp] theorem withRow_table (spent : List (Key × List Hash)) (ent : FeeEntry) :
    (withRow pool e spent ent).table = pool.table.put e :=
  addToTransientLists_table _

@[simp] theorem withRow_spentKeyImages (spent : List (Key × List Hash)) (ent : FeeEntry) :
    (withRow pool e spent ent).spentKeyImages = spent := by
  unfold withRow addToTransientLists
  split <;> rfl

@[simp] theorem withRow_weight (spent : List (Key × List Hash)) (ent : FeeEntry) :
    (withRow pool e spent ent).weight = pool.weight + e.info.weight := rfl

@[simp] theorem withRow_maxWeight (spent : List (Key × List Hash)) (ent : FeeEntry) :
    (withRow pool e spent ent).maxWeight = pool.maxWeight := by
  unfold withRow addToTransientLists
  split <;> rfl

/-- A transaction kept by a block that passes the asset stage is stored, unless it is stored
already. -/
theorem addTx_block {pool : TxPool} {tx : Transaction} {id : Hash} (wt : ℕ) (rld : Bool)
    {ver fee : ℕ} (clock : Clock) (hstage : ∃ pl, assetStage E db pool.table tx id ver = .ok pl)
    (hfee : E.fee tx = some fee) (habs : pool.table.get id = none)
    (hkeys : ∀ input ∈ tx.vin, ∃ keyImage, input = .toKey keyImage) :
    ∃ info spent ent, info.relayMethod = .block ∧ info.weight = wt ∧ info.fee = fee ∧
      (∀ k x, x ∈ idsOf spent k ↔ x ∈ idsOf pool.spentKeyImages k ∨ (x = id ∧ .toKey k ∈ tx.vin)) ∧
      addTx E db pool tx id wt .block rld ver ver clock =
        (.ok true, prune (withRow pool { id := id, info := info, tx := tx } spent ent)) := by
  have hadmission := (admission_block E db pool tx id wt ver fee).mpr ⟨hstage, hfee⟩
  obtain ⟨spent, hinsert, hspent⟩ :=
    insertKeyImages_block pool.table id tx.vin pool.spentKeyImages habs hkeys
  unfold addTx
  simp only [hadmission, decide_true, if_true, habs, store, hinsert, addToTransientLists_weight]
  cases E.checkTxInputs db.blocks tx true with
  | none => exact ⟨_, spent, _, rfl, rfl, rfl, hspent, rfl⟩
  | some used => exact ⟨_, spent, _, rfl, rfl, rfl, hspent, rfl⟩

/-- A transaction is stored as kept by a block. -/
def KeptByBlock (table : PoolTable) (x : Hash × Transaction) : Prop :=
  ∃ e ∈ table.rows, e.id = x.1 ∧ e.tx = x.2 ∧ e.info.relayMethod = .block

theorem KeptByBlock.stored {table : PoolTable} {x : Hash × Transaction} (h : KeptByBlock table x) :
    x ∈ stored table := by
  obtain ⟨e, he, hid, htx, -⟩ := h
  exact mem_stored.mpr ⟨e, he, hid, htx⟩

/-- What adding a transaction kept by a block does to a pool. It stays with the others that are
kept by a block; what else there was may be pruned, but not within the weight limit. -/
structure AddedForBlock (E : Env) (pool : TxPool) (id : Hash) (tx : Transaction) (weight : ℕ)
    (pool' : TxPool) : Prop where
  booked : Booked E pool → Booked E pool'
  new : KeptByBlock pool'.table (id, tx)
  kept : ∀ x, KeptByBlock pool.table x → KeptByBlock pool'.table x
  source : ∀ x ∈ stored pool'.table, x ∈ stored pool.table ∨ x = (id, tx)
  total : pool'.weight ≤ pool.weight + weight ∧ pool'.maxWeight = pool.maxWeight
  whole : pool.weight + weight ≤ pool.maxWeight → ∀ x ∈ stored pool.table, x ∈ stored pool'.table

theorem mem_put_absent {table : PoolTable} (new : PoolTx) (habs : table.get new.id = none)
    (e : PoolTx) : e ∈ (table.put new).rows ↔ e ∈ table.rows ∨ e = new := by
  rw [PoolTable.mem_put]
  constructor
  · exact Or.imp_left And.left
  · exact Or.imp_left fun he => ⟨he, PoolTable.get_eq_none_iff.mp habs e he⟩

theorem booked_withRow {pool : TxPool} {new : PoolTx} (h : Booked E pool) (ent : FeeEntry)
    (habs : pool.table.get new.id = none) (hplain : PlainInputs new.tx.vin)
    (hfee : E.fee new.tx ≠ none) (hspent : ∀ k x, x ∈ idsOf spent k ↔
      x ∈ idsOf pool.spentKeyImages k ∨ (x = new.id ∧ .toKey k ∈ new.tx.vin)) :
    Booked E (withRow pool new spent ent) := by
  refine ⟨?_, ?_, ?_, ?_⟩
  · intro e he
    rw [withRow_table, mem_put_absent _ habs] at he
    rcases he with he | rfl
    · exact h.inputs e he
    · exact hplain
  · intro e he
    rw [withRow_table, mem_put_absent _ habs] at he
    rcases he with he | rfl
    · exact h.fee e he
    · exact hfee
  · intro k x
    simp only [withRow_spentKeyImages, withRow_table, hspent, mem_put_absent _ habs, h.index,
      or_and_right, exists_or, exists_eq_left]
    exact or_congr_right (and_congr_left fun _ => eq_comm)
  · rw [withRow_table, withRow_weight, rowsWeight_put _ _ habs]
    have hcover := h.weight
    omega

/-- A transaction kept by a block that passes the asset stage and is not stored yet is added. -/
theorem addedForBlock_addTx (pool : TxPool) (tx : Transaction) (id : Hash) (weight : ℕ)
    (relayed : Bool) (version : ℕ) (clock : Clock)
    (hstage : ∃ payload, assetStage E db pool.table tx id version = .ok payload)
    (hfee : E.fee tx ≠ none) (habs : pool.table.get id = none) (hplain : PlainInputs tx.vin) :
    AddedForBlock E pool id tx weight
      (addTx E db pool tx id weight .block relayed version version clock).2 := by
  obtain ⟨fee, hfee'⟩ := Option.ne_none_iff_exists'.mp hfee
  obtain ⟨info, spent, entry, hrelay, hwt, -, hspent, hadd⟩ :=
    addTx_block E db weight relayed clock hstage hfee' habs hplain.keys
  have hrows := mem_put_absent { id := id, info := info, tx := tx } habs
  have hpruned := prune_rows (withRow pool { id := id, info := info, tx := tx } spent entry)
  obtain ⟨hbooks, hless, hmax⟩ :=
    booked_prune E (withRow pool { id := id, info := info, tx := tx } spent entry)
  rw [hadd]
  refine ⟨fun h => hbooks (booked_withRow E h entry habs hplain hfee hspent), ?_, ?_, ?_, ?_, ?_⟩
  · refine ⟨{ id := id, info := info, tx := tx }, hpruned.2 _ ?_ hrelay, rfl, rfl, hrelay⟩
    rw [withRow_table, hrows]
    exact Or.inr rfl
  · rintro x ⟨e, he, hid, htx, hblock⟩
    refine ⟨e, hpruned.2 e ?_ hblock, hid, htx, hblock⟩
    rw [withRow_table, hrows]
    exact Or.inl he
  · rintro ⟨a, b⟩ hx
    obtain ⟨e, he, rfl, rfl⟩ := mem_stored.mp hx
    have hrow := hpruned.1 e he
    rw [withRow_table, hrows] at hrow
    rcases hrow with hold | rfl
    · exact Or.inl (mem_stored.mpr ⟨e, hold, rfl, rfl⟩)
    · exact Or.inr rfl
  · rw [withRow_weight, hwt] at hless
    exact ⟨hless, hmax.trans (withRow_maxWeight ..)⟩
  · rintro hlimit ⟨a, b⟩ hx
    obtain ⟨e, he, rfl, rfl⟩ := mem_stored.mp hx
    rw [prune_of_weight_le _ (by rw [withRow_weight, withRow_maxWeight, hwt]; exact hlimit)]
    refine mem_stored.mpr ⟨e, ?_, rfl, rfl⟩
    rw [withRow_table, hrows]
    exact Or.inl he

theorem assetStage_ne_doubleSpend (tx : Transaction) (id : Hash) (ver : ℕ) :
    assetStage E db table tx id ver ≠ .error .doubleSpend := by
  intro h
  unfold assetStage at h
  split at h
  · cases h
  · simp only [bind_eq_error, mapError_eq_error, reduceCtorEq, and_false, exists_false,
      false_or] at h
    obtain ⟨pl, -, h⟩ := h
    cases pl with
    | none => cases h
    | some p =>
      simp only [bind_eq_error, mapError_eq_error, failIf_eq_error, reduceCtorEq, and_false,
        exists_false, false_or] at h
      obtain ⟨-, -, -, -, -, -, h⟩ := h
      cases h

theorem addTx_block_refused (pool : TxPool) (tx : Transaction) (id : Hash) (wt : ℕ) (rld : Bool)
    (ver : ℕ) (clock : Clock) (hstage : ¬∃ pl, assetStage E db pool.table tx id ver = .ok pl) :
    (addTx E db pool tx id wt .block rld ver ver clock).2 = pool := by
  cases hassets : assetStage E db pool.table tx id ver with
  | ok pl => exact absurd ⟨pl, hassets⟩ hstage
  | error e =>
    have hadmission : admission E db pool tx id wt .block ver ver = .error e := by
      simp [admission, failIf, hassets, bind, Except.bind]
    have hne : e ≠ .doubleSpend := by
      intro he
      exact assetStage_ne_doubleSpend E db pool.table tx id ver (he ▸ hassets)
    unfold addTx
    rw [hadmission]
    split
    · rename_i heq
      cases heq
      exact absurd rfl hne
    · rfl
    · rename_i heq
      cases heq

end Monzero.PoolIndex
