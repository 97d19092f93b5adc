import Monzero.TxMemoryPool

/-!
What the operations of the pool do to the stored transactions. Marking, taking and
pruning never bring a transaction in; pruning never removes one that is kept by a
block. A call of `add_tx` stores at most the transaction it was given, and only after
the asset stage has passed.
-/
namespace Monzero.PoolRows

open Checked Primitives TxExtra TxMemoryPool List

namespace PoolTable

theorem get_eq_some_iff {t : PoolTable} {id : Hash} {e : PoolTx} :
    t.get id = some e ↔ e ∈ t.rows ∧ e.id = id := by
  constructor
  · intro h
    exact ⟨mem_of_find?_eq_some h, by simpa using find?_some h⟩
  · rintro ⟨he, rfl⟩
    cases hget : t.get e.id with
    | none => simpa using find?_eq_none.mp hget e he
    | some f =>
      have hf : f.id = e.id := by simpa using find?_some hget
      rw [inj_on_of_nodup_map t.ids_nodup (mem_of_find?_eq_some hget) he hf]

theorem get_eq_none_iff {t : PoolTable} {id : Hash} :
    t.get id = none ↔ ∀ e ∈ t.rows, e.id ≠ id := by
  simp [PoolTable.get]

theorem mem_remove {t : PoolTable} {id : Hash} {e : PoolTx} :
    e ∈ (t.remove id).rows ↔ e ∈ t.rows ∧ e.id ≠ id := by
  simp [PoolTable.remove]

theorem mem_put {t : PoolTable} {new e : PoolTx} :
    e ∈ (t.put new).rows ↔ (e ∈ t.rows ∧ e.id ≠ new.id) ∨ e = new := by
  rw [PoolTable.put, mem_append, mem_remove, mem_singleton]

end PoolTable

/-- The stored transactions with their ids. -/
def stored (table : PoolTable) : List (Hash × Transaction) :=
  table.rows.map fun e => (e.id, e.tx)

theorem mem_stored {tab : PoolTable} {id : Hash} {tx : Transaction} :
    (id, tx) ∈ stored tab ↔ ∃ e ∈ tab.rows, e.id = id ∧ e.tx = tx := by
  simp [stored]

/-- Every transaction of the first table is stored in the second under the same id. -/
def Within (t' t : PoolTable) : Prop :=
  ∀ e' ∈ t'.rows, ∃ e ∈ t.rows, e.id = e'.id ∧ e.tx = e'.tx

variable (E : Env) (db : Db) (t : PoolTable) (pool : TxPool) (tx : Transaction) (id : Hash)

theorem Within.refl : Within t t := fun e he => ⟨e, he, rfl, rfl⟩

theorem Within.trans {t t' t'' : PoolTable} (h : Within t'' t') (h' : Within t' t) :
    Within t'' t := by
  intro e he
  obtain ⟨e', he', hid, htx⟩ := h e he
  obtain ⟨f, hf, hid', htx'⟩ := h' e' he'
  exact ⟨f, hf, hid'.trans hid, htx'.trans htx⟩

theorem within_of_subset {t t' : PoolTable} (h : ∀ e ∈ t'.rows, e ∈ t.rows) : Within t' t :=
  fun e he => ⟨e, h e he, rfl, rfl⟩

theorem within_remove : Within (t.remove id) t :=
  within_of_subset fun _ he => (PoolTable.mem_remove.mp he).1

theorem within_update (change : TxMeta → TxMeta) : Within (t.update id change) t := by
  intro e' he'
  obtain ⟨e, he, rfl⟩ := mem_map.mp he'
  refine ⟨e, he, ?_⟩
  by_cases hid : e.id = id
  · simp [hid]
  · simp [hid]

/-- Every row of the first table is a row of the second, up to the double spend mark. -/
def Marked (t' t : PoolTable) : Prop :=
  ∀ e' ∈ t'.rows, ∃ e ∈ t.rows, ∃ seen,
    e' = { e with info := { e.info with doubleSpendSeen := seen } }

theorem Marked.refl : Marked t t := fun e he => ⟨e, he, _, rfl⟩

theorem Marked.within {t t' : PoolTable} (h : Marked t' t) : Within t' t := by
  intro e' he'
  obtain ⟨e, he, seen, rfl⟩ := h e' he'
  exact ⟨e, he, rfl, rfl⟩

theorem map_id_update (change : TxMeta → TxMeta) :
    (t.update id change).rows.map PoolTx.id = t.rows.map PoolTx.id := by
  rw [PoolTable.update, map_map]
  refine map_congr_left fun e _ => ?_
  by_cases hid : e.id = id
  · simp [hid]
  · simp [hid]

/-- What a refused transaction leaves of a pool: the rows, up to the double spend mark, the
transient lists and the logs. -/
structure Untouched (pool' pool : TxPool) : Prop where
  marked : Marked pool'.table pool.table
  ids : pool'.table.rows.map PoolTx.id = pool.table.rows.map PoolTx.id
  byFee : pool'.byFee = pool.byFee
  addedById : pool'.addedById = pool.addedById
  log : pool'.log = pool.log

theorem Untouched.refl : Untouched pool pool := ⟨Marked.refl _, rfl, rfl, rfl, rfl⟩

theorem untouched_markDoubleSpend : Untouched (markDoubleSpend pool tx) pool := by
  have hfold : ∀ (ids : List Hash) (t : PoolTable),
      Marked (ids.foldl (fun tab id => tab.update id fun info =>
        { info with doubleSpendSeen := true }) t) t ∧
      (ids.foldl (fun tab id => tab.update id fun info =>
        { info with doubleSpendSeen := true }) t).rows.map PoolTx.id = t.rows.map PoolTx.id := by
    intro ids
    induction ids with
    | nil => exact fun t => ⟨Marked.refl t, rfl⟩
    | cons id rest ih =>
      intro t
      obtain ⟨hmarked, hids⟩ := ih (t.update id fun info => { info with doubleSpendSeen := true })
      refine ⟨?_, hids.trans (map_id_update t id _)⟩
      intro e' he'
      obtain ⟨e, he, seen, rfl⟩ := hmarked e' he'
      obtain ⟨f, hf, rfl⟩ := mem_map.mp he
      refine ⟨f, hf, seen, ?_⟩
      by_cases hid : f.id = id
      · simp [hid]
      · simp [hid]
  exact ⟨(hfold _ _).1, (hfold _ _).2, rfl, rfl, rfl⟩

theorem within_takeTx : Within (takeTx pool id).2.table pool.table := by
  unfold takeTx
  split
  · exact Within.refl _
  · exact within_remove _ _

/-- What holds of the entries to visit and the pool, and is kept when an entry is passed over and
when its transaction is removed, holds of the pruned pool. -/
theorem pruneLoop_invariant (P : List FeeEntry → TxPool → Prop) (bytes : ℕ) (es : List FeeEntry)
    (pool : TxPool) (hskip : ∀ entry rest pool, P (entry :: rest) pool → P rest pool)
    (hremove : ∀ entry rest pool e, P (entry :: rest) pool → e ∈ pool.table.rows →
      e.id = entry.id → e.info.relayMethod ≠ .block →
        P rest (removeEntry pool e (pool.byFee.erase entry)))
    (h : P es pool) : ∃ rest, P rest (pruneLoop bytes es pool) := by
  fun_induction pruneLoop bytes es pool with
  | case1 pool => exact ⟨_, h⟩
  | case2 entry pool => exact ⟨_, h⟩
  | case3 entry rest pool hne hle => exact ⟨_, h⟩
  | case4 entry rest pool hne hle hget ih => exact ih (hskip _ _ _ h)
  | case5 entry rest pool hne hle e hget hblk ih => exact ih (hskip _ _ _ h)
  | case6 entry rest pool hne hle e hget hblk ih =>
    obtain ⟨he, hid⟩ := PoolTable.get_eq_some_iff.mp hget
    exact ih (hremove _ _ _ e h he hid hblk)

/-- What holds of the transactions still to be taken and the pool, and is kept by every turn, holds
of the validated pool. -/
theorem validate_invariant (ver : ℕ) (clock : Clock) (P : List PoolTx → TxPool → Prop)
    (hstep : ∀ e rest pool, P (e :: rest) pool → P rest (revalidate E db ver clock pool e))
    (h : P (listed pool.table) (clearLogs pool)) : P [] (validate E db ver clock pool) := by
  unfold validate
  generalize listed pool.table = rows at h ⊢
  generalize clearLogs pool = start at h ⊢
  induction rows generalizing start with
  | nil => exact h
  | cons e rest ih => exact ih _ (hstep e rest start h)

theorem prune_rows : (∀ e ∈ (prune pool).table.rows, e ∈ pool.table.rows) ∧
    ∀ e ∈ pool.table.rows, e.info.relayMethod = .block → e ∈ (prune pool).table.rows := by
  have hpruned := pruneLoop_invariant
    (fun _ pruned => (∀ e ∈ pruned.table.rows, e ∈ pool.table.rows) ∧
      ∀ e ∈ pool.table.rows, e.info.relayMethod = .block → e ∈ pruned.table.rows)
    pool.maxWeight pool.byFee.reverse pool (fun _ _ _ h => h) ?_ ⟨fun _ h => h, fun _ h _ => h⟩
  · obtain ⟨-, h⟩ := hpruned
    exact h
  · intro entry rest pruned e ⟨hsub, hkept⟩ he hid hblk
    refine ⟨fun f hf => hsub f (PoolTable.mem_remove.mp hf).1, fun f hf hblock => ?_⟩
    refine PoolTable.mem_remove.mpr ⟨hkept f hf hblock, fun hsame => hblk ?_⟩
    exact inj_on_of_nodup_map pruned.table.ids_nodup (hkept f hf hblock) he hsame ▸ hblock

theorem within_prune : Within (prune pool).table pool.table :=
  within_of_subset (prune_rows pool).1

theorem prune_of_weight_le (h : pool.weight ≤ pool.maxWeight) : prune pool = pool := by
  unfold prune
  match pool.byFee.reverse with
  | [] => rfl
  | [entry] => rfl
  | entry :: next :: rest => rw [pruneLoop, if_pos h]; simp

@[simp] theorem addToTransientLists_table {ent : FeeEntry} :
    (addToTransientLists pool ent).table = pool.table := by
  unfold addToTransientLists
  split <;> rfl

@[simp] theorem addToTransientLists_weight {ent : FeeEntry} :
    (addToTransientLists pool ent).weight = pool.weight := by
  unfold addToTransientLists
  split <;> rfl

@[simp] theorem addToTransientLists_log {ent : FeeEntry} :
    (addToTransientLists pool ent).log = pool.log.logAdded ent.id := by
  unfold addToTransientLists
  split <;> rfl

@[simp] theorem mem_addedById_addToTransientLists {ent : FeeEntry} {id : Hash} :
    id ∈ (addToTransientLists pool ent).addedById ↔ id = ent.id ∨ id ∈ pool.addedById := by
  unfold addToTransientLists
  split <;> grind

theorem store_refused {pool pool' : TxPool} {tx : Transaction} {id : Hash} {relay : RelayMethod}
    {info : TxMeta} (h : store E pool tx id relay info = (false, pool')) :
    Untouched pool' pool := by
  unfold store at h
  split at h
  · cases h
    exact ⟨Marked.refl _, rfl, rfl, rfl, rfl⟩
  · cases h

theorem store_accepted (pool pool' : TxPool) (tx : Transaction) (id : Hash) (relay : RelayMethod)
    (info : TxMeta) (h : store E pool tx id relay info = (true, pool')) :
    pool'.table = pool.table.put { id := id, info := info, tx := tx } := by
  unfold store at h
  split at h
  · cases h
  · cases h
    exact addToTransientLists_table _

/-- A transaction is not stored with a relay method that shows it to fewer clients. -/
def Shows (table : PoolTable) (id : Hash) (relay : RelayMethod) : Prop :=
  ∀ e, table.get id = some e → e.info.relayMethod.isBroadcasted = true → relay.isBroadcasted = true

theorem isBroadcasted_of_lt {sto meth : RelayMethod} (hlt : sto.toNat < meth.toNat)
    (hst : sto.isBroadcasted = true) : meth.isBroadcasted = true := by
  cases sto <;> cases meth <;> simp_all [RelayMethod.toNat, RelayMethod.isBroadcasted]

/-- The outcomes of `add_tx`: the transaction is refused before it reaches the tables, it is
refused for its key images, it stays as it was stored, or it is stored. -/
inductive Added (E : Env) (db : Db) (pool : TxPool) (tx : Transaction) (id : Hash)
    (weight : ℕ) (relay : RelayMethod) (version : ℕ) : Except AddTxError Bool × TxPool → Prop
  | refused (e : AddTxError) (pool' : TxPool) (untouched : Untouched pool' pool) :
      Added E db pool tx id weight relay version (.error e, pool')
  | unchanged (stored : pool.table.get id ≠ none) :
      Added E db pool tx id weight relay version (.ok false, prune pool)
  | stored (new : Bool) (method : RelayMethod) (info : TxMeta) (pool' : TxPool) (total : ℕ)
      (checked : ∃ payload, assetStage E db pool.table tx id version = .ok payload)
      (weighed : info.weight = weight) (paid : E.fee tx = some info.fee)
      (accepted : store E pool tx id method info = (true, pool'))
      (shows : Shows pool.table id info.relayMethod)
      (fresh : pool.table.get id = none → info.relayMethod = relay) :
      Added E db pool tx id weight relay version (.ok new, prune { pool' with weight := total })

theorem admission_asset {wt : ℕ} {relay : RelayMethod} {ver nic fee : ℕ}
    (h : admission E db pool tx id wt relay ver nic = .ok fee) :
    (∃ pl, assetStage E db pool.table tx id ver = .ok pl) ∧ E.fee tx = some fee := by
  simp only [admission, bind_eq_ok] at h
  obtain ⟨-, -, -, -, pl, hasset, h⟩ := h
  refine ⟨⟨pl, hasset⟩, ?_⟩
  cases hfee : E.fee tx with
  | none =>
    rw [hfee] at h
    cases h
  | some paid =>
    simp only [hfee, bind_eq_ok, pure_eq_ok] at h
    obtain ⟨-, -, -, -, -, -, -, -, rfl⟩ := h
    rfl

private theorem added_store (wt : ℕ) {ver : ℕ} {relay : RelayMethod} (meth : RelayMethod)
    {info : TxMeta} (new : Bool) (total : TxPool → ℕ)
    (checked : ∃ pl, assetStage E db pool.table tx id ver = .ok pl) (weighed : info.weight = wt)
    (paid : E.fee tx = some info.fee) (shows : Shows pool.table id info.relayMethod)
    (fresh : pool.table.get id = none → info.relayMethod = relay) :
    Added E db pool tx id wt relay ver
      (match store E pool tx id meth info with
      | (false, pool') => (.error .keyImages, pool')
      | (true, pool') => (.ok new, prune { pool' with weight := total pool' })) := by
  cases hstore : store E pool tx id meth info with
  | mk accepted pool' =>
    cases accepted with
    | false => exact .refused _ _ (store_refused E hstore)
    | true => exact .stored new meth info pool' _ checked weighed paid hstore shows fresh

theorem addTx_added (wt : ℕ) (relay : RelayMethod) (rld : Bool) (ver nic : ℕ) (clock : Clock) :
    Added E db pool tx id wt relay ver (addTx E db pool tx id wt relay rld ver nic clock) := by
  unfold addTx
  split
  · exact .refused _ _ (untouched_markDoubleSpend pool tx)
  · exact .refused _ _ (.refl _)
  · rename_i fee hadmission
    obtain ⟨hchecked, hfee⟩ := admission_asset E db pool tx id hadmission
    split
    · by_cases hblk : relay = .block
      · rw [if_pos hblk]
        refine added_store E db pool tx id wt relay true _ hchecked rfl hfee ?_ fun _ => rfl
        exact fun _ _ _ => by rw [hblk]; rfl
      · rw [if_neg hblk]
        exact .refused _ _ (.refl _)
    · split
      · rename_i hget
        refine added_store E db pool tx id wt relay true _ hchecked rfl hfee ?_ fun _ => rfl
        exact fun e he => by simp [hget] at he
      · rename_i e hget
        generalize hrelay : (if relay = .stem ∧ e.info.relayMethod = .stem then RelayMethod.fluff
          else relay) = upgraded
        by_cases hupgrade : e.info.relayMethod.toNat < upgraded.toNat
        · rw [if_pos hupgrade]
          refine added_store E db pool tx id wt upgraded false
            (fun pool' => pool'.weight) hchecked rfl hfee (fun f hf hshown => ?_)
            fun hnone => by simp [hget] at hnone
          obtain rfl : e = f := by simpa [hget] using hf
          exact isBroadcasted_of_lt hupgrade hshown
        · rw [if_neg hupgrade]
          exact .unchanged (by rw [hget]; simp)

/-- After `add_tx` a stored transaction was stored before under the same id, or it is the one
that was added, and then it has passed the asset stage. -/
theorem addTx_rows (wt : ℕ) (relay : RelayMethod) (rld : Bool) (ver nic : ℕ) (clock : Clock)
    (e : PoolTx) (he : e ∈ (addTx E db pool tx id wt relay rld ver nic clock).2.table.rows) :
    (∃ e' ∈ pool.table.rows, e'.id = e.id ∧ e'.tx = e.tx) ∨ (e.id = id ∧ e.tx = tx ∧
        ∃ pl, assetStage E db pool.table tx id ver = .ok pl) := by
  have hadded := addTx_added E db pool tx id wt relay rld ver nic clock
  generalize addTx E db pool tx id wt relay rld ver nic clock = result at hadded he
  cases hadded with
  | refused err pool' untouched => exact Or.inl (untouched.marked.within e he)
  | unchanged stored => exact Or.inl (within_prune pool e he)
  | stored new relay' info pool' total checked weighed paid accepted =>
    have he' := (prune_rows _).1 e he
    rw [store_accepted E pool pool' tx id relay' info accepted, PoolTable.mem_put] at he'
    rcases he' with ⟨hold, -⟩ | rfl
    · exact Or.inl ⟨e, hold, rfl, rfl⟩
    · exact Or.inr ⟨rfl, rfl, checked⟩

end Monzero.PoolRows
