import Monzero.NodeRuns
import Monzero.PoolUpkeep

/-!
The container ordered by fee has no transaction twice, whatever a node does. Adding takes an
entry out first if the transaction is listed as added, and `validate` forgets that list before
it takes the transactions out and adds them again; while it does, an entry without a place in
the list belongs to a transaction that is still to be visited.
-/
namespace Monzero.FeeOrder

open Primitives TxExtra TxMemoryPool PoolRows PoolMirror PoolUpkeep Blockchain BlockHandling
  NodeRuns Runs List

/-- Each id has one entry, which belongs to a stored transaction, and is listed as added unless
it is pending. -/
structure Once (pending : List Hash) (pool : TxPool) : Prop where
  nodup : (feeIds pool).Nodup
  stored : ∀ id ∈ feeIds pool, id ∈ pool.table.rows.map PoolTx.id
  added : ∀ id ∈ feeIds pool, id ∈ pool.addedById ∨ id ∈ pending

variable {E : Env} {db : Db} {pending : List Hash} {pool pool' : TxPool} {e : PoolTx} {id : Hash}
  {ver : ℕ} {clock : Clock}

theorem Once.untouched (h : Once pending pool) (hsame : Untouched pool' pool) :
    Once pending pool' := by
  have hids : feeIds pool' = feeIds pool := congrArg (List.map FeeEntry.id) hsame.byFee
  refine ⟨hids ▸ h.nodup, ?_, ?_⟩
  · rw [hids, hsame.ids]
    exact h.stored
  · rw [hids, hsame.addedById]
    exact h.added

theorem once_removeEntry (h : Once pending pool) (e : PoolTx) :
    Once pending (removeEntry pool e (eraseEntry e.id pool.byFee)) ∧
      e.id ∉ feeIds (removeEntry pool e (eraseEntry e.id pool.byFee)) := by
  have hids : feeIds (removeEntry pool e (eraseEntry e.id pool.byFee)) =
      (feeIds pool).erase e.id := map_eraseEntry e.id pool.byFee
  have hmem : ∀ id ∈ (feeIds pool).erase e.id, id ≠ e.id ∧ id ∈ feeIds pool :=
    fun id hid => h.nodup.mem_erase_iff.mp hid
  refine ⟨⟨hids ▸ h.nodup.erase _, ?_, ?_⟩, hids ▸ h.nodup.not_mem_erase⟩
  · intro id hid
    obtain ⟨hne, hold⟩ := hmem id (hids ▸ hid)
    obtain ⟨f, hf, rfl⟩ := mem_map.mp (h.stored id hold)
    exact mem_map.mpr ⟨f, PoolTable.mem_remove.mpr ⟨hf, hne⟩, rfl⟩
  · intro id hid
    obtain ⟨hne, hold⟩ := hmem id (hids ▸ hid)
    exact (h.added id hold).imp_left fun hadd => mem_filter.mpr ⟨hadd, by simpa using hne⟩

theorem once_prune (h : Once pending pool) : Once pending (prune pool) :=
  prune_by_id (P := Once pending) (fun _ h => h.nodup)
    (fun _ e h _ => (once_removeEntry h e).1) h _

/-- An entry is added for a transaction that has none, or has its place in the list. -/
theorem once_addToTransientLists (h : Once pending pool) {ent : FeeEntry}
    (hlisted : ent.id ∈ feeIds pool → ent.id ∈ pool.addedById)
    (hstored : ent.id ∈ pool.table.rows.map PoolTx.id) :
    Once pending (addToTransientLists pool ent) := by
  have hperm := perm_feeIds_add h.nodup hlisted
  have hmem : ∀ id ∈ feeIds (addToTransientLists pool ent), id = ent.id ∨ id ∈ feeIds pool :=
    fun id hid => (mem_cons.mp (hperm.mem_iff.mp hid)).imp_right mem_of_mem_erase
  refine ⟨hperm.nodup_iff.mpr (nodup_cons.mpr ⟨h.nodup.not_mem_erase, h.nodup.erase _⟩), ?_, ?_⟩
  · intro id hid
    rw [addToTransientLists_table]
    rcases hmem id hid with rfl | hid
    · exact hstored
    · exact h.stored id hid
  · intro id hid
    rw [mem_addedById_addToTransientLists]
    rcases hmem id hid with rfl | hid
    · exact Or.inl (Or.inl rfl)
    · exact (h.added id hid).imp_left Or.inr

theorem once_store (h : Once pending pool) {tx : Transaction} {relay : RelayMethod} {info : TxMeta}
    (hlisted : id ∈ feeIds pool → id ∈ pool.addedById)
    (hstore : store E pool tx id relay info = (true, pool')) : Once pending pool' := by
  unfold store at hstore
  split at hstore
  · cases hstore
  · rename_i spent _
    cases hstore
    have hput : Once pending { pool with
        spentKeyImages := spent
        table := pool.table.put { id := id, info := info, tx := tx } } := by
      refine ⟨h.nodup, fun id' hid' => ?_, h.added⟩
      obtain ⟨f, hf, rfl⟩ := mem_map.mp (h.stored id' hid')
      by_cases hsame : f.id = id
      · exact mem_map.mpr ⟨_, PoolTable.mem_put.mpr (Or.inr rfl), hsame.symm⟩
      · exact mem_map.mpr ⟨f, PoolTable.mem_put.mpr (Or.inl ⟨hf, hsame⟩), rfl⟩
    exact once_addToTransientLists hput hlisted
      (mem_map.mpr ⟨_, PoolTable.mem_put.mpr (Or.inr rfl), rfl⟩)

theorem once_addTx (E : Env) (db : Db) (ver : ℕ) (clock : Clock) (h : Once pending pool)
    (hlisted : id ∈ feeIds pool → id ∈ pool.addedById) (tx : Transaction) (wt : ℕ)
    (relay : RelayMethod) (rld : Bool) (nic : ℕ) :
    Once pending (addTx E db pool tx id wt relay rld ver nic clock).2 := by
  have hadded := addTx_added E db pool tx id wt relay rld ver nic clock
  generalize addTx E db pool tx id wt relay rld ver nic clock = result at hadded
  cases hadded with
  | refused err pool' untouched => exact h.untouched untouched
  | unchanged stored => exact once_prune h
  | stored new relay' info pool' total checked weighed paid accepted =>
    obtain ⟨hnodup, hstored, hadded⟩ := once_store h hlisted accepted
    have htotal : Once pending { pool' with weight := total } := ⟨hnodup, hstored, hadded⟩
    exact once_prune htotal

theorem once_takeTx (h : Once pending pool) (id : Hash) :
    Once pending (takeTx pool id).2 ∧ id ∉ feeIds (takeTx pool id).2 := by
  unfold takeTx
  cases hget : pool.table.get id with
  | none =>
    refine ⟨h, fun hmem => ?_⟩
    obtain ⟨e, he, hid⟩ := mem_map.mp (h.stored id hmem)
    exact PoolTable.get_eq_none_iff.mp hget e he hid
  | some e =>
    obtain ⟨-, rfl⟩ := PoolTable.get_eq_some_iff.mp hget
    exact once_removeEntry h e

/-- After its turn a transaction is no longer pending: its entry was taken out, and came back only
with a place in the list. -/
theorem once_revalidate (h : Once (e.id :: pending) pool) :
    Once pending (revalidate E db ver clock pool e) := by
  obtain ⟨htake, hgone⟩ := once_takeTx h e.id
  have hpending : Once pending (takeTx pool e.id).2 := by
    refine ⟨htake.nodup, htake.stored, fun id hid => ?_⟩
    refine (htake.added id hid).imp_right fun hmem => ?_
    exact (mem_cons.mp hmem).resolve_left fun heq => hgone (heq ▸ hid)
  unfold revalidate
  split
  · rename_i htaken
    rw [htaken] at hpending
    exact hpending
  · rename_i found left htaken
    rw [htaken] at hpending hgone
    have hadd := once_addTx E db ver clock hpending (fun hmem => absurd hmem hgone) found.tx
      e.info.weight e.info.relayMethod e.info.relayed 0
    split
    · rename_i hres
      rw [hres] at hadd
      exact hadd
    · rename_i hres
      rw [hres] at hadd
      refine ⟨hadd.nodup, fun id hid => ?_, hadd.added⟩
      rw [map_id_update]
      exact hadd.stored id hid

theorem once_validate (h : Once [] pool) : Once [] (validate E db ver clock pool) := by
  refine validate_invariant E db pool ver clock
    (fun rows validated => Once (rows.map PoolTx.id) validated)
    (fun _ _ _ hstart => once_revalidate hstart) ⟨h.nodup, h.stored, fun id hid => Or.inr ?_⟩
  exact ((perm_insertionSort _ _).map PoolTx.id).mem_iff.mpr (h.stored id hid)

theorem Once.listed (h : Once [] pool) (id : Hash) : id ∈ feeIds pool → id ∈ pool.addedById :=
  fun hmem => (h.added id hmem).resolve_right not_mem_nil

theorem once_step {node node' : Node} {event : NodeEvent} (step : NodeStep E node event node')
    (h : Once [] node.pool) : Once [] node'.pool := by
  cases step with
  | add tx relay relayed nicVersion clock => exact once_addTx _ _ _ _ h (h.listed _) ..
  | block _ block supplement clock accepted =>
    exact block_invariant E (fun _ _ _ h => once_validate h) (fun _ id h => (once_takeTx h id).1)
      h accepted
  | pop _ clock popped =>
    refine pop_invariant E (fun _ _ _ h => once_validate h) ?_ h popped
    intro db pool tx relay rld ver nic h
    exact once_addTx _ _ _ _ h (h.listed _) ..

/-- In every run from a pool without entries, no transaction has two entries in the order by
fee. -/
theorem feeIds_nodup_run {P : Node → NodeEvent → Node → Prop}
    (hstep : ∀ s e s', P s e s' → NodeStep E s e s') {start node : Node} {events : List NodeEvent}
    (run : Run P start events node) (hstart : start.pool.byFee = []) :
    (feeIds node.pool).Nodup := by
  have honce : Once [] start.pool := by
    refine ⟨?_, ?_, ?_⟩ <;> simp [feeIds, hstart]
  exact (run.invariant (fun node => Once [] node.pool) (fun _ => True)
    (fun s e s' h _ hs => once_step (hstep s e s' hs) h) (fun _ _ => trivial) honce).nodup

end Monzero.FeeOrder
