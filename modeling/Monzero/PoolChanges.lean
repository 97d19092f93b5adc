import Monzero.PoolRuns

/-!
The pool is a store that logs its changes. Whatever is done to the pool, each transaction enters,
leaves or becomes visible to more clients together with an entry in the logs; metadata that no
client's view depends on changes without.
-/
namespace Monzero.PoolChanges

open Primitives TxExtra ChangeLog TxMemoryPool PoolRows List
open Function (update update_self)
open Option (map_congr some)

/-- What is stored, and whether it is sensitive. -/
def items (table : PoolTable) (id : Hash) : Option (Transaction × Bool) :=
  (table.get id).map fun e => (e.tx, e.isSensitive)

/-- The pool as a store with logs. -/
def contents (pool : TxPool) : State Hash Transaction where
  items := items pool.table
  added id := if id ∈ pool.addedById then some (pool.log.addedTime id) else none
  addedStart := pool.log.addedStart
  removals := {r | (r.time, ⟨r.key, r.hidden⟩) ∈ pool.log.removedByTime.entries}
  removedStart := pool.log.removedStart
  clock := pool.log.clock

variable {e : PoolTx} {pool pool' : TxPool} (tab : PoolTable) (E : Env) (db : Db) (tx : Transaction)
  (id : Hash) (wt : ℕ) (relay : RelayMethod)

theorem items_of_get {tab : PoolTable} {id : Hash} (hget : tab.get id = some e) :
    items tab id = some (e.tx, e.isSensitive) := by
  rw [items, hget]
  rfl

/-- The changes from one pool to another, one after the other. -/
abbrev Leads (pool pool' : TxPool) : Prop :=
  Relation.ReflTransGen Step (contents pool) (contents pool')

theorem items_put (e : PoolTx) :
    items (tab.put e) = update (items tab) e.id (some (e.tx, e.isSensitive)) := by
  funext id
  by_cases hid : id = e.id
  · have hget : (tab.put e).get e.id = some e :=
      PoolTable.get_eq_some_iff.mpr ⟨PoolTable.mem_put.mpr (Or.inr rfl), rfl⟩
    rw [hid, update_self, items, hget]
    rfl
  · have hget : (tab.put e).get id = tab.get id := by
      ext f
      simp only [PoolTable.get_eq_some_iff, PoolTable.mem_put]
      grind
    rw [Function.update_of_ne hid, items, hget, items]

theorem items_remove : items (tab.remove id) = update (items tab) id none := by
  funext k
  by_cases hk : k = id
  · have hget : (tab.remove id).get id = none := by
      rw [PoolTable.get_eq_none_iff]
      exact fun e he => (PoolTable.mem_remove.mp he).2
    rw [hk, update_self, items, hget]
    rfl
  · have hget : (tab.remove id).get k = tab.get k := by
      ext f
      simp only [PoolTable.get_eq_some_iff, PoolTable.mem_remove]
      grind
    rw [Function.update_of_ne hk, items, hget, items]

theorem get_update (id k : Hash) (change : TxMeta → TxMeta) : (tab.update id change).get k =
      (tab.get k).map fun e => if e.id = id then { e with info := change e.info } else e := by
  have hid : ∀ e : PoolTx,
      (if e.id = id then { e with info := change e.info } else e).id = e.id := by
    intro e
    split <;> rfl
  simp only [PoolTable.get, PoolTable.update, find?_map]
  simp only [Function.comp_def, hid]

theorem items_update_apply (change : TxMeta → TxMeta) :
    items (tab.update id change) = update (items tab) id
      ((tab.get id).map fun e => (e.tx, !(change e.info).relayMethod.isBroadcasted)) := by
  funext k
  rw [items, get_update, Option.map_map]
  by_cases hk : k = id
  · subst hk
    rw [update_self]
    refine map_congr fun e hget => ?_
    simp [(PoolTable.get_eq_some_iff.mp hget).2, PoolTx.isSensitive]
  · rw [Function.update_of_ne hk, items]
    refine map_congr fun e hget => ?_
    simp [(PoolTable.get_eq_some_iff.mp hget).2, hk]

theorem items_update (change : TxMeta → TxMeta) (hchange : ∀ e, tab.get id = some e →
      (change e.info).relayMethod.isBroadcasted = e.info.relayMethod.isBroadcasted) :
    items (tab.update id change) = items tab := by
  rw [items_update_apply]
  refine Function.update_eq_self_iff.mpr (map_congr fun e hget => ?_)
  rw [hchange e hget, PoolTx.isSensitive]

theorem leads_of_same (hitems : items pool'.table = items pool.table)
    (hadded : pool'.addedById = pool.addedById) (hlog : pool'.log = pool.log) :
    Leads pool pool' := by
  rw [Leads, show contents pool' = contents pool by rw [contents, contents, hitems, hadded, hlog]]

/-- A transaction that has been stored, or has been given another relay method, is logged. -/
theorem leads_added {updated : TxPool} {ent : FeeEntry} {tx : Transaction} {sensitive : Bool}
    (hitems : items updated.table = update (items pool.table) ent.id (some (tx, sensitive)))
    (hadded : updated.addedById = pool.addedById) (hlog : updated.log = pool.log)
    (hshown : ∀ item, items pool.table ent.id = some item → item.2 = false → sensitive = false) :
    Leads pool (addToTransientLists updated ent) := by
  have hnew : contents (addToTransientLists updated ent) =
      (contents pool).add ent.id tx sensitive pool.log.now := by
    rw [contents, addToTransientLists_log, addToTransientLists_table, hlog, hitems]
    refine State.ext rfl ?_ rfl rfl rfl rfl
    funext id
    simp only [contents, State.add, mem_addedById_addToTransientLists, hadded]
    by_cases hid : id = ent.id
    · simp [hid, PoolLog.logAdded]
    · simp [hid, PoolLog.logAdded]
  rw [Leads, hnew]
  exact Relation.ReflTransGen.single (Step.add pool.log.clock_le_now hshown)

theorem leads_removed (hget : pool.table.get e.id = some e)
    (hitems : items pool'.table = update (items pool.table) e.id none)
    (hadded : pool'.addedById = pool.addedById.filter fun i => i ≠ e.id)
    (hlog : pool'.log = pool.log.trackRemovedTx e.id e.isSensitive) : Leads pool pool' := by
  have hst : (contents pool).items e.id = some (e.tx, e.isSensitive) := items_of_get hget
  have hstep := Step.remove pool.log.clock_le_now hst
  have hwhole : contents { pool' with log := pool.log.logRemoved e.id e.isSensitive } =
      (contents pool).remove e.id e.isSensitive pool.log.now := by
    refine State.ext hitems ?_ rfl ?_ rfl rfl
    · funext id
      simp only [contents, State.remove, hadded]
      by_cases hid : id = e.id
      · simp [hid]
      · simp [hid, PoolLog.logRemoved, PoolLog.read]
    · ext r
      simp only [contents, PoolLog.logRemoved, State.remove, Set.mem_ofPred_eq,
        Timeline.mem_insert, Set.mem_insert_iff]
      refine or_congr_left ?_
      cases r
      simp
  rcases pool.log.trackRemovedTx_cases e.id e.isSensitive with hplain | ⟨left, start, hcut, h⟩
  · have hafter : contents pool' = (contents pool).remove e.id e.isSensitive pool.log.now := by
      rw [← hwhole, ← hplain, ← hlog]
    rw [Leads, hafter]
    exact Relation.ReflTransGen.single hstep
  · have hafter : contents pool' = ((contents pool).remove e.id e.isSensitive pool.log.now).trim
        {r | (r.time, ⟨r.key, r.hidden⟩) ∈ left.entries} start := by
      rw [← hwhole, contents, hlog, hcut]
      rfl
    rw [Leads, hafter]
    refine (Relation.ReflTransGen.single hstep).tail ?_
    rw [← hwhole]
    obtain ⟨a, ha, hfst⟩ := h.first
    obtain ⟨b, hb, hlast⟩ := h.last
    exact Step.trim (fun r hr => (h.kept _ hr).1) (fun r hr hnot => h.erased _ hr hnot)
      (fun r hr => (h.kept _ hr).2) ⟨⟨a.1, a.2.txid, a.2.sensitive⟩, ha, hfst⟩
      ⟨⟨b.1, b.2.txid, b.2.sensitive⟩, hb, hlast⟩

theorem leads_removeEntry (hget : pool.table.get e.id = some e) {byFee : List FeeEntry} :
    Leads pool (removeEntry pool e byFee) :=
  leads_removed hget (items_remove _ _) rfl rfl

theorem leads_pruneLoop {bytes : ℕ} {es : List FeeEntry} :
    Leads pool (pruneLoop bytes es pool) := by
  have hpruned := pruneLoop_invariant (fun _ pruned => Leads pool pruned) bytes es pool
    (fun _ _ _ h => h) ?_ .refl
  · obtain ⟨-, hleads⟩ := hpruned
    exact hleads
  · intro entry rest pruned e h he hid hblk
    exact h.trans (leads_removeEntry (PoolTable.get_eq_some_iff.mpr ⟨he, rfl⟩))

theorem leads_takeTx (pool : TxPool) : Leads pool (takeTx pool id).2 := by
  rw [takeTx]
  cases hget : pool.table.get id with
  | none => exact .refl
  | some e =>
    obtain ⟨he, hid⟩ := PoolTable.get_eq_some_iff.mp hget
    exact leads_removeEntry (hid ▸ hget)

theorem leads_store {info : TxMeta} (hshows : Shows pool.table id info.relayMethod)
    (hstore : store E pool tx id relay info = (true, pool')) : Leads pool pool' := by
  rw [store] at hstore
  split at hstore
  · cases hstore
  · cases hstore
    refine leads_added (items_put pool.table ⟨id, info, tx⟩) rfl rfl ?_
    intro item hitem hopen
    obtain ⟨e, hget, rfl⟩ := Option.map_eq_some_iff.mp hitem
    have hbroadcasted := hshows e hget (by simpa [PoolTx.isSensitive] using hopen)
    simp [PoolTx.isSensitive, hbroadcasted]

/-- The double spend mark is not shown to clients. -/
theorem items_of_untouched (h : Untouched pool' pool) : items pool'.table = items pool.table := by
  funext id
  rw [items, items]
  cases hget : pool'.table.get id with
  | none =>
    have hnone : pool.table.get id = none := by
      rw [PoolTable.get_eq_none_iff] at hget ⊢
      intro e he hid
      have hmem : id ∈ pool'.table.rows.map PoolTx.id := h.ids ▸ mem_map.mpr ⟨e, he, hid⟩
      obtain ⟨f, hf, hsame⟩ := mem_map.mp hmem
      exact hget f hf hsame
    rw [hnone]
  | some e' =>
    obtain ⟨he', hid⟩ := PoolTable.get_eq_some_iff.mp hget
    obtain ⟨e, he, seen, rfl⟩ := h.marked e' he'
    rw [PoolTable.get_eq_some_iff.mpr ⟨he, hid⟩]
    rfl

theorem leads_addTx (rld : Bool) (ver nic : ℕ) (clock : Clock) (pool : TxPool) :
    Leads pool (addTx E db pool tx id wt relay rld ver nic clock).2 := by
  have hadded := addTx_added E db pool tx id wt relay rld ver nic clock
  generalize addTx E db pool tx id wt relay rld ver nic clock = result at hadded
  cases hadded with
  | refused err pool' untouched =>
    exact leads_of_same (items_of_untouched untouched) untouched.addedById untouched.log
  | unchanged stored => exact leads_pruneLoop
  | stored new meth info pool' total checked weighed paid accepted shows =>
    have htotal : Leads pool' { pool' with weight := total } := leads_of_same rfl rfl rfl
    exact ((leads_store E tx id meth shows accepted).trans htotal).trans leads_pruneLoop

theorem relay_addTx {rld : Bool} {ver nic : ℕ} {clock : Clock} (habs : pool.table.get id = none)
    {added : Bool} (hadd : addTx E db pool tx id wt relay rld ver nic clock = (.ok added, pool'))
    (hget : pool'.table.get id = some e) : e.info.relayMethod = relay := by
  have hadded := addTx_added E db pool tx id wt relay rld ver nic clock
  rw [hadd] at hadded
  obtain ⟨he, hid⟩ := PoolTable.get_eq_some_iff.mp hget
  cases hadded with
  | unchanged stored => exact absurd habs stored
  | stored new meth info stored total checked weighed paid accepted shows fresh =>
    have hrow := (prune_rows _).1 e he
    rw [store_accepted E pool stored tx id meth info accepted, PoolTable.mem_put] at hrow
    rcases hrow with ⟨hold, hne⟩ | rfl
    · exact absurd hid hne
    · exact fresh habs

theorem items_foldl_update {α : Type} (id : α → Hash) (change : α → TxMeta → TxMeta) (l : List α)
    (tab : PoolTable) (hchange : ∀ a ∈ l, ∀ item, items tab (id a) = some item → ∀ info : TxMeta,
      (!info.relayMethod.isBroadcasted) = item.2 →
      (!(change a info).relayMethod.isBroadcasted) = item.2) :
    items (l.foldl (fun tab a => tab.update (id a) (change a)) tab) = items tab := by
  induction l generalizing tab with
  | nil => rfl
  | cons a rest ih =>
    have hone : items (tab.update (id a) (change a)) = items tab := by
      refine items_update _ _ _ fun e hget => ?_
      exact Bool.not_inj (hchange a mem_cons_self _ (items_of_get hget) e.info rfl)
    rw [foldl_cons, ih _ fun b hb => ?_, hone]
    rw [hone]
    exact hchange b (mem_cons_of_mem _ hb)

theorem leads_removeStuckTransactions (now : Hash → ℕ) :
    Leads pool (removeStuckTransactions now pool) := by
  refine PoolRuns.removeStuckTransactions_invariant (fun left => Leads pool left) now ?_ .refl
  intro left e he hleft
  have hget := PoolTable.get_eq_some_iff.mpr ⟨he, rfl⟩
  exact hleft.trans (leads_removed hget (items_remove _ _) rfl rfl)

theorem leads_foldl {α : Type} {step : TxPool → α → TxPool}
    (h : ∀ pool a, Leads pool (step pool a)) (l : List α) : Leads pool (l.foldl step pool) := by
  induction l generalizing pool with
  | nil => exact .refl
  | cons a rest ih => exact (h pool a).trans ih

theorem isBroadcasted_upgrade {sto : RelayMethod} (meth : RelayMethod)
    (h : sto.isBroadcasted = true) : (sto.upgrade meth).isBroadcasted = true := by
  rw [RelayMethod.upgrade]
  split
  · exact isBroadcasted_of_lt ‹_› h
  · exact h

theorem leads_setRelayed (hashes : List (Hash × ℕ)) (meth : RelayMethod) (now : ℕ) :
    Leads pool (setRelayed E hashes meth now pool) := by
  refine leads_foldl (fun pool hash => ?_) hashes
  rw [setRelayedOne]
  cases hget : pool.table.get hash.1 with
  | none => exact .refl
  | some e =>
    simp only
    split
    next hjust =>
      -- the transaction has just been broadcasted
      have hitems := items_update_apply pool.table hash.1 fun _ => { e.info with
        relayMethod := e.info.relayMethod.upgrade meth
        relayed := true
        lastRelayedTime := if e.info.relayMethod.upgrade meth = .stem then hash.2 else now }
      rw [hget] at hitems
      exact leads_added hitems rfl rfl fun _ _ _ => by simpa using hjust.2
    next hsame =>
      refine leads_of_same (items_update _ _ _ fun f hf => ?_) rfl rfl
      obtain rfl : e = f := by simpa [hget] using hf
      cases hbefore : e.info.relayMethod.isBroadcasted with
      | true => exact isBroadcasted_upgrade meth hbefore
      | false => simpa [hbefore] using hsame

theorem leads_clearLogs : Leads pool (clearLogs pool) := by
  have hcontents : contents (clearLogs pool) = (contents pool).clear := by
    refine State.ext rfl ?_ rfl ?_ rfl rfl
    · funext id
      simp [contents, clearLogs, State.clear]
    · ext r
      simp [contents, clearLogs, PoolLog.clear, Timeline.empty, State.clear]
  rw [Leads, hcontents]
  exact Relation.ReflTransGen.single Step.clear

theorem leads_initRow (hget : pool.table.get e.id = some e) :
    Leads pool (initRow E pool e).2 ∧ (initRow E pool e).2.table = pool.table := by
  rw [initRow]
  generalize insertKeyImages pool.table e.id e.info.relayMethod e.tx.vin
    pool.spentKeyImages = result
  obtain ⟨_ | _, spent⟩ := result
  · exact ⟨leads_of_same rfl rfl rfl, rfl⟩
  · have hitems : items pool.table = update (items pool.table) e.id (some (e.tx, e.isSensitive)) :=
      (Function.update_eq_self_iff.mpr (items_of_get hget).symm).symm
    have hshown : ∀ item, items pool.table e.id = some item → item.2 = false →
        e.isSensitive = false := by
      intro item hitem hopen
      rw [items_of_get hget] at hitem
      obtain rfl := some.inj hitem
      exact hopen
    have hlogged : Leads pool (addToTransientLists { pool with spentKeyImages := spent }
        { feePerByte := E.feePerByte e.info.fee e.info.weight,
          receiveTime := e.info.receiveTime, id := e.id }) :=
      leads_added hitems rfl rfl hshown
    exact ⟨hlogged.trans (leads_of_same rfl rfl rfl), addToTransientLists_table _⟩

theorem leads_initPass (kept : Bool) (rows : List PoolTx) (pool : TxPool)
    (hrows : ∀ e ∈ rows, pool.table.get e.id = some e) :
    Leads pool (initPass E kept rows pool).2 ∧
      (initPass E kept rows pool).2.table = pool.table := by
  induction rows generalizing pool with
  | nil => exact ⟨.refl, rfl⟩
  | cons e rest ih =>
    have hrest := fun f hf => hrows f (mem_cons_of_mem e hf)
    have hrow := leads_initRow E (hrows e mem_cons_self)
    rw [initPass]
    split
    · exact ih pool hrest
    · generalize initRow E pool e = result at hrow
      obtain ⟨_ | _, next⟩ := result
      · exact hrow
      · have hnext := ih next (by rw [hrow.2]; exact hrest)
        exact ⟨hrow.1.trans hnext.1, hnext.2.trans hrow.2⟩

theorem leads_init (maxW : ℕ) (mine : Bool) : Leads pool (init E maxW mine pool).2 := by
  have hlisted : ∀ e ∈ listed pool.table, pool.table.get e.id = some e :=
    fun e he => PoolTable.get_eq_some_iff.mpr ⟨(mem_insertionSort _).mp he, rfl⟩
  have hclear : Leads pool (cleared maxW pool) := leads_clearLogs.trans (leads_of_same rfl rfl rfl)
  have hfst := leads_initPass E false (listed pool.table) (cleared maxW pool) hlisted
  rw [init]
  generalize initPass E false (listed pool.table) (cleared maxW pool) = first at hfst
  obtain ⟨_ | _, half⟩ := first
  · exact hclear.trans hfst.1
  · have hsnd := leads_initPass E true (listed pool.table) half
      (by rw [hfst.2]; exact hlisted)
    simp only
    generalize initPass E true (listed pool.table) half = second at hsnd
    obtain ⟨_ | _, whole⟩ := second
    · exact (hclear.trans hfst.1).trans hsnd.1
    · exact ((hclear.trans hfst.1).trans hsnd.1).trans (leads_of_same rfl rfl rfl)

/-- A transaction that passes again is logged as removed and as added. Its metadata are put back,
and with them the relay method it was added with. -/
theorem leads_revalidate (ver : ℕ) (clock : Clock) (pool : TxPool) (e : PoolTx) :
    Leads pool (revalidate E db ver clock pool e) := by
  have htake := leads_takeTx e.id pool
  have hgone : (takeTx pool e.id).2.table.get e.id = none := by
    rw [takeTx]
    cases hget : pool.table.get e.id with
    | none => exact hget
    | some found =>
      rw [PoolTable.get_eq_none_iff]
      intro f hf hid
      have hne := (PoolTable.mem_remove.mp hf).2
      exact hne (hid.trans (PoolTable.get_eq_some_iff.mp hget).2.symm)
  rw [revalidate]
  generalize takeTx pool e.id = taken at htake hgone
  obtain ⟨_ | found, left⟩ := taken
  · exact htake
  · have hadd := leads_addTx E db found.tx e.id e.info.weight e.info.relayMethod e.info.relayed
      ver 0 clock left
    simp only
    cases hres : addTx E db left found.tx e.id e.info.weight e.info.relayMethod e.info.relayed
        ver 0 clock with
    | mk res back =>
      rw [hres] at hadd
      cases res with
      | error err => exact htake.trans hadd
      | ok added =>
        refine (htake.trans hadd).trans (leads_of_same (items_update _ _ _ fun f hf => ?_) rfl rfl)
        rw [relay_addTx E db found.tx e.id _ _ hgone hres hf]

theorem items_templateStep (mine : Bool) (ver med agc : ℕ)
    (s : Template) (ent : FeeEntry) :
    items (templateStep E db mine ver med agc s ent).table = items s.table := by
  have hready : ∀ cache info id tx,
      (isTransactionReadyToGo E db cache info id tx).info.relayMethod = info.relayMethod := by
    intro cache info id tx
    rw [isTransactionReadyToGo]
    split
    · rfl
    · split <;> rfl
  unfold templateStep
  split
  · rfl
  · split
    · rfl
    · rename_i e hget
      have hupdate : items (s.table.update e.id fun _ =>
          (isTransactionReadyToGo E db s.inputCache e.info e.id e.tx).info) = items s.table := by
        refine items_update _ _ _ fun f hf => ?_
        obtain rfl : e = f := by
          rw [(PoolTable.get_eq_some_iff.mp hget).2, hget] at hf
          exact some.inj hf
        rw [hready]
      split
      · rfl
      · split
        · rfl
        · split
          · rfl
          · dsimp only
            split
            · exact hupdate
            · split
              · exact hupdate
              · exact hupdate

/-- `fill_block_template` leaves in the tables what it finds out about the inputs. -/
def withTemplate (E : Env) (db : Db) (cache : InputCache) (medianWeight generated version : ℕ)
    (pool : TxPool) : TxPool :=
  match fillBlockTemplate E db pool cache medianWeight generated version with
  | none => pool
  | some template => { pool with table := template.table }

theorem leads_withTemplate (cache : InputCache) (med agc ver : ℕ) :
    Leads pool (withTemplate E db cache med agc ver pool) := by
  have hfold : ∀ (es : List FeeEntry) (tmpl : Template),
      items (es.foldl (templateStep E db pool.mineStemTxes ver med agc) tmpl).table =
        items tmpl.table := by
    intro es
    induction es with
    | nil => exact fun _ => rfl
    | cons entry rest ih =>
      intro tmpl
      rw [foldl_cons, ih, items_templateStep]
  rw [withTemplate, fillBlockTemplate]
  split
  · exact .refl
  · rename_i tmpl htemplate
    split at htemplate
    · cases htemplate
    · obtain rfl := some.inj htemplate
      exact leads_of_same (hfold _ _) rfl rfl

theorem leads_getRelayableTransactions (nextCheck now : ℕ) :
    Leads pool (getRelayableTransactions nextCheck now pool).2 := by
  rw [getRelayableTransactions]
  split
  · exact .refl
  · refine leads_of_same (items_foldl_update PoolTx.id _ _ _ ?_) rfl rfl
    intro e he item hitem info _
    have hrow : e ∈ pool.table.rows :=
      (mem_insertionSort _).mp (mem_of_mem_filter (mem_of_mem_filter he))
    rw [items_of_get (PoolTable.get_eq_some_iff.mpr ⟨hrow, rfl⟩)] at hitem
    obtain rfl := some.inj hitem
    rfl

/-- What is done to the pool, with what is given to it. `validate` leaves out the transactions
that are stored without their signatures. A client that looks at the pool reads the clock. -/
inductive PoolOperation
  | init (maxTxpoolWeight : ℕ) (mineStemTxes : Bool)
  | addTx (db : Db) (tx : Transaction) (id : Hash) (weight : ℕ) (relay : RelayMethod)
      (relayed : Bool) (version nicVersion : ℕ) (clock : Clock)
  | takeTx (id : Hash)
  | prune (bytes : ℕ)
  | removeStuckTransactions (now : Hash → ℕ)
  | setRelayed (hashes : List (Hash × ℕ)) (method : RelayMethod) (now : ℕ)
  | validate (db : Db) (version : ℕ) (clock : Clock) (pruned : PoolTx → Bool)
  | fillBlockTemplate (db : Db) (cache : InputCache) (medianWeight generated version : ℕ)
  | getRelayableTransactions (nextCheck now : ℕ)
  | look

def perform (E : Env) (pool : TxPool) : PoolOperation → TxPool
  | .init maxTxpoolWeight mineStemTxes => (init E maxTxpoolWeight mineStemTxes pool).2
  | .addTx db tx id weight relay relayed version nicVersion clock =>
      (addTx E db pool tx id weight relay relayed version nicVersion clock).2
  | .takeTx id => (takeTx pool id).2
  | .prune bytes => pruneTo bytes pool
  | .removeStuckTransactions now => removeStuckTransactions now pool
  | .setRelayed hashes method now => setRelayed E hashes method now pool
  | .validate db version clock pruned =>
      ((listed pool.table).filter fun e => pruned e = false).foldl
        (revalidate E db version clock) (clearLogs pool)
  | .fillBlockTemplate db cache medianWeight generated version =>
      withTemplate E db cache medianWeight generated version pool
  | .getRelayableTransactions nextCheck now => (getRelayableTransactions nextCheck now pool).2
  | .look => { pool with log := pool.log.read }

/-- Whatever is done to the pool leads from one store with logs to another by its changes. -/
theorem leads_perform (pool : TxPool) (op : PoolOperation) : Leads pool (perform E pool op) := by
  cases op with
  | init maxTxpoolWeight mineStemTxes => exact leads_init E maxTxpoolWeight mineStemTxes
  | addTx db tx id wt relay relayed version nicVersion clock =>
    exact leads_addTx E db tx id wt relay relayed version nicVersion clock pool
  | takeTx id => exact leads_takeTx id pool
  | prune bytes => exact leads_pruneLoop
  | removeStuckTransactions now => exact leads_removeStuckTransactions now
  | setRelayed hashes method now => exact leads_setRelayed E hashes method now
  | validate db version clock pruned =>
    exact leads_clearLogs.trans (leads_foldl (leads_revalidate E db version clock) _)
  | fillBlockTemplate db cache medianWeight generated version =>
    exact leads_withTemplate E db cache medianWeight generated version
  | getRelayableTransactions nextCheck now => exact leads_getRelayableTransactions nextCheck now
  | look => exact Relation.ReflTransGen.single (Step.wait pool.log.clock_le_now)

end Monzero.PoolChanges
