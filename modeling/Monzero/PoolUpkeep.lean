import Monzero.PoolMirror

/-!
What the operations of the pool do to its indexes. Taking out, pruning, marking and adding
keep the indexes in step with the tables. The weight counter drifts in one case of
`add_tx`: a transaction that is stored privately is added again as part of a block while
its inputs do not pass. The database then replaces what it has, and the weight is counted
twice.
-/
namespace Monzero.PoolUpkeep

open Checked Primitives TxExtra TxMemoryPool PoolRows PoolIndex PoolMirror List
open PoolTable (get_eq_some_iff mem_put mem_remove put update)

variable (E : Env) (known : List Transaction)

/-- What holds of the tables: the transactions are stored under their hash with their weight, they
spend key images, and those that are not kept by a block share none. -/
structure Sound (table : PoolTable) : Prop where
  own : ∀ e ∈ table.rows, e.id = E.H.txHash e.tx ∧ e.info.weight = E.txWeight e.tx
  known : ∀ e ∈ table.rows, e.tx ∈ known
  plain : ∀ e ∈ table.rows, PlainInputs e.tx.vin ∧ e.tx.vin ≠ []
  apart : ∀ e ∈ table.rows, ∀ f ∈ table.rows, e.info.relayMethod ≠ .block →
    f.info.relayMethod ≠ .block → ∀ k, .toKey k ∈ e.tx.vin → .toKey k ∈ f.tx.vin → e.id = f.id

/-- A pool whose indexes mirror its tables. -/
structure Good (pool : TxPool) : Prop where
  sound : Sound E known pool.table
  mirrors : Mirrors (stored pool.table) pool

/-- The weight of the pool is that of the stored transactions. -/
def Weighed (pool : TxPool) : Prop := pool.weight = rowsWeight pool.table

/-- An operation keeps the indexes and the weight. -/
def Keeps (pool pool' : TxPool) : Prop := Good E known pool' ∧ (Weighed pool → Weighed pool')

variable {E known} {id : Hash} {e : PoolTx} (table : PoolTable) {tx : Transaction} {pool : TxPool}

theorem Good.keeps (h : Good E known pool) : Keeps E known pool pool :=
  ⟨h, fun hw => hw⟩

theorem Keeps.trans {a b c : TxPool} (h : Keeps E known a b) (h' : Keeps E known b c) :
    Keeps E known a c :=
  ⟨h'.1, fun hw => h'.2 (h.2 hw)⟩

theorem Good.withWeight (h : Good E known pool) (wt : ℕ) :
    Good E known { pool with weight := wt } :=
  ⟨h.sound, h.mirrors.tidy, h.mirrors.index, h.mirrors.once, h.mirrors.entries, h.mirrors.added⟩

theorem same_tx (he : e ∈ table.rows) (hid : e.id = id) (f : PoolTx) (hf : f ∈ table.rows)
    (hf' : f.id = id) : f.tx = e.tx := by
  rw [inj_on_of_nodup_map table.ids_nodup hf he (hf'.trans hid.symm)]

theorem sound_of_rows {t t' : PoolTable} (h : Sound E known t)
    (hrow : ∀ e' ∈ t'.rows, ∃ e ∈ t.rows, e'.id = e.id ∧ e'.tx = e.tx ∧
      e'.info.weight = e.info.weight ∧
        (e.info.relayMethod = .block → e'.info.relayMethod = .block)) : Sound E known t' := by
  refine ⟨?_, ?_, ?_, ?_⟩
  · intro e' he'
    obtain ⟨e, he, hid, htx, hw, -⟩ := hrow e' he'
    rw [hid, htx, hw]
    exact h.own e he
  · intro e' he'
    obtain ⟨e, he, -, htx, -⟩ := hrow e' he'
    rw [htx]
    exact h.known e he
  · intro e' he'
    obtain ⟨e, he, -, htx, -⟩ := hrow e' he'
    rw [htx]
    exact h.plain e he
  · intro e' he' f' hf' hblk hblk' k hk hk'
    obtain ⟨e, he, hid, htx, -, hb⟩ := hrow e' he'
    obtain ⟨f, hf, hid', htx', -, hb'⟩ := hrow f' hf'
    rw [hid, hid']
    exact h.apart e he f hf (fun hx => hblk (hb hx)) (fun hx => hblk' (hb' hx)) k
      (htx ▸ hk) (htx' ▸ hk')

theorem keeps_removeEntry (h : Good E known pool) (he : e ∈ pool.table.rows) :
    Keeps E known pool (removeEntry pool e (eraseEntry e.id pool.byFee)) := by
  have hmem : (e.id, e.tx) ∈ stored pool.table := mem_stored.mpr ⟨e, he, rfl, rfl⟩
  refine ⟨⟨?_, ?_⟩, ?_⟩
  · exact sound_of_rows h.sound fun f hf =>
      ⟨f, (mem_remove.mp hf).1, rfl, rfl, rfl, fun hb => hb⟩
  · have honly : ∀ tx, (e.id, tx) ∈ stored pool.table → tx = e.tx := by
      intro tx htx
      obtain ⟨f, hf, hid, rfl⟩ := mem_stored.mp htx
      exact same_tx _ he rfl f hf hid
    refine (mirrors_remove h.mirrors hmem honly (h.sound.plain e he).1).congr ?_
    rintro ⟨id, tx⟩
    change (id, tx) ∈ (stored pool.table).filter (fun p => p.1 ≠ e.id) ↔
      (id, tx) ∈ stored (pool.table.remove e.id)
    rw [mem_filter, mem_stored, mem_stored, decide_eq_true_eq]
    constructor
    · rintro ⟨⟨f, hf, hid, htx⟩, hne⟩
      exact ⟨f, mem_remove.mpr ⟨hf, hid ▸ hne⟩, hid, htx⟩
    · rintro ⟨f, hf, hid, htx⟩
      obtain ⟨hrow, hne⟩ := mem_remove.mp hf
      exact ⟨⟨f, hrow, hid, htx⟩, hid ▸ hne⟩
  · intro hw
    have hsum := rowsWeight_remove he
    change pool.weight - e.info.weight = rowsWeight (pool.table.remove e.id)
    unfold Weighed at hw
    omega

theorem keeps_takeTx (h : Good E known pool) (id : Hash) :
    Keeps E known pool (takeTx pool id).2 := by
  unfold takeTx
  cases hget : pool.table.get id with
  | none => exact h.keeps
  | some e =>
    obtain ⟨he, rfl⟩ := get_eq_some_iff.mp hget
    exact keeps_removeEntry h he

theorem keeps_pruneTo (bytes : ℕ) (h : Good E known pool) :
    Keeps E known pool (pruneTo bytes pool) :=
  prune_by_id (fun _ hkeeps => hkeeps.1.mirrors.once)
    (fun _ _ hkeeps he => hkeeps.trans (keeps_removeEntry hkeeps.1 he)) h.keeps _

theorem keeps_prune (h : Good E known pool) : Keeps E known pool (prune pool) :=
  prune_by_id (fun _ hkeeps => hkeeps.1.mirrors.once)
    (fun _ _ hkeeps he => hkeeps.trans (keeps_removeEntry hkeeps.1 he)) h.keeps _

/-- Metadata of a stored transaction changes, but not its weight, and it does not stop being kept
by a block. -/
theorem keeps_update (h : Good E known pool) (id : Hash) (change : TxMeta → TxMeta)
    (hwt : ∀ e ∈ pool.table.rows, e.id = id → (change e.info).weight = e.info.weight)
    (hkept : ∀ e ∈ pool.table.rows, e.id = id → e.info.relayMethod = .block →
      (change e.info).relayMethod = .block) :
    Keeps E known pool { pool with table := pool.table.update id change } := by
  have hst : stored (pool.table.update id change) = stored pool.table := by
    rw [stored, stored, update, map_map]
    refine map_congr_left fun e _ => ?_
    by_cases hid : e.id = id
    · simp [hid]
    · simp [hid]
  refine ⟨⟨sound_of_rows h.sound fun e' he' => ?_, ?_⟩, ?_⟩
  · obtain ⟨e, he, rfl⟩ := mem_map.mp he'
    refine ⟨e, he, ?_⟩
    by_cases hid : e.id = id
    · rw [if_pos hid]
      exact ⟨rfl, rfl, hwt e he hid, hkept e he hid⟩
    · rw [if_neg hid]
      exact ⟨rfl, rfl, rfl, fun hb => hb⟩
  · rw [hst]
    exact ⟨h.mirrors.tidy, h.mirrors.index, h.mirrors.once, h.mirrors.entries, h.mirrors.added⟩
  · intro hw
    have hsum : rowsWeight (pool.table.update id change) = rowsWeight pool.table := by
      rw [rowsWeight, rowsWeight, update, map_map]
      congr 1
      refine map_congr_left fun e he => ?_
      by_cases hid : e.id = id
      · simp [hid, hwt e he hid]
      · simp [hid]
    exact hw.trans hsum.symm

theorem keeps_markDoubleSpend (h : Good E known pool) (tx : Transaction) :
    Keeps E known pool (markDoubleSpend pool tx) := by
  unfold markDoubleSpend
  generalize tx.vin.flatMap _ = ids
  generalize hmark : (fun (table : PoolTable) id =>
    table.update id fun info => { info with doubleSpendSeen := true }) = mark
  suffices hfold : ∀ table, Keeps E known pool { pool with table := table } →
      Keeps E known pool { pool with table := ids.foldl mark table } from hfold pool.table h.keeps
  subst hmark
  induction ids with
  | nil => exact fun _ hk => hk
  | cons id rest ih =>
    intro table hk
    refine ih _ (hk.trans (keeps_update hk.1 id _ ?_ ?_))
    · exact fun _ _ _ => rfl
    · exact fun _ _ _ hb => hb

theorem rowsWeight_replace {e new : PoolTx} (he : e ∈ table.rows) (hid : e.id = new.id)
    (hwt : new.info.weight = e.info.weight) : rowsWeight (table.put new) = rowsWeight table := by
  have hremove := rowsWeight_remove he
  rw [hid] at hremove
  have hput : rowsWeight (table.put new) = rowsWeight (table.remove new.id) + new.info.weight := by
    simp [rowsWeight, put]
  omega

theorem mem_stored_put (new : PoolTx) (p : Hash × Transaction)
    (hsame : ∀ e ∈ table.rows, e.id = new.id → e.tx = new.tx) :
    p ∈ (new.id, new.tx) :: stored table ↔ p ∈ stored (table.put new) := by
  obtain ⟨id, tx⟩ := p
  simp only [mem_cons, mem_stored, mem_put]
  constructor
  · rintro (hnew | ⟨e, he, hid, htx⟩)
    · obtain ⟨rfl, rfl⟩ := Prod.mk.inj hnew
      exact ⟨new, Or.inr rfl, rfl, rfl⟩
    · by_cases hnew : e.id = new.id
      · exact ⟨new, Or.inr rfl, hnew ▸ hid, (hsame e he hnew) ▸ htx⟩
      · exact ⟨e, Or.inl ⟨he, hnew⟩, hid, htx⟩
  · rintro ⟨e, ⟨he, -⟩ | rfl, hid, htx⟩
    · exact Or.inr ⟨e, he, hid, htx⟩
    · exact Or.inl (Prod.ext hid.symm htx.symm)

theorem sound_put (h : Good E known pool) {new : PoolTx} (hid : new.id = E.H.txHash new.tx)
    (hwt : new.info.weight = E.txWeight new.tx) (htx : new.tx ∈ known)
    (hplain : PlainInputs new.tx.vin ∧ new.tx.vin ≠ [])
    (halone : new.info.relayMethod ≠ .block → ∀ k, .toKey k ∈ new.tx.vin →
      idsOf pool.spentKeyImages k = [] ∨ idsOf pool.spentKeyImages k = [new.id]) :
    Sound E known (pool.table.put new) := by
  -- Nothing else that is not kept by a block spends a key image of the new transaction.
  have hother : ∀ f ∈ pool.table.rows, new.info.relayMethod ≠ .block →
      ∀ k, .toKey k ∈ new.tx.vin → .toKey k ∈ f.tx.vin → f.id = new.id := by
    intro f hf hblk k hk hk'
    have hindexed : f.id ∈ idsOf pool.spentKeyImages k :=
      (h.mirrors.index k f.id).mpr ⟨f.tx, mem_stored.mpr ⟨f, hf, rfl, rfl⟩, hk'⟩
    rcases halone hblk k hk with hnone | hone
    · rw [hnone] at hindexed
      cases hindexed
    · rw [hone] at hindexed
      exact mem_singleton.mp hindexed
  refine ⟨?_, ?_, ?_, ?_⟩
  · intro e he
    rcases mem_put.mp he with ⟨hold, -⟩ | rfl
    · exact h.sound.own e hold
    · exact ⟨hid, hwt⟩
  · intro e he
    rcases mem_put.mp he with ⟨hold, -⟩ | rfl
    · exact h.sound.known e hold
    · exact htx
  · intro e he
    rcases mem_put.mp he with ⟨hold, -⟩ | rfl
    · exact h.sound.plain e hold
    · exact hplain
  · intro e he f hf hblk hblk' k hk hk'
    rcases mem_put.mp he with ⟨hold, -⟩ | rfl
    · rcases mem_put.mp hf with ⟨hold', -⟩ | rfl
      · exact h.sound.apart e hold f hold' hblk hblk' k hk hk'
      · exact hother e hold hblk' k hk' hk
    · rcases mem_put.mp hf with ⟨hold', -⟩ | rfl
      · exact (hother f hold' hblk k hk hk').symm
      · rfl

theorem good_store (h : Good E known pool) {info : TxMeta} (htx : tx ∈ known)
    (hplain : PlainInputs tx.vin ∧ tx.vin ≠ []) (hwt : info.weight = E.txWeight tx)
    (hsame : ∀ e ∈ pool.table.rows, e.id = E.H.txHash tx → e.tx = tx)
    (hins : Insertable pool.table (E.H.txHash tx) info.relayMethod tx.vin pool.spentKeyImages) :
    ∃ pool', store E pool tx (E.H.txHash tx) info.relayMethod info = (true, pool') ∧
      Good E known pool' ∧ pool'.weight = pool.weight ∧
      pool'.table = pool.table.put { id := E.H.txHash tx, info := info, tx := tx } := by
  obtain ⟨spent, hinsert, htidy, hspent⟩ := insertKeyImages_spec _ _ _ _ _ hins
  have hadded := mirrors_add (h.mirrors.withTable (pool.table.put ⟨E.H.txHash tx, info, tx⟩)) tx
    ⟨E.feePerByte info.fee info.weight, info.receiveTime, E.H.txHash tx⟩
    (htidy h.mirrors.tidy) hspent
  refine ⟨_, by rw [store, hinsert], ⟨?_, ?_⟩, ?_, ?_⟩
  · rw [addToTransientLists_table]
    exact sound_put h rfl hwt htx hplain hins.alone
  · rw [addToTransientLists_table]
    exact hadded.congr fun p => mem_stored_put pool.table ⟨E.H.txHash tx, info, tx⟩ p hsame
  · exact addToTransientLists_weight _
  · exact addToTransientLists_table _

/-- A transaction that is stored for everyone is refused when it comes again with a block, and
the index stays as it is. -/
theorem good_store_refused (h : Good E known pool) (he : e ∈ pool.table.rows)
    (hlegacy : e.info.relayMethod.isLegacy = true) (info : TxMeta) :
    ∃ pool', store E pool e.tx e.id .block info = (false, pool') ∧ Keeps E known pool pool' := by
  obtain ⟨hplain, hne⟩ := h.sound.plain e he
  obtain ⟨input, rest, hvin⟩ := exists_cons_of_ne_nil hne
  obtain ⟨ki, rfl⟩ := hplain.keys input (by rw [hvin]; exact mem_cons_self)
  have hindexed : e.id ∈ idsOf pool.spentKeyImages ki :=
    (h.mirrors.index ki e.id).mpr
      ⟨e.tx, mem_stored.mpr ⟨e, he, rfl, rfl⟩, by rw [hvin]; exact mem_cons_self⟩
  have hget := get_eq_some_iff.mpr ⟨he, rfl⟩
  have hinsert : insertKeyImages pool.table e.id .block e.tx.vin pool.spentKeyImages =
      (false, setIds pool.spentKeyImages ki (idsOf pool.spentKeyImages ki)) := by
    rw [hvin, insertKeyImages, if_neg (fun hb => hb.1 rfl), if_pos hindexed, hget]
    exact if_pos hlegacy
  have hids : ∀ k, idsOf (setIds pool.spentKeyImages ki
      (idsOf pool.spentKeyImages ki)) k = idsOf pool.spentKeyImages k := by
    intro k
    rw [idsOf_setIds]
    split
    · rename_i hk
      rw [hk]
    · rfl
  refine ⟨{ pool with
    spentKeyImages := setIds pool.spentKeyImages ki (idsOf pool.spentKeyImages ki) },
    by rw [store, hinsert], ⟨h.sound, ?_⟩, fun hw => hw⟩
  refine ⟨tidy_setIds h.mirrors.tidy (ne_nil_of_mem hindexed)
    (nodup_idsOf h.mirrors.tidy ki), ?_, h.mirrors.once, h.mirrors.entries, h.mirrors.added⟩
  intro k id
  rw [hids]
  exact h.mirrors.index k id

/-- A key image that does not count as spent is not indexed, or only for the transaction itself
while it is stored privately. -/
theorem keyImageSpent_eq_false {k : Key} (h : keyImageSpent pool k id = false) :
    idsOf pool.spentKeyImages k = [] ∨ (idsOf pool.spentKeyImages k = [id] ∧
      ∀ e, pool.table.get id = some e → e.info.relayMethod.isLegacy = false) := by
  unfold keyImageSpent at h
  rw [idsOf]
  split at h
  · rename_i hlookup
    rw [hlookup]
    exact Or.inl rfl
  · rename_i hlookup
    rw [hlookup]
    exact Or.inl rfl
  · rename_i only hlookup
    rw [hlookup]
    split at h
    · rename_i hid
      subst hid
      refine Or.inr ⟨rfl, ?_⟩
      intro e hget
      rw [hget] at h
      exact h
    · cases h
  · cases h

theorem admission_passed {db : Db} {wt ver nic fee : ℕ} {relay : RelayMethod}
    (h : admission E db pool tx id wt relay ver nic = .ok fee) :
    (ver = nic ∨ E.nonInputConsensus tx ver = true) ∧
      (relay ≠ .block → keyImagesSpent pool tx id = false) := by
  simp only [admission, bind_eq_ok, failIf_eq_ok, exists_unit] at h
  obtain ⟨-, hnic, pl, -, h⟩ := h
  constructor
  · by_contra hnot
    rw [not_or] at hnot
    exact hnic ⟨hnot.1, by simpa using hnot.2⟩
  · cases hfee : E.fee tx with
    | none =>
      rw [hfee] at h
      cases h
    | some paid =>
      simp only [hfee, bind_eq_ok, failIf_eq_ok, exists_unit] at h
      intro hrelay
      have hspent := h.2.2.2.1
      simpa [hrelay] using hspent

theorem insertable_of_unspent (h : Good E known pool) (hplain : PlainInputs tx.vin ∧ tx.vin ≠ [])
    (hsame : ∀ e ∈ pool.table.rows, e.id = id → e.tx = tx)
    (hspent : keyImagesSpent pool tx id = false) {relay : RelayMethod} :
    Insertable pool.table id relay tx.vin pool.spentKeyImages := by
  have hkey : ∀ k, .toKey k ∈ tx.vin → keyImageSpent pool k id = false := by
    intro k hk
    simpa using (any_eq_false.mp hspent) _ hk
  refine ⟨hplain.1.keys, ?_, ?_⟩
  · intro _ k hk
    exact (keyImageSpent_eq_false (hkey k hk)).imp_right And.left
  · intro e hget hlegacy
    -- It would be indexed under its first key image.
    obtain ⟨he, hid⟩ := get_eq_some_iff.mp hget
    obtain ⟨input, hin⟩ := exists_mem_of_ne_nil _ hplain.2
    obtain ⟨k, rfl⟩ := hplain.1.keys input hin
    have hindexed : id ∈ idsOf pool.spentKeyImages k :=
      (h.mirrors.index k id).mpr ⟨tx, mem_stored.mpr ⟨e, he, hid, hsame e he hid⟩, hin⟩
    rcases keyImageSpent_eq_false (hkey k hin) with hnone | ⟨-, hprivate⟩
    · rw [hnone] at hindexed
      cases hindexed
    · rw [hprivate e hget] at hlegacy
      cases hlegacy

theorem insertable_private (hplain : PlainInputs tx.vin ∧ tx.vin ≠ [])
    (hget : pool.table.get id = some e) (hprivate : e.info.relayMethod.isLegacy = false) :
    Insertable pool.table id .block tx.vin pool.spentKeyImages := by
  refine ⟨hplain.1.keys, fun hne => absurd rfl hne, ?_⟩
  intro f hf hlegacy
  rw [hget] at hf
  cases hf
  rw [hprivate] at hlegacy
  cases hlegacy

/-- The call that the weight counter does not survive: a transaction that is stored privately
comes with a block, and its inputs do not pass. -/
def Recounts (E : Env) (db : Db) (pool : TxPool) (tx : Transaction) (relay : RelayMethod) : Prop :=
  relay = .block ∧ E.checkTxInputs db.blocks tx true = none ∧
    ∃ e, pool.table.get (E.H.txHash tx) = some e ∧ e.info.relayMethod.isLegacy = false

theorem keeps_store_new (h : Good E known pool) (relay : RelayMethod) (info : TxMeta)
    (hrelay : info.relayMethod = relay) (htx : tx ∈ known)
    (hplain : PlainInputs tx.vin ∧ tx.vin ≠ []) (hwt : info.weight = E.txWeight tx)
    (habs : pool.table.get (E.H.txHash tx) = none)
    (halone : relay ≠ .block → keyImagesSpent pool tx (E.H.txHash tx) = false) :
    ∃ pool', store E pool tx (E.H.txHash tx) relay info = (true, pool') ∧
      Keeps E known pool (prune { pool' with weight := pool'.weight + E.txWeight tx }) := by
  subst hrelay
  have hsame : ∀ e ∈ pool.table.rows, e.id = E.H.txHash tx → e.tx = tx :=
    fun e he hid => absurd hid (PoolTable.get_eq_none_iff.mp habs e he)
  have hins : Insertable pool.table (E.H.txHash tx) info.relayMethod tx.vin
      pool.spentKeyImages := by
    by_cases hblk : info.relayMethod = .block
    · refine ⟨hplain.1.keys, fun hne => absurd hblk hne, ?_⟩
      intro e hget
      rw [habs] at hget
      cases hget
    · exact insertable_of_unspent h hplain hsame (halone hblk)
  obtain ⟨pool', hstore, hgood, hsum, htab⟩ := good_store h htx hplain hwt hsame hins
  refine ⟨pool', hstore, ?_⟩
  have hweighed := hgood.withWeight (pool'.weight + E.txWeight tx)
  refine Keeps.trans ⟨hweighed, ?_⟩ (keeps_prune hweighed)
  intro hw
  change pool'.weight + E.txWeight tx = rowsWeight pool'.table
  rw [htab, rowsWeight_put _ _ habs, hsum, hw, hwt]

theorem keeps_store_again (h : Good E known pool) {relay : RelayMethod} {info : TxMeta}
    (hrelay : info.relayMethod = relay) (he : e ∈ pool.table.rows) (hid : e.id = E.H.txHash e.tx)
    (hwt : info.weight = E.txWeight e.tx)
    (hins : Insertable pool.table (E.H.txHash e.tx) relay e.tx.vin pool.spentKeyImages) :
    ∃ pool', store E pool e.tx (E.H.txHash e.tx) relay info = (true, pool') ∧
      Keeps E known pool pool' := by
  subst hrelay
  obtain ⟨pool', hstore, hgood, hsum, htab⟩ :=
    good_store h (h.sound.known e he) (h.sound.plain e he) hwt (same_tx _ he hid) hins
  refine ⟨pool', hstore, hgood, ?_⟩
  intro hw
  change pool'.weight = rowsWeight pool'.table
  rw [htab, rowsWeight_replace pool.table he hid (hwt.trans (h.sound.own e he).2.symm), hsum]
  exact hw

/-- A stored transaction that comes with a block is stored again, or it was stored for everyone and
is refused. -/
theorem keeps_store_kept (h : Good E known pool) {info : TxMeta}
    (hrelay : info.relayMethod = .block) (he : e ∈ pool.table.rows)
    (hid : e.id = E.H.txHash e.tx) (hwt : info.weight = E.txWeight e.tx) :
    ∃ pool', store E pool e.tx (E.H.txHash e.tx) .block info =
        (!e.info.relayMethod.isLegacy, pool') ∧ Keeps E known pool pool' := by
  cases hlegacy : e.info.relayMethod.isLegacy with
  | true => exact hid ▸ good_store_refused h he hlegacy info
  | false =>
    have hget := get_eq_some_iff.mpr ⟨he, hid⟩
    exact keeps_store_again h hrelay he hid hwt
      (insertable_private (h.sound.plain e he) hget hlegacy)

/-- A stored transaction whose relay method is raised. -/
theorem keeps_upgrade (h : Good E known pool) (relay : RelayMethod) (info : TxMeta)
    (hrelay : info.relayMethod = relay) (he : e ∈ pool.table.rows) (hid : e.id = E.H.txHash e.tx)
    (hwt : info.weight = E.txWeight e.tx)
    (hunspent : relay ≠ .block → keyImagesSpent pool e.tx (E.H.txHash e.tx) = false) :
    ∃ accepted pool', store E pool e.tx (E.H.txHash e.tx) relay info = (accepted, pool') ∧
      Keeps E known pool pool' := by
  by_cases hblk : relay = .block
  · subst hblk
    exact ⟨_, keeps_store_kept h hrelay he hid hwt⟩
  · exact ⟨true, keeps_store_again h hrelay he hid hwt
      (insertable_of_unspent h (h.sound.plain e he) (same_tx _ he hid) (hunspent hblk))⟩

theorem Good.stored_same (h : Good E known pool) (htx : tx ∈ known)
    (hhash : ∀ a ∈ known, ∀ b ∈ known, E.H.txHash a = E.H.txHash b → a = b)
    (hget : pool.table.get (E.H.txHash tx) = some e) :
    e ∈ pool.table.rows ∧ e.id = E.H.txHash e.tx ∧ e.tx = tx := by
  obtain ⟨he, hid⟩ := get_eq_some_iff.mp hget
  have hown := (h.sound.own e he).1
  exact ⟨he, hown, hhash e.tx (h.sound.known e he) tx htx (hown.symm.trans hid)⟩

/-- A transaction that comes with a block is stored without its inputs: it is new, it was stored for
everyone and is refused, or it was stored privately and is counted again. -/
theorem keeps_store_block (h : Good E known pool) (info : TxMeta)
    (hrelay : info.relayMethod = .block) (hwt : info.weight = E.txWeight tx) (htx : tx ∈ known)
    (hhash : ∀ a ∈ known, ∀ b ∈ known, E.H.txHash a = E.H.txHash b → a = b)
    (hvin : PlainInputs tx.vin ∧ tx.vin ≠ []) :
    ∃ pool', store E pool tx (E.H.txHash tx) .block info = (true, pool') ∧
        Keeps E known pool (prune { pool' with weight := pool'.weight + E.txWeight tx }) ∨
      store E pool tx (E.H.txHash tx) .block info = (false, pool') ∧ Keeps E known pool pool' ∨
      store E pool tx (E.H.txHash tx) .block info = (true, pool') ∧
        (∃ e, pool.table.get (E.H.txHash tx) = some e ∧ e.info.relayMethod.isLegacy = false) ∧
        Good E known (prune { pool' with weight := pool'.weight + E.txWeight tx }) := by
  cases hget : pool.table.get (E.H.txHash tx) with
  | none =>
    obtain ⟨pool', hstore, hkeeps⟩ := keeps_store_new h .block info hrelay htx hvin hwt hget
      (fun hne => absurd rfl hne)
    exact ⟨pool', Or.inl ⟨hstore, hkeeps⟩⟩
  | some e =>
    obtain ⟨he, hid, rfl⟩ := h.stored_same htx hhash hget
    obtain ⟨pool', hstore, hkeeps⟩ := keeps_store_kept h hrelay he hid hwt
    cases hlegacy : e.info.relayMethod.isLegacy with
    | true =>
      rw [hlegacy] at hstore
      exact ⟨pool', Or.inr (Or.inl ⟨hstore, hkeeps⟩)⟩
    | false =>
      rw [hlegacy] at hstore
      exact ⟨pool', Or.inr (Or.inr ⟨hstore, ⟨e, rfl, hlegacy⟩,
        (keeps_prune (hkeeps.1.withWeight _)).1⟩)⟩

theorem keeps_addTx (h : Good E known pool) (db : Db) (relay : RelayMethod) (rld : Bool)
    {ver nic : ℕ} (clock : Clock) (htx : tx ∈ known)
    (hhash : ∀ a ∈ known, ∀ b ∈ known, E.H.txHash a = E.H.txHash b → a = b)
    (hplain : ver = nic ∨ E.nonInputConsensus tx ver = true → PlainInputs tx.vin ∧ tx.vin ≠ []) :
    Good E known (addTxOf E db pool tx relay rld ver nic clock).2 ∧
      (¬ Recounts E db pool tx relay → Weighed pool →
        Weighed (addTxOf E db pool tx relay rld ver nic clock).2) := by
  suffices hkeeps : Keeps E known pool (addTxOf E db pool tx relay rld ver nic clock).2 ∨
        Recounts E db pool tx relay ∧
          Good E known (addTxOf E db pool tx relay rld ver nic clock).2 by
    rcases hkeeps with hkeeps | ⟨hrecounts, hgood⟩
    · exact ⟨hkeeps.1, fun _ => hkeeps.2⟩
    · exact ⟨hgood, fun hnot => absurd hrecounts hnot⟩
  unfold addTxOf addTx
  split
  · exact Or.inl (keeps_markDoubleSpend h tx)
  · exact Or.inl h.keeps
  rename_i fee hadmission
  obtain ⟨hnic, hunspent⟩ := admission_passed hadmission
  have hvin := hplain hnic
  split
  · rename_i hins
    by_cases hblk : relay = .block
    · subst hblk
      rw [if_pos rfl]
      obtain ⟨pool', hcases⟩ := keeps_store_block h
        { metaOf (E.txWeight tx) fee (0, nullHash) .block rld clock with
          lastRelayedTime := clock.now
          doubleSpendSeen := keyImagesSpent pool tx (E.H.txHash tx) }
        rfl rfl htx hhash hvin
      dsimp only at hcases ⊢
      rcases hcases with ⟨hstore, hkeeps⟩ | ⟨hstore, hkeeps⟩ | ⟨hstore, hprivate, hgood⟩
      · rw [hstore]
        exact Or.inl hkeeps
      · rw [hstore]
        exact Or.inl hkeeps
      · rw [hstore]
        exact Or.inr ⟨⟨rfl, hins, hprivate⟩, hgood⟩
    · rw [if_neg hblk]
      exact Or.inl h.keeps
  · rename_i maxUsed hins
    left
    cases hget : pool.table.get (E.H.txHash tx) with
    | none =>
      obtain ⟨pool', hstore, hkeeps⟩ := keeps_store_new h relay
        (metaOf (E.txWeight tx) fee maxUsed relay rld clock) rfl htx hvin rfl hget hunspent
      dsimp only
      rw [hstore]
      exact hkeeps
    | some e =>
      obtain ⟨he, hid, rfl⟩ := h.stored_same htx hhash hget
      dsimp only
      generalize hup : (if relay = .stem ∧ e.info.relayMethod = .stem then RelayMethod.fluff
        else relay) = upgraded
      by_cases hupgrade : e.info.relayMethod.toNat < upgraded.toNat
      · rw [if_pos hupgrade]
        have hunspent' : upgraded ≠ .block →
            keyImagesSpent pool e.tx (E.H.txHash e.tx) = false := by
          intro hb
          refine hunspent fun hrelay => hb ?_
          rw [← hup, if_neg (by simp [hrelay]), hrelay]
        obtain ⟨accepted, pool', hstore, hkeeps⟩ := keeps_upgrade h upgraded
          (metaOf (E.txWeight e.tx) fee maxUsed upgraded rld clock) rfl he hid rfl hunspent'
        rw [hstore]
        cases accepted with
        | true => exact hkeeps.trans (keeps_prune hkeeps.1)
        | false => exact hkeeps
      · rw [if_neg hupgrade]
        exact keeps_prune h

end Monzero.PoolUpkeep
