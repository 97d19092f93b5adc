import Monzero.BlockHandling
import Monzero.PoolAssets
import Monzero.PoolIndex

/-!
Transactions taken out for a block and offered back one after the other. Each is checked
against the pool as it stands at its turn, which may have been pruned before. Since
compatibility is symmetric, all of them come back when each passes the asset stage against
the pool they came from, and only then if nothing is pruned on the way.
-/
namespace Monzero.PoolReturns

open Primitives AssetWire AssetDb TxExtra TxMemoryPool PoolRows PoolIndex PoolAssets Blockchain List
  BlockHandling
open PoolTable (get_eq_none_iff mem_remove)

/-- A transaction passes the asset stage against a family of pooled transactions. -/
def Stage (E : Env) (db : Db) (family : Set (Hash × Transaction)) (id : Hash)
    (tx : Transaction) : Prop :=
  ∃ payload, envelope E tx = .ok payload ∧ ∀ p, payload = some p →
    verifyAssetTransactionAgainstDb E.C db p E.assetNetwork p.carrierPrefixHash = .ok () ∧
    (∃ candidate, issuanceId E.C p = .ok candidate) ∧
    ∀ a ∈ family, a.1 ≠ id → ∃ payload', envelope E a.2 = .ok payload' ∧
      ∀ q, payload' = some q → Compatible E.C p q

variable {t : Taken} {rest : List Taken} (E : Env) (pool : TxPool) (db : Db)

theorem assetStage_iff_stage (tab : PoolTable) (tx : Transaction) (id : Hash) (ver : ℕ)
    (hact : hfVersionMonzeroAssets ≤ ver) : (∃ pl, assetStage E db tab tx id ver = .ok pl) ↔
      Stage E db {x | x ∈ stored tab} id tx := by
  simp only [assetStage_eq_ok E db tab tx id hact, Stage]
  refine exists_congr fun pl => and_congr_right fun _ => forall_congr' fun p =>
    imp_congr_right fun _ => and_congr_right fun _ => ?_
  constructor
  · rintro ⟨cand, hcand, hnone⟩
    refine ⟨⟨cand, hcand⟩, ?_⟩
    rintro ⟨id', tx'⟩ ha hne
    obtain ⟨e, he, rfl, rfl⟩ := mem_stored.mp ha
    rw [← payload_of_active E _ hact]
    exact (conflicts_eq_false E ver e.tx hcand).mp (hnone e he hne)
  · rintro ⟨⟨cand, hcand⟩, hall⟩
    refine ⟨cand, hcand, fun e he hne => ?_⟩
    rw [conflicts_eq_false E ver e.tx hcand, payload_of_active E _ hact]
    exact hall (e.id, e.tx) (mem_stored.mpr ⟨e, he, rfl, rfl⟩) hne

theorem Stage.mono {E : Env} {db : Db} {family family' : Set (Hash × Transaction)} {id : Hash}
    {tx : Transaction} (h : Stage E db family id tx) (hsub : family' ⊆ family) :
    Stage E db family' id tx := by
  obtain ⟨pl, henv, hchk⟩ := h
  refine ⟨pl, henv, fun p hp => ?_⟩
  obtain ⟨hverify, hcand, hall⟩ := hchk p hp
  exact ⟨hverify, hcand, fun a ha hne => hall a (hsub ha) hne⟩

def entryOf (t : Taken) : Hash × Transaction := (t.id, t.tx)

/-- Each transaction of a list passes the asset stage when the ones before it have joined the
family. -/
def Passes (E : Env) (db : Db) : Set (Hash × Transaction) → List Taken → Prop
  | _, [] => True
  | family, t :: rest =>
      Stage E db family t.id t.tx ∧ Passes E db (insert (entryOf t) family) rest

theorem Passes.mono {E : Env} {db : Db} {family family' : Set (Hash × Transaction)}
    {taken : List Taken} (h : Passes E db family taken) (hsub : family' ⊆ family) :
    Passes E db family' taken := by
  induction taken generalizing family family' with
  | nil => trivial
  | cons t rest ih => exact ⟨h.1.mono hsub, ih h.2 (Set.insert_subset_insert hsub)⟩

private theorem family_cons (family : Set (Hash × Transaction)) (t : Taken) (rest : List Taken) :
    insert (entryOf t) family ∪ {x | ∃ u ∈ rest, x = entryOf u} =
      family ∪ {x | ∃ u ∈ t :: rest, x = entryOf u} := by
  ext x
  simp only [Set.mem_union, Set.mem_insert_iff, Set.mem_ofPred_eq, mem_cons, exists_eq_or_imp]
  tauto

theorem passes_iff (family : Set (Hash × Transaction)) {taken : List Taken}
    (hnd : (taken.map Taken.id).Nodup) : Passes E db family taken ↔
      ∀ t ∈ taken, Stage E db (family ∪ {x | ∃ u ∈ taken, x = entryOf u}) t.id t.tx := by
  induction taken generalizing family with
  | nil => simp [Passes]
  | cons t rest ih =>
    rw [map_cons, nodup_cons] at hnd
    rw [Passes, ih _ hnd.2, family_cons, forall_mem_cons]
    refine and_congr_left fun hrest => ⟨?_, fun h => h.mono Set.subset_union_left⟩
    rintro ⟨pl, henv, hchk⟩
    refine ⟨pl, henv, fun p hp => ?_⟩
    obtain ⟨hverify, hcand, hall⟩ := hchk p hp
    refine ⟨hverify, hcand, ?_⟩
    rintro a (ha | ⟨u, hu, rfl⟩) hne
    · exact hall a ha hne
    · rcases mem_cons.mp hu with rfl | hu
      · exact absurd rfl hne
      · -- A later transaction has been compared with this one.
        obtain ⟨pl', henv', hchk'⟩ := hrest u hu
        refine ⟨pl', henv', fun q hq => ?_⟩
        obtain ⟨-, -, hall'⟩ := hchk' q hq
        obtain ⟨found, hfound, hcompatible⟩ := hall' (entryOf t)
          (Or.inr ⟨t, mem_cons_self, rfl⟩) hne.symm
        have hsame : found = some p := by
          simpa [hp] using hfound.symm.trans henv
        exact (hcompatible p hsame).symm

/-- The transactions a block took from the pool. -/
def fromPool (taken : List Taken) : List Taken := taken.filter Taken.fromPool

/-- What a list of taken transactions needs to come back to a pool: it is not there, and its native
part is plain. -/
structure Returnable (E : Env) (pool : TxPool) (taken : List Taken) : Prop where
  nodup : (taken.map Taken.id).Nodup
  absent : ∀ t ∈ taken, pool.table.get t.id = none
  plain : ∀ t ∈ taken, PlainInputs t.tx.vin
  fee : ∀ t ∈ taken, E.fee t.tx ≠ none

theorem Returnable.tail {E : Env} {pool : TxPool} (h : Returnable E pool (t :: rest)) :
    Returnable E pool rest where
  nodup := (nodup_cons.mp h.nodup).2
  absent := fun u hu => h.absent u (mem_cons_of_mem _ hu)
  plain := fun u hu => h.plain u (mem_cons_of_mem _ hu)
  fee := fun u hu => h.fee u (mem_cons_of_mem _ hu)

theorem Returnable.added {E : Env} {pool pool' : TxPool} (h : Returnable E pool (t :: rest))
    (hsource : ∀ x ∈ stored pool'.table, x ∈ stored pool.table ∨ x = entryOf t) :
    Returnable E pool' rest where
  nodup := (nodup_cons.mp h.nodup).2
  absent := by
    intro u hu
    rw [get_eq_none_iff]
    intro e he hid
    rcases hsource (e.id, e.tx) (mem_stored.mpr ⟨e, he, rfl, rfl⟩) with hold | hnew
    · obtain ⟨f, hf, hfid, -⟩ := mem_stored.mp hold
      have habs := get_eq_none_iff.mp (h.absent u (mem_cons_of_mem _ hu))
      exact habs f hf (hfid.trans hid)
    · have hsame : u.id = t.id := hid.symm.trans (congrArg Prod.fst hnew)
      exact (nodup_cons.mp h.nodup).1 (hsame ▸ mem_map_of_mem hu)
  plain := fun u hu => h.plain u (mem_cons_of_mem _ hu)
  fee := fun u hu => h.fee u (mem_cons_of_mem _ hu)

theorem Returnable.not_stored {E : Env} {pool : TxPool} {taken : List Taken}
    (h : Returnable E pool taken) (ht : t ∈ taken) : entryOf t ∉ stored pool.table := by
  intro hmem
  obtain ⟨e, he, hid, -⟩ := mem_stored.mp hmem
  exact get_eq_none_iff.mp (h.absent t ht) e he hid

/-- The loop of `return_txs_to_pool` over the transactions that were in the pool. -/
def giveBack (E : Env) (db : Db) (version : ℕ) (clock : Clock) (pool : TxPool)
    (taken : List Taken) : TxPool :=
  taken.foldl
    (fun pool t => (addTx E db pool t.tx t.id t.weight .block true version version clock).2) pool

/-- What giving back does. The pool keeps its books and what is kept by a block; nothing else than
the given transactions comes in; the rest of what it had stays if there is room for all. All given
transactions come in when they pass one after the other, and only then if the rest stays. -/
structure GivenBack (E : Env) (db : Db) (pool : TxPool) (taken : List Taken) (after : TxPool) :
    Prop where
  booked : Booked E pool → Booked E after
  kept : ∀ x, KeptByBlock pool.table x → KeptByBlock after.table x
  source : ∀ x ∈ stored after.table, x ∈ stored pool.table ∨ ∃ t ∈ taken, x = entryOf t
  total : after.weight ≤ pool.weight + (taken.map Taken.weight).sum ∧
    after.maxWeight = pool.maxWeight
  whole : pool.weight + (taken.map Taken.weight).sum ≤ pool.maxWeight →
    ∀ x ∈ stored pool.table, x ∈ stored after.table
  returned : Passes E db {x | x ∈ stored pool.table} taken →
    ∀ t ∈ taken, KeptByBlock after.table (entryOf t)
  passes : (∀ x ∈ stored pool.table, x ∈ stored after.table) →
    (∀ t ∈ taken, entryOf t ∈ stored after.table) → Passes E db {x | x ∈ stored pool.table} taken

theorem GivenBack.accept {E : Env} {db : Db} {pool pool' after : TxPool}
    (h : GivenBack E db pool' rest after) (hreturnable : Returnable E pool (t :: rest))
    (hstage : Stage E db {x | x ∈ stored pool.table} t.id t.tx)
    (hadded : AddedForBlock E pool t.id t.tx t.weight pool') :
    GivenBack E db pool (t :: rest) after where
  booked hbooked := h.booked (hadded.booked hbooked)
  kept x hx := h.kept x (hadded.kept x hx)
  source := by
    intro x hx
    rcases h.source x hx with hx | ⟨u, hu, rfl⟩
    · rcases hadded.source x hx with hx | rfl
      · exact Or.inl hx
      · exact Or.inr ⟨t, mem_cons_self, rfl⟩
    · exact Or.inr ⟨u, mem_cons_of_mem _ hu, rfl⟩
  total := by
    obtain ⟨hless, hlim⟩ := h.total
    obtain ⟨hless', hlim'⟩ := hadded.total
    rw [map_cons, sum_cons]
    exact ⟨by omega, hlim.trans hlim'⟩
  whole := by
    intro hroom x hx
    obtain ⟨hless, hlim⟩ := hadded.total
    rw [map_cons, sum_cons] at hroom
    exact h.whole (by omega) x (hadded.whole (by omega) x hx)
  returned := by
    rintro ⟨-, hrest⟩
    have hpass : Passes E db {x | x ∈ stored pool'.table} rest := by
      refine hrest.mono fun x hx => ?_
      rcases hadded.source x hx with hx | rfl
      · exact Or.inr hx
      · exact Or.inl rfl
    rw [forall_mem_cons]
    exact ⟨h.kept _ hadded.new, h.returned hpass⟩
  passes := by
    intro hsub hall
    rw [forall_mem_cons] at hall
    have hnext : ∀ x ∈ stored pool'.table, x ∈ stored after.table := by
      intro x hx
      rcases hadded.source x hx with hx | rfl
      · exact hsub x hx
      · exact hall.1
    refine ⟨hstage, (h.passes hnext hall.2).mono ?_⟩
    rintro x (rfl | hx)
    · exact hadded.new.stored
    · -- What is there at the end was not pruned here, and does not come back later.
      rcases h.source x (hsub x hx) with hx' | ⟨u, hu, rfl⟩
      · exact hx'
      · exact absurd hx (hreturnable.not_stored (mem_cons_of_mem _ hu))

/-- The first transaction is refused. It is neither in the pool nor among the others. -/
theorem GivenBack.refuse {E : Env} {db : Db} {pool after : TxPool}
    (h : GivenBack E db pool rest after) (hreturnable : Returnable E pool (t :: rest))
    (hstage : ¬Stage E db {x | x ∈ stored pool.table} t.id t.tx) :
    GivenBack E db pool (t :: rest) after where
  booked := h.booked
  kept := h.kept
  source := by
    intro x hx
    rcases h.source x hx with hx | ⟨u, hu, rfl⟩
    · exact Or.inl hx
    · exact Or.inr ⟨u, mem_cons_of_mem _ hu, rfl⟩
  total := by
    obtain ⟨hless, hlim⟩ := h.total
    rw [map_cons, sum_cons]
    exact ⟨by omega, hlim⟩
  whole := by
    intro hroom
    rw [map_cons, sum_cons] at hroom
    exact h.whole (by omega)
  returned hpass := absurd hpass.1 hstage
  passes := by
    intro _ hall
    rcases h.source _ (hall t mem_cons_self) with hold | ⟨u, hu, heq⟩
    · exact absurd hold (hreturnable.not_stored mem_cons_self)
    · have hid : t.id = u.id := congrArg Prod.fst heq
      exact absurd (hid ▸ mem_map_of_mem hu) (nodup_cons.mp hreturnable.nodup).1

theorem givenBack_giveBack (version : ℕ) (clock : Clock) (hact : hfVersionMonzeroAssets ≤ version)
    (taken : List Taken) (pool : TxPool) (h : Returnable E pool taken) :
    GivenBack E db pool taken (giveBack E db version clock pool taken) := by
  induction taken generalizing pool with
  | nil =>
    exact ⟨fun hbooked => hbooked, fun _ hx => hx, fun _ hx => Or.inl hx,
      ⟨Nat.le_add_right _ _, rfl⟩, fun _ _ hx => hx, by simp, fun _ _ => trivial⟩
  | cons t rest ih =>
    have hmem := mem_cons_self (a := t) (l := rest)
    have hstages := assetStage_iff_stage E db pool.table t.tx t.id version hact
    by_cases hstage : ∃ payload, assetStage E db pool.table t.tx t.id version = .ok payload
    · have hadded := addedForBlock_addTx E db pool t.tx t.id t.weight true version clock hstage
        (h.fee t hmem) (h.absent t hmem) (h.plain t hmem)
      exact (ih _ (h.added hadded.source)).accept h (hstages.mp hstage) hadded
    · have hstep : giveBack E db version clock pool (t :: rest) =
          giveBack E db version clock pool rest := by
        rw [giveBack, foldl_cons, addTx_block_refused E db pool t.tx t.id t.weight true
          version clock hstage]
        rfl
      rw [hstep]
      exact (ih pool h.tail).refuse h fun hpass => hstage (hstages.mpr hpass)

/-- A pool divided between what is left of it and the transactions taken for a block. -/
structure Divided (E : Env) (pool : TxPool) (s : Collecting) : Prop where
  booked : Booked E s.pool
  returnable : Returnable E s.pool (fromPool s.taken)
  weight : s.pool.weight + ((fromPool s.taken).map Taken.weight).sum = pool.weight
  maxWeight : s.pool.maxWeight = pool.maxWeight
  stored_iff : ∀ x, x ∈ stored pool.table ↔
    x ∈ stored s.pool.table ∨ ∃ t ∈ fromPool s.taken, x = entryOf t

theorem fromPool_push (taken : List Taken) (t : Taken) :
    fromPool (taken ++ [t]) = if t.fromPool then fromPool taken ++ [t] else fromPool taken := by
  cases ht : t.fromPool with
  | true => simp [fromPool, ht]
  | false => simp [fromPool, ht]

theorem mem_stored_remove {tab : PoolTable} {e : PoolTx} (he : e ∈ tab.rows)
    (x : Hash × Transaction) :
    x ∈ stored tab ↔ x ∈ stored (tab.remove e.id) ∨ x = (e.id, e.tx) := by
  obtain ⟨a, b⟩ := x
  simp only [mem_stored, mem_remove, Prod.mk.injEq]
  constructor
  · rintro ⟨f, hf, rfl, rfl⟩
    by_cases hfe : f.id = e.id
    · have hsame := inj_on_of_nodup_map tab.ids_nodup hf he hfe
      exact Or.inr ⟨by rw [hsame], by rw [hsame]⟩
    · exact Or.inl ⟨f, ⟨hf, hfe⟩, rfl, rfl⟩
  · rintro (⟨f, ⟨hf, -⟩, rfl, rfl⟩ | ⟨rfl, rfl⟩)
    · exact ⟨f, hf, rfl, rfl⟩
    · exact ⟨e, he, rfl, rfl⟩

theorem Returnable.push {E : Env} {pool left : TxPool} {taken : List Taken} {e : PoolTx}
    (h : Returnable E pool taken) (hbooked : Booked E pool) (he : e ∈ pool.table.rows)
    (hid : t.id = e.id) (htx : t.tx = e.tx) (htab : left.table = pool.table.remove e.id) :
    Returnable E left (taken ++ [t]) where
  nodup := by
    rw [map_append, nodup_append]
    refine ⟨h.nodup, nodup_singleton _, ?_⟩
    intro a ha b hb hab
    obtain ⟨u, hu, rfl⟩ := mem_map.mp ha
    obtain rfl : b = t.id := by simpa using hb
    exact get_eq_none_iff.mp (h.absent u hu) e he (hab.trans hid).symm
  absent := by
    intro u hu
    rw [mem_append, mem_singleton] at hu
    rw [get_eq_none_iff, htab]
    intro f hf
    obtain ⟨hmem, hne⟩ := mem_remove.mp hf
    rcases hu with hu | rfl
    · exact get_eq_none_iff.mp (h.absent u hu) f hmem
    · rwa [hid]
  plain := by
    intro u hu
    rw [mem_append, mem_singleton] at hu
    rcases hu with hu | rfl
    · exact h.plain u hu
    · exact htx ▸ hbooked.inputs e he
  fee := by
    intro u hu
    rw [mem_append, mem_singleton] at hu
    rcases hu with hu | rfl
    · exact h.fee u hu
    · exact htx ▸ hbooked.fee e he

theorem divided_take {s : Collecting} {e : PoolTx} (t : Taken) (he : e ∈ s.pool.table.rows)
    (hid : t.id = e.id) (htx : t.tx = e.tx) (hwt : t.weight = e.info.weight)
    (hfrom : t.fromPool = true) (h : Divided E pool s) :
    Divided E pool { s with pool := (takeTx s.pool e.id).2, taken := s.taken ++ [t] } := by
  obtain ⟨hbooked, hless, hmax⟩ := booked_takeTx E he h.booked
  have hget := PoolTable.get_eq_some_iff.mpr ⟨he, rfl⟩
  have htab : (takeTx s.pool e.id).2.table = s.pool.table.remove e.id := by
    rw [takeTx, hget]
    rfl
  have htaken : fromPool (s.taken ++ [t]) = fromPool s.taken ++ [t] := by
    rw [fromPool_push, hfrom, if_pos rfl]
  refine ⟨hbooked, ?_, ?_, hmax.trans h.maxWeight, ?_⟩
  · dsimp only
    rw [htaken]
    exact h.returnable.push h.booked he hid htx htab
  · have htotal := h.weight
    dsimp only
    rw [htaken, map_append, sum_append]
    simp only [map_cons, map_nil, sum_cons, sum_nil, hwt]
    omega
  · intro x
    dsimp only
    rw [h.stored_iff, htaken, htab, mem_stored_remove he]
    simp only [mem_append, mem_singleton, or_and_right, exists_or, exists_eq_left]
    rw [entryOf, hid, htx]
    exact or_assoc.trans (or_congr_right or_comm)

theorem divided_findTx (s next : Collecting) (id : Hash) (found : Taken)
    (pl : Option (AssetTransactionPayload Key)) (hfind : findTx E s id = some (found, next))
    (h : Divided E pool s) : Divided E pool
      { next with taken := next.taken ++ [{ found with payload := pl }] } := by
  unfold findTx at hfind
  cases hget : s.pool.table.get id with
  | some e =>
    obtain ⟨he, rfl⟩ := PoolTable.get_eq_some_iff.mp hget
    simp only [takeTx, hget, Option.some.injEq, Prod.mk.injEq] at hfind
    obtain ⟨rfl, rfl⟩ := hfind
    have htake := divided_take E pool
      { id := e.id, tx := e.tx, weight := e.info.weight, fee := e.info.fee, fromPool := true,
        payload := pl } he rfl rfl rfl rfl h
    simp only [takeTx, hget] at htake
    exact htake
  | none =>
    simp only [takeTx, hget] at hfind
    split at hfind
    · cases hfind
    · simp only [Option.some.injEq, Prod.mk.injEq] at hfind
      obtain ⟨rfl, rfl⟩ := hfind
      have hsame : ∀ t : Taken, t.fromPool = false →
          fromPool (s.taken ++ [t]) = fromPool s.taken := by
        intro t ht
        rw [fromPool_push, ht]
        rfl
      refine ⟨h.booked, ?_, ?_, h.maxWeight, ?_⟩ <;> dsimp only
      · rw [hsame _ rfl]
        exact h.returnable
      · rw [hsame _ rfl]
        exact h.weight
      · rw [hsame _ rfl]
        exact h.stored_iff

theorem divided_collectTxs (pool : TxPool) (ver : ℕ) (fast : Bool) (ids : List Hash)
    (s s' : Collecting) (hcollect : collectTxs E db ver fast ids s = (.ok (), s'))
    (h : Divided E pool s) : Divided E pool s' := by
  induction ids generalizing s with
  | nil =>
    cases hcollect
    exact h
  | cons id rest ih =>
    obtain ⟨-, found, next, pl, hfind, -, -, hrest⟩ :=
      (collectTxs_cons_eq_ok ..).mp hcollect
    exact ih _ hrest (divided_findTx E pool s next id found pl hfind h)

theorem divided_start (supp : List Transaction) (hbooked : Booked E pool) :
    Divided E pool { pool := pool, supplement := supp, taken := [] } where
  booked := hbooked
  returnable := ⟨nodup_nil, by simp [fromPool], by simp [fromPool], by simp [fromPool]⟩
  weight := by simp [fromPool]
  maxWeight := rfl
  stored_iff := by simp [fromPool]

end Monzero.PoolReturns
