import Monzero.PoolIndex
import Mathlib.Data.List.Lex

/-!
The indexes of the pool mirror its tables. The set of ids under a key image holds exactly
the stored transactions that spend it, and the container ordered by fee has one entry for
each stored transaction. Every operation keeps this. The weight counter is kept as well,
but for one kind of call, which counts a stored transaction again.
-/
namespace Monzero.PoolMirror

open Bytes Primitives TxExtra TxMemoryPool PoolRows PoolIndex List

theorem map_eraseEntry (id : Hash) (byFee : List FeeEntry) :
    (eraseEntry id byFee).map FeeEntry.id = (byFee.map FeeEntry.id).erase id := by
  induction byFee with
  | nil => rfl
  | cons ent rest ih =>
    rw [eraseEntry] at ih ⊢
    by_cases h : ent.id = id
    · rw [eraseP_cons_of_pos (by simpa using h), map_cons, h, erase_cons_head]
    · rw [eraseP_cons_of_neg (by simpa using h), map_cons, map_cons,
        erase_cons_tail (by simpa using h), ih]

variable {a b : FeeEntry}

theorem before_of_fee (h : b.feePerByte < a.feePerByte) : a.before b :=
  if_pos h

theorem before_of_time (hfee : a.feePerByte = b.feePerByte)
    (h : a.receiveTime < b.receiveTime) : a.before b := by
  rw [FeeEntry.before, hfee, if_neg (lt_irrefl _), if_neg (lt_irrefl _), if_pos h]

theorem before_of_id (hfee : a.feePerByte = b.feePerByte)
    (htime : a.receiveTime = b.receiveTime) (h : digits a.id < digits b.id) : a.before b := by
  rw [FeeEntry.before, hfee, if_neg (lt_irrefl _), if_neg (lt_irrefl _), htime,
    if_neg (lt_irrefl _), if_neg (lt_irrefl _)]
  exact (memcmpLt_iff a.id b.id).mpr h

theorem before_or_before {a b : FeeEntry} (hid : a.id ≠ b.id) : a.before b ∨ b.before a := by
  rcases lt_trichotomy a.feePerByte b.feePerByte with hfee | hfee | hfee
  · exact Or.inr (before_of_fee hfee)
  · rcases lt_trichotomy a.receiveTime b.receiveTime with htime | htime | htime
    · exact Or.inl (before_of_time hfee htime)
    · have hdig : digits a.id ≠ digits b.id := fun h => hid (digits_injective h)
      rcases lt_or_gt_of_ne hdig with h | h
      · exact Or.inl (before_of_id hfee htime h)
      · exact Or.inr (before_of_id hfee.symm htime.symm h)
    · exact Or.inr (before_of_time hfee.symm htime)
  · exact Or.inl (before_of_fee hfee)

theorem perm_emplace {ent : FeeEntry} {byFee : List FeeEntry}
    (hnew : ent.id ∉ byFee.map FeeEntry.id) : (emplace ent byFee).Perm (ent :: byFee) := by
  induction byFee with
  | nil => exact List.Perm.refl _
  | cons x rest ih =>
    rw [map_cons, mem_cons, not_or] at hnew
    rw [emplace]
    split
    · exact ((ih hnew.2).cons x).trans (List.Perm.swap ent x rest)
    · rename_i hbefore
      rw [if_pos]
      · exact (before_or_before hnew.1).resolve_right hbefore

/-- The ids of the entries ordered by fee. -/
def feeIds (pool : TxPool) : List Hash := pool.byFee.map FeeEntry.id

/-- The old entry of the transaction, if there is one, makes room for the new one. -/
theorem perm_feeIds_add {pool : TxPool} {ent : FeeEntry} (hnodup : (feeIds pool).Nodup)
    (hlisted : ent.id ∈ feeIds pool → ent.id ∈ pool.addedById) :
    (feeIds (addToTransientLists pool ent)).Perm (ent.id :: (feeIds pool).erase ent.id) := by
  unfold addToTransientLists
  by_cases hold : ent.id ∈ pool.addedById
  · have hnew : ent.id ∉ (eraseEntry ent.id pool.byFee).map FeeEntry.id := by
      rw [map_eraseEntry]
      exact hnodup.not_mem_erase
    have hperm := (perm_emplace hnew).map FeeEntry.id
    rw [map_cons, map_eraseEntry] at hperm
    rw [if_pos hold]
    exact hperm
  · have hnew : ent.id ∉ feeIds pool := fun hmem => hold (hlisted hmem)
    rw [if_neg hold, erase_of_not_mem hnew]
    exact (perm_emplace hnew).map FeeEntry.id

theorem erase_eq_eraseEntry {byFee : List FeeEntry} {ent : FeeEntry} (hmem : ent ∈ byFee)
    (honce : (byFee.map FeeEntry.id).Nodup) : byFee.erase ent = eraseEntry ent.id byFee := by
  induction byFee with
  | nil => cases hmem
  | cons x rest ih =>
    rw [map_cons, nodup_cons] at honce
    by_cases heq : x = ent
    · subst heq
      rw [erase_cons_head, eraseEntry, eraseP_cons_of_pos (by simp)]
    · have hrest := (mem_cons.mp hmem).resolve_left fun h => heq h.symm
      have hid : x.id ≠ ent.id := fun h => honce.1 (h ▸ mem_map_of_mem hrest)
      rw [erase_cons_tail (by simpa using heq), eraseEntry,
        eraseP_cons_of_neg (by simpa using hid), ih hrest honce.2, eraseEntry]

/-- Where each id has one entry, pruning takes out transactions by their id. -/
theorem prune_by_id {P : TxPool → Prop} (hnodup : ∀ pool, P pool → (feeIds pool).Nodup)
    (hremove : ∀ pool e, P pool → e ∈ pool.table.rows →
      P (removeEntry pool e (eraseEntry e.id pool.byFee)))
    {pool : TxPool} (h : P pool) (bytes : ℕ) : P (pruneLoop bytes pool.byFee.reverse pool) := by
  have hpruned := pruneLoop_invariant
    (fun es pruned => P pruned ∧ es.Nodup ∧ ∀ ent ∈ es, ent ∈ pruned.byFee) bytes
    pool.byFee.reverse pool ?_ ?_ ⟨h, nodup_reverse.mpr (List.Nodup.of_map _ (hnodup pool h)),
      fun _ hent => mem_reverse.mp hent⟩
  · obtain ⟨-, hpruned, -⟩ := hpruned
    exact hpruned
  · intro ent rest pruned ⟨hpruned, hnd, hentries⟩
    exact ⟨hpruned, (nodup_cons.mp hnd).2, fun x hx => hentries x (mem_cons_of_mem _ hx)⟩
  · intro ent rest pruned e ⟨hpruned, hnd, hentries⟩ he hid _
    obtain ⟨hhead, htail⟩ := nodup_cons.mp hnd
    have herase : pruned.byFee.erase ent = eraseEntry e.id pruned.byFee := by
      rw [hid]
      exact erase_eq_eraseEntry (hentries ent mem_cons_self) (hnodup pruned hpruned)
    refine ⟨?_, htail, fun x hx => ?_⟩
    · rw [herase]
      exact hremove pruned e hpruned he
    · have hne : x ≠ ent := fun heq => hhead (heq ▸ hx)
      exact (mem_erase_of_ne hne).mpr (hentries x (mem_cons_of_mem _ hx))

structure Mirrors (txs : List (Hash × Transaction)) (pool : TxPool) : Prop where
  tidy : Tidy pool.spentKeyImages
  index : ∀ k id, id ∈ idsOf pool.spentKeyImages k ↔ ∃ tx, (id, tx) ∈ txs ∧ .toKey k ∈ tx.vin
  once : (pool.byFee.map FeeEntry.id).Nodup
  entries : ∀ id, id ∈ pool.byFee.map FeeEntry.id ↔ id ∈ txs.map Prod.fst
  added : ∀ id, id ∈ pool.addedById ↔ id ∈ txs.map Prod.fst

variable {txs : List (Hash × Transaction)} {pool : TxPool}

theorem Mirrors.congr {txs' : List (Hash × Transaction)} (h : Mirrors txs pool)
    (hsame : ∀ p, p ∈ txs ↔ p ∈ txs') : Mirrors txs' pool := by
  have hids : ∀ id, id ∈ txs.map Prod.fst ↔ id ∈ txs'.map Prod.fst := by
    intro id
    simp only [mem_map, hsame]
  refine ⟨h.tidy, ?_, h.once, fun id => (h.entries id).trans (hids id),
    fun id => (h.added id).trans (hids id)⟩
  intro k id
  simp only [h.index, hsame]

theorem Mirrors.withTable (h : Mirrors txs pool)
    (tab : PoolTable) : Mirrors txs { pool with table := tab } :=
  ⟨h.tidy, h.index, h.once, h.entries, h.added⟩

theorem mirrors_add (h : Mirrors txs pool) (tx : Transaction) (ent : FeeEntry)
    {spent : List (Key × List Hash)} (htidy : Tidy spent) (hspent : ∀ k x, x ∈ idsOf spent k ↔
      x ∈ idsOf pool.spentKeyImages k ∨ (x = ent.id ∧ .toKey k ∈ tx.vin)) :
    Mirrors ((ent.id, tx) :: txs)
      (addToTransientLists { pool with spentKeyImages := spent } ent) := by
  have hidx : ∀ k id, id ∈ idsOf spent k ↔
      ∃ tx', (id, tx') ∈ (ent.id, tx) :: txs ∧ .toKey k ∈ tx'.vin := by
    intro k id
    rw [hspent, h.index]
    simp only [mem_cons, Prod.mk.injEq, or_and_right, exists_or]
    rw [or_comm]
    refine or_congr_left ?_
    constructor
    · rintro ⟨rfl, hk⟩
      exact ⟨tx, ⟨rfl, rfl⟩, hk⟩
    · rintro ⟨tx', ⟨rfl, rfl⟩, hk⟩
      exact ⟨rfl, hk⟩
  have hperm := @perm_feeIds_add { pool with spentKeyImages := spent } ent h.once
    fun hmem => (h.added _).mpr ((h.entries _).mp hmem)
  refine ⟨?_, ?_, ?_, ?_, ?_⟩
  · unfold addToTransientLists
    split <;> exact htidy
  · unfold addToTransientLists
    split <;> exact hidx
  · exact hperm.nodup_iff.mpr (nodup_cons.mpr ⟨h.once.not_mem_erase, h.once.erase _⟩)
  · intro id
    refine hperm.mem_iff.trans ?_
    rw [mem_cons, map_cons, mem_cons, ← h.entries]
    by_cases hid : id = ent.id
    · simp [hid]
    · simp [hid, mem_erase_of_ne hid, feeIds]
  · intro id
    rw [mem_addedById_addToTransientLists, map_cons, mem_cons, h.added]

theorem mirrors_remove (h : Mirrors txs pool) {e : PoolTx} (he : (e.id, e.tx) ∈ txs)
    (honly : ∀ tx, (e.id, tx) ∈ txs → tx = e.tx) (hplain : PlainInputs e.tx.vin) :
    Mirrors (txs.filter fun p => p.1 ≠ e.id) (removeEntry pool e (eraseEntry e.id pool.byFee)) := by
  have hids : ∀ id, id ∈ (txs.filter fun p => p.1 ≠ e.id).map Prod.fst ↔
      id ∈ txs.map Prod.fst ∧ id ≠ e.id := by
    intro id
    simp only [mem_map, mem_filter, decide_eq_true_eq]
    constructor
    · rintro ⟨p, ⟨hp, hne⟩, rfl⟩
      exact ⟨⟨p, hp, rfl⟩, hne⟩
    · rintro ⟨⟨p, hp, rfl⟩, hne⟩
      exact ⟨p, ⟨hp, hne⟩, rfl⟩
  have hspends : ∀ k, (∃ tx, (e.id, tx) ∈ txs ∧ .toKey k ∈ tx.vin) ↔ .toKey k ∈ e.tx.vin := by
    intro k
    constructor
    · rintro ⟨tx, htx, hk⟩
      rw [← honly tx htx]
      exact hk
    · intro hk
      exact ⟨e.tx, he, hk⟩
  refine ⟨tidy_removeKeyImages _ _ h.tidy, ?_, ?_, ?_, ?_⟩
  · intro k id
    change id ∈ idsOf (removeKeyImages e.id e.tx.vin pool.spentKeyImages) k ↔ _
    rw [mem_removed_iff hplain h.index hspends]
    constructor
    · rintro ⟨⟨tx, htx, hk⟩, hne⟩
      exact ⟨tx, mem_filter.mpr ⟨htx, decide_eq_true hne⟩, hk⟩
    · rintro ⟨tx, htx, hk⟩
      obtain ⟨hmem, hne⟩ := mem_filter.mp htx
      exact ⟨⟨tx, hmem, hk⟩, of_decide_eq_true hne⟩
  · change ((eraseEntry e.id pool.byFee).map FeeEntry.id).Nodup
    rw [map_eraseEntry]
    exact h.once.erase _
  · intro id
    change id ∈ (eraseEntry e.id pool.byFee).map FeeEntry.id ↔ _
    rw [map_eraseEntry, h.once.mem_erase_iff, h.entries, hids, and_comm]
  · intro id
    change id ∈ pool.addedById.filter (fun i => i ≠ e.id) ↔ _
    rw [mem_filter, h.added, hids, decide_eq_true_eq]

end Monzero.PoolMirror
