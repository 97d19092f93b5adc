import Monzero.BlockHandling

/-!
The metadata of pooled transactions. Every row of the pool is stored under the hash of
its transaction, with the weight and the fee of that transaction, whatever way it came
in. So it makes no difference to a block whether its transactions came from the pool or
with the block.
-/
namespace Monzero.PoolAccounts

open Primitives TxExtra TxMemoryPool PoolRows Blockchain BlockHandling

/-- A row whose id, weight and fee are those of its transaction. -/
structure Accounted (E : Env) (e : PoolTx) : Prop where
  id : e.id = E.H.txHash e.tx
  weight : e.info.weight = E.txWeight e.tx
  fee : E.fee e.tx = some e.info.fee

def Canonical (E : Env) (t : PoolTable) : Prop := ∀ e ∈ t.rows, Accounted E e

theorem Canonical.subset {E : Env} {t t' : PoolTable} (h : Canonical E t)
    (hsub : ∀ e ∈ t'.rows, e ∈ t.rows) : Canonical E t' := fun e he => h e (hsub e he)

theorem Canonical.marked {E : Env} {t t' : PoolTable} (h : Canonical E t) (hm : Marked t' t) :
    Canonical E t' := by
  intro e' he'
  obtain ⟨e, he, seen, rfl⟩ := hm e' he'
  exact ⟨(h e he).id, (h e he).weight, (h e he).fee⟩

variable (E : Env) (clock : Clock) (db : Db) (ver : ℕ)

theorem canonical_addTx (pool : TxPool) (tx : Transaction) (id : Hash) (wt : ℕ)
    (relay : RelayMethod) (rld : Bool) (ver nic : ℕ) (clock : Clock)
    (hid : id = E.H.txHash tx) (hwt : wt = E.txWeight tx) (h : Canonical E pool.table) :
    Canonical E (addTx E db pool tx id wt relay rld ver nic clock).2.table := by
  have hadded := addTx_added E db pool tx id wt relay rld ver nic clock
  generalize addTx E db pool tx id wt relay rld ver nic clock = result at hadded
  cases hadded with
  | refused err pool' untouched => exact h.marked untouched.marked
  | unchanged stored => exact h.subset (prune_rows pool).1
  | stored new relay' info pool' total checked weighed paid accepted =>
    have hput : Canonical E pool'.table := by
      intro e he
      rw [store_accepted E pool pool' tx id relay' info accepted, PoolTable.mem_put] at he
      rcases he with ⟨hold, -⟩ | rfl
      · exact h e hold
      · exact ⟨hid, weighed.trans hwt, paid⟩
    exact hput.subset (prune_rows _).1

theorem canonical_takeTx {pool : TxPool} (id : Hash) (h : Canonical E pool.table) :
    Canonical E (takeTx pool id).2.table := by
  unfold takeTx
  split
  · exact h
  · exact h.subset fun e he => (PoolTable.mem_remove.mp he).1

theorem within_revalidate (clock : Clock) (pool : TxPool) (e : PoolTx) :
    Within (revalidate E db ver clock pool e).table pool.table := by
  unfold revalidate
  cases hget : pool.table.get e.id with
  | none =>
    simp only [takeTx, hget]
    exact Within.refl _
  | some found =>
    obtain ⟨hmem, hid⟩ := PoolTable.get_eq_some_iff.mp hget
    have htake : Within (takeTx pool e.id).2.table pool.table := within_takeTx pool e.id
    have hrows := addTx_rows E db (takeTx pool e.id).2 found.tx e.id e.info.weight
      e.info.relayMethod e.info.relayed ver 0 clock
    simp only [takeTx, hget] at htake hrows ⊢
    generalize addTx E db _ found.tx e.id e.info.weight e.info.relayMethod e.info.relayed ver
      0 clock = res at hrows
    have hback : Within res.2.table pool.table := by
      intro f hf
      rcases hrows f hf with ⟨f', hf', hid', htx'⟩ | ⟨hid', htx', -⟩
      · obtain ⟨g, hg, hgid, hgtx⟩ := htake f' hf'
        exact ⟨g, hg, hgid.trans hid', hgtx.trans htx'⟩
      · exact ⟨found, hmem, hid.trans hid'.symm, htx'.symm⟩
    obtain ⟨_ | new, pool'⟩ := res
    · exact hback
    · exact (within_update _ _ _).trans hback

/-- A transaction that is offered again under a new version keeps its accounts. -/
theorem canonical_revalidate (clock : Clock) {pool : TxPool} {e : PoolTx} (he : Accounted E e)
    (hsame : ∀ found ∈ pool.table.rows, found.id = e.id → found.tx = e.tx)
    (h : Canonical E pool.table) : Canonical E (revalidate E db ver clock pool e).table := by
  unfold revalidate
  cases hget : pool.table.get e.id with
  | none =>
    simp only [takeTx, hget]
    exact h
  | some found =>
    obtain ⟨hmem, hid⟩ := PoolTable.get_eq_some_iff.mp hget
    have htx := hsame found hmem hid
    have htake := canonical_takeTx E e.id h
    simp only [takeTx, hget] at htake ⊢
    have hadd := canonical_addTx E db _ found.tx e.id e.info.weight e.info.relayMethod
      e.info.relayed ver 0 clock (by rw [htx]; exact he.id) (by rw [htx]; exact he.weight) htake
    have hrows := addTx_rows E db (removeEntry pool found (eraseEntry e.id pool.byFee)) found.tx
      e.id e.info.weight e.info.relayMethod e.info.relayed ver 0 clock
    split
    · rename_i hres
      rw [hres] at hadd
      exact hadd
    · rename_i new pool' hres
      rw [hres] at hadd hrows
      intro f hf
      obtain ⟨g, hg, rfl⟩ := List.mem_map.mp hf
      by_cases hgid : g.id = e.id
      · have hgtx : g.tx = e.tx := by
          rcases hrows g hg with ⟨g', hg', hid', htx'⟩ | ⟨-, htx', -⟩
          · have hold := PoolTable.mem_remove.mp hg'
            exact htx'.symm.trans (hsame g' hold.1 (hid'.trans hgid))
          · exact htx'.trans htx
        rw [if_pos hgid]
        exact ⟨(hadd g hg).id, by rw [hgtx]; exact he.weight, by rw [hgtx]; exact he.fee⟩
      · rw [if_neg hgid]
        exact hadd g hg

theorem canonical_validate (clock : Clock) (pool : TxPool) :
    Within (validate E db ver clock pool).table pool.table ∧
      (Canonical E pool.table → Canonical E (validate E db ver clock pool).table) := by
  refine (validate_invariant E db pool ver clock (fun rows validated =>
    (∀ e ∈ rows, e ∈ pool.table.rows) ∧ Within validated.table pool.table ∧
      (Canonical E pool.table → Canonical E validated.table)) ?_
    ⟨fun e he => (List.mem_insertionSort _).mp he, Within.refl _, fun h => h⟩).2
  intro e rest start ⟨hlisted, hwithin, hcanonical⟩
  have he := hlisted e List.mem_cons_self
  refine ⟨fun f hf => hlisted f (List.mem_cons_of_mem _ hf),
    (within_revalidate E db ver clock start e).trans hwithin, fun h => ?_⟩
  refine canonical_revalidate E db ver clock (h e he) ?_ (hcanonical h)
  -- Ids are stored once, so what is found under this id is still the listed transaction.
  intro found hfound hid
  obtain ⟨f, hf, hfid, hftx⟩ := hwithin found hfound
  rw [← hftx, List.inj_on_of_nodup_map pool.table.ids_nodup hf he (hfid.trans hid)]

theorem within_afterChange (node : Node) :
    Within (afterChange E clock ver node).pool.table node.pool.table := by
  unfold afterChange
  split
  · exact (canonical_validate E node.db _ clock node.pool).1
  · exact Within.refl _

theorem canonical_pop (node node' : Node)
    (hpop : popBlockFromBlockchain E clock node = some node') (h : Canonical E node.pool.table) :
    Canonical E node'.pool.table :=
  pop_invariant E (P := fun pool => Canonical E pool.table)
    (fun db ver pool => (canonical_validate E db ver clock pool).2)
    (fun db pool tx relay rld ver nic =>
      canonical_addTx E db pool tx _ _ relay rld ver nic clock rfl rfl) h hpop

theorem canonical_block {node node' : Node} {block : Block} {supp : List Transaction}
    (hacc : handleBlockToMainChain E clock node block supp = (.ok (), node'))
    (h : Canonical E node.pool.table) : Canonical E node'.pool.table :=
  block_invariant E (P := fun pool => Canonical E pool.table)
    (fun db ver pool => (canonical_validate E db ver clock pool).2)
    (fun _ id => canonical_takeTx E id) h hacc

end Monzero.PoolAccounts
