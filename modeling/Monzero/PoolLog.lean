import Monzero.ChangeLog
import Monzero.Primitives

/-!
The logs of what was added to the transaction pool and removed from it, from which clients are
told the changes since a time. Whatever is logged takes a reading of the clock.
-/
namespace Monzero

open Primitives ChangeLog List

structure RemovedTxInfo where
  txid : Hash
  sensitive : Bool
deriving DecidableEq

structure PoolLog where
  /-- The times in `m_added_txs_by_id`, whose ids the pool has. -/
  addedTime : Hash → ℕ
  /-- `m_added_txs_start_time`. -/
  addedStart : ℕ
  /-- `m_removed_txs_by_time`. -/
  removedByTime : Timeline RemovedTxInfo
  /-- `m_removed_txs_start_time`. -/
  removedStart : ℕ
  /-- The time that was read last. -/
  clock : ℕ
  /-- The seconds that pass before each of the readings to come. -/
  waits : ℕ → ℕ

namespace PoolLog

/-- The logs of a new pool. -/
def empty (clock : ℕ) (waits : ℕ → ℕ) : PoolLog where
  addedTime _ := 0
  addedStart := 0
  removedByTime := Timeline.empty
  removedStart := 0
  clock := clock
  waits := waits

/-- What `time(NULL)` gives when it is called next. -/
def now (log : PoolLog) : ℕ := log.clock + log.waits 0

/-- The log after a call of `time(NULL)`. -/
def read (log : PoolLog) : PoolLog :=
  { log with clock := log.now, waits := fun n => log.waits (n + 1) }

/-- What `add_tx_to_transient_lists` logs. -/
def logAdded (log : PoolLog) (txid : Hash) : PoolLog :=
  { log.read with
    addedTime := Function.update log.addedTime txid log.now
    addedStart := if log.addedStart = 0 then log.now else log.addedStart }

def maxRemoved : ℕ := 20000

def trackRemovedTx (log : PoolLog) (txid : Hash) (sensitive : Bool) : PoolLog :=
  let removed := log.removedByTime.insert log.now ⟨txid, sensitive⟩
  let start := if log.removedStart = 0 then log.now else log.removedStart
  if removed.entries.length > maxRemoved then
    let left := removed.drop (maxRemoved / 4 + 1)
    { log.read with
      removedByTime := left
      removedStart := (left.entries.head?.map Prod.fst).getD start }
  else
    let earliest := log.now - 30 * 60
    let left := removed.since earliest
    if left.entries.length < removed.entries.length then
      { log.read with removedByTime := left, removedStart := earliest }
    else { log.read with removedByTime := removed, removedStart := start }

/-- Both logs are thrown away; the pool forgets the ids of those that were added. -/
def clear (log : PoolLog) : PoolLog :=
  { log with addedStart := 0, removedByTime := Timeline.empty, removedStart := 0 }

theorem clock_le_now (log : PoolLog) : log.clock ≤ log.now := Nat.le_add_right _ _

/-- A removal in the log before the log is shortened. -/
def logRemoved (log : PoolLog) (txid : Hash) (sensitive : Bool) : PoolLog :=
  { log.read with
    removedByTime := log.removedByTime.insert log.now ⟨txid, sensitive⟩
    removedStart := if log.removedStart = 0 then log.now else log.removedStart }

/-- A log is cut at a time: what comes before it is erased, and nothing that comes after. -/
structure Cut (entries left : List (ℕ × RemovedTxInfo)) (start : ℕ) : Prop where
  kept : ∀ a ∈ left, a ∈ entries ∧ start ≤ a.1
  erased : ∀ a ∈ entries, a ∉ left → a.1 ≤ start
  first : ∃ a ∈ entries, a.1 ≤ start
  last : ∃ a ∈ entries, start ≤ a.1

theorem trackRemovedTx_cases (log : PoolLog) (txid : Hash) (sensitive : Bool) :
    log.trackRemovedTx txid sensitive = logRemoved log txid sensitive ∨
      ∃ left start, log.trackRemovedTx txid sensitive =
          { logRemoved log txid sensitive with removedByTime := left, removedStart := start } ∧
        Cut (logRemoved log txid sensitive).removedByTime.entries left.entries start := by
  rw [logRemoved, trackRemovedTx]
  generalize hrem : log.removedByTime.insert log.now ⟨txid, sensitive⟩ = removed
  have hnew : (log.now, ⟨txid, sensitive⟩) ∈ removed.entries := by
    rw [← hrem, Timeline.mem_insert]
    exact Or.inl rfl
  simp only
  split
  next hmany =>
    -- more than a quarter is left
    right
    have hleft : (removed.drop (maxRemoved / 4 + 1)).entries ≠ [] := by
      rw [← length_pos_iff, Timeline.drop, length_drop]
      simp only [maxRemoved] at hmany ⊢
      omega
    obtain ⟨first, rest, hfst⟩ := exists_cons_of_ne_nil hleft
    have hhead : (removed.drop (maxRemoved / 4 + 1)).entries.head? = some first := by
      rw [hfst, head?_cons]
    obtain ⟨herased, hkept⟩ := removed.drop_spec _ first hhead
    have hmem : first ∈ removed.entries :=
      mem_of_mem_drop (mem_of_mem_head? hhead)
    refine ⟨_, first.1, by rw [hhead]; rfl, ?_, herased, ⟨first, hmem, le_rfl⟩, first, hmem, le_rfl⟩
    exact fun a ha => ⟨mem_of_mem_drop ha, hkept a ha⟩
  next hfew =>
    split
    next hshorter =>
      right
      obtain ⟨first, hmem, hbefore⟩ := removed.exists_before_of_since _ hshorter
      refine ⟨_, log.now - 30 * 60, rfl, fun a ha => (removed.mem_since _ a).mp ha, ?_,
        ⟨first, hmem, hbefore.le⟩, _, hnew, Nat.sub_le _ _⟩
      intro a ha herased
      by_contra hlate
      exact herased ((removed.mem_since _ a).mpr ⟨ha, by omega⟩)
    next => exact Or.inl rfl

end PoolLog

end Monzero
