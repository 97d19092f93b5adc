import Monzero.Checked
import Monzero.Ledger
import Mathlib.Data.List.AList

/-!
Totals in 64 bits. A table holds one total per key and is filled entry by entry, each
addition guarded against overflow. The totals are those of the entries added so far, as
numbers: the guard refuses exactly the entry that would take the sum of its key out of
range.
-/
namespace Monzero.Tally

open Checked Ledger

variable {κ ε : Type} [DecidableEq κ]

/-- `std::map<key, uint64_t>`. -/
abbrev Totals (κ : Type) := AList fun _ : κ => UInt64

def Totals.at (totals : Totals κ) (key : κ) : UInt64 := (totals.lookup key).getD 0

theorem at_insert (tots : Totals κ) (key other : κ) (value : UInt64) :
    Totals.at (tots.insert key value) other =
      if other = key then value else Totals.at tots other := by
  by_cases h : other = key
  · subst h
    simp [Totals.at]
  · simp [Totals.at, AList.lookup_insert_ne h, h]

variable {tots : Totals κ}

theorem at_eq_of_lookup {key : κ} {value : UInt64}
    (h : tots.lookup key = some value) : tots.at key = value := by
  simp [Totals.at, h]

/-- `total += amount` on `totals[key]`, unless the sum leaves 64 bits. -/
def add (overflow : ε) (totals : Totals κ) (key : κ) (amount : UInt64) :
    Except ε (Totals κ) := do
  failIf (amount > 18446744073709551615 - totals.at key) overflow
  return totals.insert key (totals.at key + amount)

/-- The table of the totals of a list of entries. -/
structure Tallies (entries : List (κ × ℕ)) (totals : Totals κ) : Prop where
  keys : ∀ key, key ∈ totals ↔ key ∈ entries.map Prod.fst
  amounts : ∀ key, (totals.at key).toNat = total key entries

theorem tallies_nil : Tallies [] (∅ : Totals κ) where
  keys key := by simp
  amounts key := by simp [Totals.at]

variable {es : List (κ × ℕ)}

theorem Tallies.total_lt (h : Tallies es tots) (key : κ) : total key es < 2 ^ 64 := by
  rw [← h.amounts key]
  exact (tots.at key).toNat_lt

theorem gt_sub_iff (a b : UInt64) : a > 18446744073709551615 - b ↔ 2 ^ 64 ≤ b.toNat + a.toNat := by
  have hb : b.toNat < 2 ^ 64 := b.toNat_lt
  have hle : b ≤ 18446744073709551615 := by
    rw [UInt64.le_iff_toNat_le]
    simpa using Nat.le_of_lt_succ hb
  rw [gt_iff_lt, UInt64.lt_iff_toNat_lt, UInt64.toNat_sub_of_le _ _ hle]
  simp only [UInt64.reduceToNat]
  omega

theorem guarded_sum_iff (a b c : UInt64) :
    ¬(a > 18446744073709551615 - b ∨ c ≠ a + b) ↔ c.toNat = a.toNat + b.toNat := by
  have hc := c.toNat_lt
  rw [gt_sub_iff, ne_eq, ← UInt64.toNat_inj, UInt64.toNat_add]
  constructor
  · intro h
    obtain ⟨hlt, heq⟩ := not_or.mp h
    rw [not_not.mp heq, Nat.mod_eq_of_lt (by omega)]
  · intro h
    rw [Nat.mod_eq_of_lt (by omega)]
    omega

/-- A loop that adds up amounts under the guard, with a condition on each element: it ends in the
sum of the amounts as numbers. -/
theorem loop_guarded_sum_iff {α : Type} {step : UInt64 → α → Except ε UInt64} {amt : α → UInt64}
    {accepted : α → Prop} (hstep : ∀ total a next, step total a = .ok next ↔
      accepted a ∧ ¬amt a > 18446744073709551615 - total ∧ next = total + amt a) (l : List α)
    (total res : UInt64) : loop step l total = .ok res ↔ (∀ a ∈ l, accepted a) ∧
        res.toNat = total.toNat + (l.map fun a => (amt a).toNat).sum := by
  induction l generalizing total with
  | nil => simp [loop, ← UInt64.toNat_inj, eq_comm]
  | cons a rest ih =>
    simp only [loop_cons_eq_ok, hstep, ih, gt_sub_iff, List.forall_mem_cons, List.map_cons,
      List.sum_cons, not_le]
    have hres := res.toNat_lt
    constructor
    · rintro ⟨_, ⟨ha, hlt, rfl⟩, hrest, hsum⟩
      rw [UInt64.toNat_add, Nat.mod_eq_of_lt hlt] at hsum
      exact ⟨⟨ha, hrest⟩, by omega⟩
    · rintro ⟨⟨ha, hrest⟩, hsum⟩
      have hlt : total.toNat + (amt a).toNat < 2 ^ 64 := by omega
      refine ⟨_, ⟨ha, hlt, rfl⟩, hrest, ?_⟩
      rw [UInt64.toNat_add, Nat.mod_eq_of_lt hlt]
      omega

theorem Tallies.add_eq_ok_iff
    (h : Tallies es tots) (overflow : ε) (key : κ) (amt : UInt64) (next : Totals κ) :
    add overflow tots key amt = .ok next ↔ total key (es ++ [(key, amt.toNat)]) < 2 ^ 64 ∧
        tots.insert key (tots.at key + amt) = next := by
  simp only [add, bind_eq_ok, pure_eq_ok, failIf_eq_ok, exists_unit, gt_sub_iff, h.amounts,
    total_append, total_cons, total_nil, if_true, Nat.add_zero, not_le]

theorem Tallies.insert (h : Tallies es tots)
    (key : κ) (amt : UInt64) (hlt : total key (es ++ [(key, amt.toNat)]) < 2 ^ 64) :
    Tallies (es ++ [(key, amt.toNat)]) (tots.insert key (tots.at key + amt)) where
  keys other := by
    rw [AList.mem_insert, h.keys]
    simp [or_comm]
  amounts other := by
    rw [at_insert]
    simp only [total_append, total_cons, total_nil, if_true, Nat.add_zero] at hlt ⊢
    by_cases hother : other = key
    · subst hother
      rw [← h.amounts] at hlt ⊢
      rw [if_pos rfl, if_pos rfl, UInt64.toNat_add, Nat.mod_eq_of_lt hlt]
    · rw [if_neg hother, if_neg (Ne.symm hother), h.amounts, Nat.add_zero]

end Monzero.Tally
