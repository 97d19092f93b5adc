import Monzero.Emission
import Mathlib.Tactic.Linarith

/-!
The accounts of the emission. No sum wraps in an accepted block: the reward is far below
the range of 64 bits, the outputs of the miner transaction are checked for overflow and
the fees are bounded. So each block generates what its miner transaction pays out beyond
the fees, and the stored number is the sum of these, cut off at the supply.
-/
namespace Monzero.EmissionAccounting

open Emission List
open Option (some)
open UInt64 (le_iff_toNat_le lt_iff_toNat_lt toNat_add toNat_mul toNat_sub_of_le toNat_zero)

/-- The amounts added up without a bound. -/
def total (amounts : List UInt64) : ℕ := (amounts.map UInt64.toNat).sum

/-- What the miner transaction pays out. -/
def CoinBlock.paid (b : CoinBlock) : ℕ := total (b.minerTx.vout.map MinerOutput.amount)

theorem foldl_add_toNat (amts : List UInt64) (start : UInt64) :
    (amts.foldl (· + ·) start).toNat = (start.toNat + total amts) % 2 ^ 64 := by
  induction amts generalizing start with
  | nil =>
    have hlt := start.toNat_lt
    simp only [foldl_nil, total, map_nil, sum_nil]
    omega
  | cons amount rest ih =>
    simp only [foldl_cons, ih, toNat_add, total, map_cons, sum_cons]
    omega

theorem total_lt_of_checkOutsOverflow (amts : List UInt64) (money : UInt64)
    (h : checkOutsOverflow money amts = true) : money.toNat + total amts < 2 ^ 64 := by
  induction amts generalizing money with
  | nil =>
    have hlt := money.toNat_lt
    simp only [total, map_nil, sum_nil]
    omega
  | cons amt rest ih =>
    rw [checkOutsOverflow] at h
    split at h
    · cases h
    · rename_i hnowrap
      have hrest := ih (money + amt) h
      have hamt := amt.toNat_lt
      have hmoney := money.toNat_lt
      have hsum : (money + amt).toNat = money.toNat + amt.toNat := by
        rw [gt_iff_lt, lt_iff_toNat_lt, toNat_add] at hnowrap
        rw [toNat_add]
        omega
      simp only [total, map_cons, sum_cons] at hrest ⊢
      omega

theorem baseReward_lt (coins : UInt64) : (baseReward coins).toNat < 2 ^ 46 := by
  have hfactor : emissionSpeedFactorPerMinute - (targetMinutes - 1) = 19 := by decide
  simp only [baseReward, hfactor]
  split
  · decide
  · rw [UInt64.toNat_shiftRight]
    have hlt := (moneySupply - coins).toNat_lt
    simp only [UInt64.reduceToNat, Nat.reduceMod, Nat.shiftRight_eq_div_pow]
    omega

theorem penalty_le (base median wt : ℕ) (hlarge : median < wt) (hlim : wt ≤ 2 * median) :
    base * ((2 * median - wt) * wt) / median / median ≤ base := by
  obtain ⟨d, rfl⟩ : ∃ d, wt = median + d := ⟨wt - median, by omega⟩
  have hproduct : (2 * median - (median + d)) * (median + d) ≤ median * median := by
    obtain ⟨e, rfl⟩ : ∃ e, median = d + e := ⟨median - d, by omega⟩
    rw [show 2 * (d + e) - (d + e + d) = e by omega]
    nlinarith
  rw [Nat.div_div_eq_div_mul]
  exact Nat.div_le_of_le_mul (by nlinarith)

variable {coins : UInt64} {version : UInt8}

theorem getBlockReward_le {median wt rew : UInt64}
    (h : getBlockReward median wt coins version = some rew) :
    rew.toNat ≤ (baseReward coins).toNat := by
  rw [getBlockReward] at h
  dsimp only at h
  generalize (if median < getMinBlockWeight version then getMinBlockWeight version
    else median) = m at h
  split at h
  · rw [some.inj h]
  · rename_i hlarge
    split at h
    · cases h
    · rename_i hlim
      rw [← some.inj h]
      rw [le_iff_toNat_le] at hlarge
      rw [gt_iff_lt, lt_iff_toNat_lt, toNat_mul] at hlim
      have hm := m.toNat_lt
      -- Twice the median does not wrap, or the block would have been refused.
      have htwice : (2 * m).toNat = 2 * m.toNat := by
        rw [toNat_mul]
        simp only [UInt64.reduceToNat] at hlim ⊢
        omega
      have hmultiplicand : ((2 * m - wt) * wt).toNat ≤ (2 * m.toNat - wt.toNat) * wt.toNat := by
        have hsub : (2 * m - wt).toNat = 2 * m.toNat - wt.toNat := by
          have hle : wt ≤ 2 * m := by
            rw [le_iff_toNat_le, htwice]
            rw [← toNat_mul, htwice] at hlim
            omega
          rw [toNat_sub_of_le _ _ hle, htwice]
        rw [toNat_mul, hsub]
        exact Nat.mod_le _ _
      rw [← toNat_mul, htwice] at hlim
      rw [UInt64.toNat_ofNat']
      refine (Nat.mod_le _ _).trans ?_
      refine le_trans ?_ (penalty_le (baseReward coins).toNat m.toNat wt.toNat (by omega)
        (by omega))
      exact Nat.div_le_div_right (Nat.div_le_div_right (Nat.mul_le_mul_left _ hmultiplicand))

/-- The miner transaction of an accepted block pays out the fees and at most the reward, and the
block generates what it pays out beyond the fees. -/
theorem validateMinerTransaction_spec {tx : MinerTx} {weight fee base : UInt64} {weights : Weights}
    (h : validateMinerTransaction tx weight fee coins version weights = some base)
    (hpaid : total (tx.vout.map MinerOutput.amount) < 2 ^ 64) (hfee : fee.toNat < 2 ^ 63) :
    ∃ reward, getBlockReward (medianWeight weights version) weight coins version = some reward ∧
      total (tx.vout.map MinerOutput.amount) ≤ reward.toNat + fee.toNat ∧
      total (tx.vout.map MinerOutput.amount) = base.toNat + fee.toNat := by
  have hmoney := foldl_add_toNat (tx.vout.map MinerOutput.amount) 0
  rw [validateMinerTransaction] at h
  generalize (tx.vout.map MinerOutput.amount).foldl (· + ·) 0 = money at h hmoney
  have hmoney' : money.toNat = total (tx.vout.map MinerOutput.amount) := by
    rw [hmoney]
    simp only [toNat_zero, Nat.zero_add]
    exact Nat.mod_eq_of_lt hpaid
  split at h
  · cases h
  · split at h
    · cases h
    · rename_i reward hrew
      have hsmall : reward.toNat < 2 ^ 46 := (getBlockReward_le hrew).trans_lt (baseReward_lt coins)
      have hsum : (reward + fee).toNat = reward.toNat + fee.toNat := by
        rw [toNat_add]
        omega
      refine ⟨reward, hrew, ?_⟩
      split at h
      · cases h
      · rename_i hspend
        rw [lt_iff_toNat_lt, hsum] at hspend
        refine ⟨by omega, ?_⟩
        split at h
        · split at h
          · cases h
          · rename_i hexact
            have hequal : reward + fee = money := not_not.mp hexact
            rw [← some.inj h, ← hmoney', ← hequal, hsum]
        · split at h
          · cases h
          · -- A miner transaction that pays out less than the fees would wrap far above the reward.
            rename_i hbase
            rw [gt_iff_lt, lt_iff_toNat_lt, UInt64.toNat_sub] at hbase
            have hlt := money.toNat_lt
            rw [← some.inj h, UInt64.toNat_sub]
            omega

theorem addCoins_toNat {base : UInt64} (h : coins.toNat ≤ moneySupply.toNat)
    (hbase : base.toNat < 2 ^ 63) :
    (addCoins coins base).toNat = min moneySupply.toNat (coins.toNat + base.toNat) := by
  have hle : coins ≤ moneySupply := le_iff_toNat_le.mpr h
  have hsupply : moneySupply.toNat = 10000000000000000000 := by decide
  rw [addCoins]
  split
  · rename_i hlt
    rw [lt_iff_toNat_lt, toNat_sub_of_le _ _ hle] at hlt
    rw [toNat_add]
    omega
  · rename_i hlt
    rw [lt_iff_toNat_lt, toNat_sub_of_le _ _ hle] at hlt
    omega

inductive Accepted (otherChecks : List CoinRow → CoinBlock → Bool) : List CoinRow → Prop
  | nil : Accepted otherChecks []
  | add {rows rows' : List CoinRow} {b : CoinBlock} (front : Accepted otherChecks rows)
      (handled : handleBlockToMainChain otherChecks rows b = some rows') :
      Accepted otherChecks rows'

/-- What a block pays out beyond its fees. -/
def CoinRow.generated (r : CoinRow) : ℤ := (CoinBlock.paid r.block : ℤ) - total r.block.fees

@[simp] theorem generatedCoins_concat (rows : List CoinRow) (r : CoinRow) :
    generatedCoins (rows ++ [r]) = r.alreadyGeneratedCoins := by
  rw [generatedCoins, getLast?_concat]
  rfl

variable {otherChecks : List CoinRow → CoinBlock → Bool} {rows rows' : List CoinRow} {b : CoinBlock}
  {r : CoinRow}

theorem handled_rows (h : handleBlockToMainChain otherChecks rows b = some rows') :
    ∃ r, rows' = rows ++ [r] ∧ r.block = b := by
  rw [handleBlockToMainChain] at h
  split at h
  · cases h
  split at h
  · cases h
  split at h
  · cases h
  · exact ⟨_, (some.inj h).symm, rfl⟩

theorem Accepted.handled_of_prefix {front : List CoinRow}
    (h : Accepted otherChecks rows) (hfront : front ++ [r] <+: rows) : Accepted otherChecks front ∧
      handleBlockToMainChain otherChecks front r.block = some (front ++ [r]) := by
  induction h with
  | nil => simp at hfront
  | @add rows rows' b hacc handled ih =>
    obtain ⟨last, rfl, rfl⟩ := handled_rows handled
    rcases prefix_concat_iff.mp hfront with heq | hshort
    · obtain ⟨rfl, hlast⟩ := append_inj' heq rfl
      obtain rfl := singleton_inj.mp hlast
      exact ⟨hacc, handled⟩
    · exact ih hshort

theorem handleBlockToMainChain_spec (h : handleBlockToMainChain otherChecks rows b = some rows')
    (hfees : total b.fees < 2 ^ 63) (hcoins : (generatedCoins rows).toNat ≤ moneySupply.toNat) :
    ∃ r reward, rows' = rows ++ [r] ∧ r.block = b ∧
      getBlockReward (medianWeight b.weights b.version) b.weight (generatedCoins rows) b.version =
        some reward ∧
      CoinBlock.paid b ≤ reward.toNat + total b.fees ∧ total b.fees ≤ CoinBlock.paid b ∧
      r.alreadyGeneratedCoins.toNat = min moneySupply.toNat
        ((generatedCoins rows).toNat + (CoinBlock.paid b - total b.fees)) := by
  rw [handleBlockToMainChain] at h
  split at h
  · cases h
  split at h
  · cases h
  rename_i hprevalidated
  split at h
  · cases h
  rename_i base hvalid
  have hovf : checkOutsOverflow 0 (b.minerTx.vout.map MinerOutput.amount) = true := by
    rw [Bool.not_eq_false, prevalidateMinerTransaction, decide_eq_true_eq] at hprevalidated
    exact hprevalidated.2.2.2.2.1
  have hpaid := total_lt_of_checkOutsOverflow _ _ hovf
  have hfee : (b.fees.foldl (· + ·) 0).toNat = total b.fees := by
    rw [foldl_add_toNat, toNat_zero, Nat.zero_add]
    exact Nat.mod_eq_of_lt (by omega)
  obtain ⟨reward, hrew, hle, hequal⟩ := validateMinerTransaction_spec hvalid
    (by rw [toNat_zero] at hpaid; omega) (by omega)
  have hsmall : reward.toNat < 2 ^ 46 := (getBlockReward_le hrew).trans_lt (baseReward_lt _)
  rw [hfee] at hle hequal
  refine ⟨_, reward, (some.inj h).symm, rfl, hrew, hle, ?_, ?_⟩
  · unfold CoinBlock.paid
    omega
  · rw [addCoins_toNat hcoins (by omega)]
    unfold CoinBlock.paid
    congr 1
    omega

/-- The accounts of a chain. -/
structure Accounts (rows : List CoinRow) : Prop where
  coins : ((generatedCoins rows).toNat : ℤ) =
    min (moneySupply.toNat : ℤ) (rows.map CoinRow.generated).sum
  increasing : (rows.map fun r => r.alreadyGeneratedCoins.toNat).Pairwise (· ≤ ·)
  bounded : ∀ r ∈ rows, r.alreadyGeneratedCoins.toNat ≤ (generatedCoins rows).toNat

theorem Accounts.le_supply (h : Accounts rows) :
    (generatedCoins rows).toNat ≤ moneySupply.toNat := by
  have hcoins := h.coins
  omega

theorem Accounts.concat (h : Accounts rows) (hfees : total r.block.fees ≤ CoinBlock.paid r.block)
    (hcoins : r.alreadyGeneratedCoins.toNat = min moneySupply.toNat
      ((generatedCoins rows).toNat + (CoinBlock.paid r.block - total r.block.fees))) :
    Accounts (rows ++ [r]) := by
  have hold := h.coins
  have hle := h.le_supply
  refine ⟨?_, ?_, ?_⟩
  · rw [generatedCoins_concat, map_append, sum_append, map_singleton,
      sum_singleton, CoinRow.generated]
    omega
  · rw [map_append, pairwise_append]
    refine ⟨h.increasing, pairwise_singleton _ _, ?_⟩
    intro a ha b hb
    obtain ⟨r', hr', rfl⟩ := mem_map.mp ha
    have hbound := h.bounded r' hr'
    rw [map_singleton, mem_singleton] at hb
    omega
  · intro r' hr'
    rw [generatedCoins_concat]
    rcases mem_append.mp hr' with hr' | hr'
    · have hbound := h.bounded r' hr'
      omega
    · rw [mem_singleton.mp hr']

theorem Accepted.accounts (h : Accepted otherChecks rows)
    (hfees : ∀ r ∈ rows, total r.block.fees < 2 ^ 63) : Accounts rows := by
  induction h with
  | nil => exact ⟨by decide, List.Pairwise.nil, by simp⟩
  | @add rows rows' b front handled ih =>
    obtain ⟨last, rfl, rfl⟩ := handled_rows handled
    have haccounts := ih fun r hr => hfees r (mem_append_left _ hr)
    obtain ⟨r, rew, hrows, hblk, _, _, hle, hcoins⟩ := handleBlockToMainChain_spec handled
      (hfees last (by simp)) haccounts.le_supply
    obtain rfl : last = r := by simpa using hrows
    exact haccounts.concat hle hcoins

/-- The coins stored with a block are what the blocks up to it generated, cut off at the supply.
They never decrease, the subtraction in the reward of the next block does not wrap, and no miner
transaction pays out more than the reward and the fees. -/
theorem emission_accounting (otherChecks : List CoinRow → CoinBlock → Bool) (rows : List CoinRow)
    (haccepted : Accepted otherChecks rows)
    (hfees : ∀ r ∈ rows, total r.block.fees < 2 ^ 63) :
    (rows.map fun r => r.alreadyGeneratedCoins.toNat).Pairwise (· ≤ ·) ∧
      ∀ front r, front ++ [r] <+: rows →
        (r.alreadyGeneratedCoins.toNat : ℤ) =
            min (moneySupply.toNat : ℤ) ((front ++ [r]).map CoinRow.generated).sum ∧
          r.alreadyGeneratedCoins.toNat ≤ moneySupply.toNat ∧
          (moneySupply - generatedCoins front).toNat =
            moneySupply.toNat - (generatedCoins front).toNat ∧
          ∃ reward, getBlockReward (medianWeight r.block.weights r.block.version) r.block.weight
              (generatedCoins front) r.block.version = some reward ∧
            CoinBlock.paid r.block ≤ reward.toNat + total r.block.fees := by
  refine ⟨(haccepted.accounts hfees).increasing, fun front r hfront => ?_⟩
  obtain ⟨hbefore, handled⟩ := haccepted.handled_of_prefix hfront
  have hmem : ∀ r' ∈ front ++ [r], total r'.block.fees < 2 ^ 63 := fun r' hr' =>
    hfees r' (hfront.subset hr')
  have haccounts := hbefore.accounts fun r' hr' => hmem r' (mem_append_left _ hr')
  have hafter := (Accepted.add hbefore handled).accounts hmem
  obtain ⟨r', reward, hrows, hblock, hreward, hpaid, _, _⟩ := handleBlockToMainChain_spec handled
    (hmem r (by simp)) haccounts.le_supply
  have hcoins := hafter.coins
  have hsupply := hafter.le_supply
  rw [generatedCoins_concat] at hcoins hsupply
  refine ⟨hcoins, hsupply, ?_, reward, hreward, hpaid⟩
  exact toNat_sub_of_le _ _ (le_iff_toNat_le.mpr haccounts.le_supply)

/-- A genesis block that pays out the whole reward and a block of version 2 that pays out less. -/
def sampleBlocks : List CoinBlock :=
  [{ minerTx := ⟨1, 60, [.gen 0], [⟨19073486328125, .toKey⟩], true⟩
     fees := []
     weight := 100
     version := 1
     weights := ⟨0, []⟩ },
   { minerTx := ⟨1, 61, [.gen 1], [⟨1000, .toKey⟩, ⟨500, .toKey⟩], true⟩
     fees := [200, 300]
     weight := 100
     version := 2
     weights := ⟨0, [100]⟩ }]

def sampleRows : List CoinRow :=
  [⟨sampleBlocks.head (by decide), 19073486328125⟩,
    ⟨sampleBlocks.getLast (by decide), 19073486329125⟩]

/-- The second block generates a thousand units, of which none is more than its reward. -/
theorem emission_accounting_sample :
    (sampleRows.map fun r => r.alreadyGeneratedCoins.toNat).Pairwise (· ≤ ·) ∧
      ((19073486329125 : ℕ) : ℤ) =
        min (moneySupply.toNat : ℤ) (sampleRows.map CoinRow.generated).sum ∧
      ∃ reward, getBlockReward 300000 100 19073486328125 2 = some reward ∧
        1500 ≤ reward.toNat + 500 := by
  have hgenesis : handleBlockToMainChain (fun _ _ => true) [] (sampleBlocks.head (by decide)) =
      some [⟨sampleBlocks.head (by decide), 19073486328125⟩] := by rfl
  have hsecond : handleBlockToMainChain (fun _ _ => true)
      [⟨sampleBlocks.head (by decide), 19073486328125⟩] (sampleBlocks.getLast (by decide)) =
        some sampleRows := by rfl
  obtain ⟨hincreasing, hrows⟩ := emission_accounting (fun _ _ => true) sampleRows
    (.add (.add .nil hgenesis) hsecond) (by decide)
  obtain ⟨hcoins, -, -, hreward⟩ := hrows [_] _ List.prefix_rfl
  exact ⟨hincreasing, hcoins, hreward⟩

end Monzero.EmissionAccounting
