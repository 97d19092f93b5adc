import Monzero.EmissionAccounting
import Monzero.IntUtil

/-!
The penalty for large blocks. A block above the median loses the square of its excess in
relation to the median. The node computes the reward from words: a product of 128 bits is
divided by the median twice, and both quotients are rounded down. The result is the exact
quotient rounded down once, it is below the base reward and falls with the weight.
-/
namespace Monzero.RewardPenalty

open Emission IntUtil Words
open Option (some)
open UInt64 (le_iff_toNat_le lt_iff_toNat_lt)

/-- The median that counts for the penalty. -/
def penaltyMedian (medianWeight : UInt64) (version : UInt8) : UInt64 :=
  if medianWeight < getMinBlockWeight version then getMinBlockWeight version else medianWeight

/-- The end of `get_block_reward`: the product and its two divisions in words. -/
def penalizedReward (base median weight : UInt64) : UInt64 :=
  let multiplicand := (2 * median - weight) * weight
  let (productLo, productHi) := mul128 base multiplicand
  let (rewardHi, rewardLo) := div128By64 productHi productLo median
  let (_, rewardLo) := div128By64 rewardHi rewardLo median
  rewardLo

def getBlockRewardInWords (medianWeight currentBlockWeight alreadyGeneratedCoins : UInt64)
    (version : UInt8) : Option UInt64 :=
  let base := baseReward alreadyGeneratedCoins
  let median := penaltyMedian medianWeight version
  if currentBlockWeight ≤ median then some base
  else if currentBlockWeight > 2 * median then none
  else some (penalizedReward base median currentBlockWeight)

theorem toNat_penaltyMedian (med : UInt64) (ver : UInt8) : (penaltyMedian med ver).toNat =
      max med.toNat (getMinBlockWeight ver).toNat := by
  rw [penaltyMedian]
  split
  · rename_i hlt
    rw [lt_iff_toNat_lt] at hlt
    omega
  · rename_i hlt
    rw [lt_iff_toNat_lt] at hlt
    omega

theorem penalizedReward_eq (base median wt : UInt64) :
    penalizedReward base median wt = UInt64.ofNat (base.toNat *
      ((2 * median - wt) * wt).toNat / median.toNat / median.toNat) := by
  exact low_mul_div_div base ((2 * median - wt) * wt) median median

theorem getBlockRewardInWords_eq (med cbw agc : UInt64) (ver : UInt8) :
    getBlockRewardInWords med cbw agc ver = getBlockReward med cbw agc ver := by
  simp only [getBlockRewardInWords, penalizedReward_eq, penaltyMedian, getBlockReward]

def penaltyFactor (median weight : ℕ) : ℕ := weight * (2 * median - weight)

variable {median weight weight' base reward : ℕ}

theorem penaltyFactor_add {excess : ℕ} (h : excess ≤ median) :
    penaltyFactor median (median + excess) = median ^ 2 - excess ^ 2 := by
  rw [penaltyFactor, Nat.sq_sub_sq, show 2 * median - (median + excess) = median - excess by omega]

theorem penaltyFactor_antitone (hlarge : median ≤ weight)
    (hle : weight ≤ weight') (hlim : weight' ≤ 2 * median) :
    penaltyFactor median weight' ≤ penaltyFactor median weight := by
  obtain ⟨excess, rfl⟩ := Nat.exists_eq_add_of_le hlarge
  obtain ⟨more, rfl⟩ := Nat.exists_eq_add_of_le hle
  rw [Nat.add_assoc, penaltyFactor_add (by omega), penaltyFactor_add (by omega)]
  exact Nat.sub_le_sub_left (Nat.pow_le_pow_left (Nat.le_add_right _ _) 2) _

theorem penaltyFactor_lt (hlarge : median < weight)
    (hlim : weight ≤ 2 * median) : penaltyFactor median weight < median ^ 2 := by
  obtain ⟨excess, rfl⟩ := Nat.exists_eq_add_of_le hlarge.le
  rw [penaltyFactor_add (by omega)]
  exact Nat.sub_lt (Nat.pow_pos (by omega)) (Nat.pow_pos (by omega))

/-- The reward as one exact quotient, rounded down. -/
def exactReward (base median weight : ℕ) : Option ℕ :=
  if weight ≤ median then some base
  else if weight > 2 * median then none
  else some (base * penaltyFactor median weight / median ^ 2)

theorem exactReward_eq_none_iff (base : ℕ) :
    exactReward base median weight = none ↔ 2 * median < weight := by
  rw [exactReward]
  split
  · simp only [reduceCtorEq, false_iff]
    omega
  · split
    · simpa
    · simp only [reduceCtorEq, false_iff]
      assumption

theorem quotient_lt (hbase : 0 < base) (hlarge : median < weight)
    (hlim : weight ≤ 2 * median) : base * penaltyFactor median weight / median ^ 2 < base := by
  have hpos : 0 < median ^ 2 := Nat.pow_pos (by omega)
  exact (Nat.div_lt_iff_lt_mul hpos).mpr
    (Nat.mul_lt_mul_of_pos_left (penaltyFactor_lt hlarge hlim) hbase)

theorem exactReward_le_base (hbase : 0 < base)
    (h : exactReward base median weight = some reward) : reward ≤ base := by
  rw [exactReward] at h
  split at h
  · exact (some.inj h).ge
  · split at h
    · cases h
    · rw [← some.inj h]
      exact (quotient_lt hbase (by omega) (by omega)).le

theorem exactReward_antitone {rew' : ℕ} (hbase : 0 < base)
    (hle : weight ≤ weight') (h : exactReward base median weight = some reward)
    (h' : exactReward base median weight' = some rew') : rew' ≤ reward := by
  by_cases hsmall : weight ≤ median
  · rw [exactReward, if_pos hsmall] at h
    rw [← some.inj h]
    exact exactReward_le_base hbase h'
  · rw [exactReward, if_neg hsmall] at h
    rw [exactReward, if_neg (by omega)] at h'
    split at h
    · cases h
    · split at h'
      · cases h'
      · rw [← some.inj h, ← some.inj h']
        apply Nat.div_le_div_right
        apply Nat.mul_le_mul_left
        exact penaltyFactor_antitone (by omega) hle (by omega)

theorem toNat_baseReward {agc : UInt64} (h : agc ≤ moneySupply) : (baseReward agc).toNat =
      max ((moneySupply.toNat - agc.toNat) / 2 ^ 19) 326000000000 := by
  have hfactor : emissionSpeedFactorPerMinute - (targetMinutes - 1) = 19 := by decide
  have hfinal : finalSubsidyPerMinute * targetMinutes = 326000000000 := by decide
  have hshift : ((moneySupply - agc) >>> 19).toNat = (moneySupply.toNat - agc.toNat) / 2 ^ 19 := by
    rw [UInt64.toNat_shiftRight, UInt64.toNat_sub_of_le _ _ h]
    exact Nat.shiftRight_eq_div_pow _ 19
  simp only [baseReward, hfactor, hfinal]
  split
  · rename_i hlow
    rw [lt_iff_toNat_lt, hshift] at hlow
    have hval : (326000000000 : UInt64).toNat = 326000000000 := rfl
    omega
  · rename_i hlow
    rw [lt_iff_toNat_lt, hshift] at hlow
    have hval : (326000000000 : UInt64).toNat = 326000000000 := rfl
    rw [hshift]
    omega

theorem baseReward_pos (agc : UInt64) : 0 < (baseReward agc).toNat := by
  simp only [baseReward]
  split
  · decide
  · rename_i hlow
    rw [lt_iff_toNat_lt] at hlow
    exact Nat.pos_of_ne_zero fun hzero => hlow (by rw [hzero]; decide)

theorem toNat_double {median : UInt64} (hmed : median.toNat < 2 ^ 32) :
    (2 * median).toNat = 2 * median.toNat :=
  toNat_mul_of_lt (by
    change 2 * median.toNat < 2 ^ 64
    omega)

theorem toNat_multiplicand {median wt : UInt64} (hmed : median.toNat < 2 ^ 32)
    (hlarge : median.toNat < wt.toNat) (hlim : wt.toNat ≤ 2 * median.toNat) :
    ((2 * median - wt) * wt).toNat = penaltyFactor median.toNat wt.toNat := by
  have hsub : (2 * median - wt).toNat = 2 * median.toNat - wt.toNat := by
    rw [UInt64.toNat_sub_of_le, toNat_double hmed]
    rw [le_iff_toNat_le, toNat_double hmed]
    exact hlim
  have hlt := (penaltyFactor_lt hlarge hlim).trans (Nat.pow_lt_pow_left hmed (by omega))
  rw [penaltyFactor, Nat.mul_comm, ← hsub] at hlt
  rw [toNat_mul_of_lt hlt, hsub, Nat.mul_comm, penaltyFactor]

theorem getBlockRewardInWords_toNat {med : UInt64} (cbw agc : UInt64)
    {ver : UInt8} (hmed : (penaltyMedian med ver).toNat < 2 ^ 32) :
    (getBlockRewardInWords med cbw agc ver).map UInt64.toNat = exactReward (baseReward agc).toNat
        (penaltyMedian med ver).toNat cbw.toNat := by
  simp only [getBlockRewardInWords, exactReward]
  generalize penaltyMedian med ver = median at hmed
  generalize cbw = weight
  by_cases hsmall : weight ≤ median
  · rw [if_pos hsmall, if_pos (le_iff_toNat_le.mp hsmall)]
    rfl
  rw [if_neg hsmall, if_neg (mt le_iff_toNat_le.mpr hsmall)]
  rw [le_iff_toNat_le] at hsmall
  by_cases hlim : weight > 2 * median
  · have hover : 2 * median.toNat < weight.toNat := by
      rw [← toNat_double hmed]
      exact lt_iff_toNat_lt.mp hlim
    rw [if_pos hlim, if_pos hover]
    rfl
  · have hfits : ¬ 2 * median.toNat < weight.toNat := by
      rw [← toNat_double hmed]
      exact mt lt_iff_toNat_lt.mpr hlim
    rw [if_neg hlim, if_neg hfits, Option.map_some, penalizedReward_eq,
      toNat_multiplicand hmed (by omega) (by omega), Nat.div_div_eq_div_mul, ← pow_two,
      UInt64.toNat_ofNat', Nat.mod_eq_of_lt]
    have hbelow := quotient_lt (baseReward_pos agc) (by omega : median.toNat <
      weight.toNat) (by omega)
    exact hbelow.trans (baseReward agc).toNat_lt

section Penalty

variable {med agc wt wt' rew rew' : UInt64}
  {ver : UInt8}

theorem exactReward_of_getBlockReward (hmed : (penaltyMedian med ver).toNat < 2 ^ 32)
    (h : getBlockReward med wt agc ver = some rew) : exactReward (baseReward agc).toNat
      (penaltyMedian med ver).toNat wt.toNat = some rew.toNat := by
  rw [← getBlockRewardInWords_toNat wt agc hmed, getBlockRewardInWords_eq, h, Option.map_some]

theorem getBlockReward_antitone (hmed : (penaltyMedian med ver).toNat < 2 ^ 32)
    (hle : wt ≤ wt') (h : getBlockReward med wt agc ver = some rew)
    (h' : getBlockReward med wt' agc ver = some rew') : rew' ≤ rew :=
  le_iff_toNat_le.mpr (exactReward_antitone (baseReward_pos _)
    (le_iff_toNat_le.mp hle) (exactReward_of_getBlockReward hmed h)
    (exactReward_of_getBlockReward hmed h'))

theorem getBlockReward_le_base (hmed : (penaltyMedian med ver).toNat < 2 ^ 32)
    (h : getBlockReward med wt agc ver = some rew) : rew.toNat ≤ (baseReward agc).toNat :=
  exactReward_le_base (baseReward_pos _) (exactReward_of_getBlockReward hmed h)

theorem weight_le_of_getBlockReward (hmed : (penaltyMedian med ver).toNat < 2 ^ 32)
    (h : getBlockReward med wt agc ver = some rew) :
    wt.toNat ≤ 2 * (penaltyMedian med ver).toNat := by
  have hexact := exactReward_of_getBlockReward hmed h
  by_contra hover
  rw [(exactReward_eq_none_iff _).mpr (Nat.lt_of_not_le hover)] at hexact
  cases hexact

end Penalty

/-- The reward of a block for every weight, where `median` is the median that counts. -/
theorem block_reward_penalty (medianWeight alreadyGeneratedCoins : UInt64) (version : UInt8)
    (median : ℕ) (hcoins : alreadyGeneratedCoins ≤ moneySupply)
    (hmedian : median = max medianWeight.toNat (getMinBlockWeight version).toNat)
    (hsmall : median < 2 ^ 32) (weight : UInt64) :
    (baseReward alreadyGeneratedCoins).toNat =
        max ((10000000000000000000 - alreadyGeneratedCoins.toNat) / 2 ^ 19) 326000000000 ∧
    (getBlockRewardInWords medianWeight weight alreadyGeneratedCoins version = none ↔
      2 * median < weight.toNat) ∧
    (weight.toNat ≤ median →
      getBlockRewardInWords medianWeight weight alreadyGeneratedCoins version =
        some (baseReward alreadyGeneratedCoins)) ∧
    (median < weight.toNat → weight.toNat ≤ 2 * median → ∃ reward,
      getBlockRewardInWords medianWeight weight alreadyGeneratedCoins version = some reward ∧
        reward.toNat = (baseReward alreadyGeneratedCoins).toNat * weight.toNat *
          (2 * median - weight.toNat) / median ^ 2 ∧
        reward < baseReward alreadyGeneratedCoins) ∧
    ∀ weight' reward reward' : UInt64, weight ≤ weight' →
      getBlockRewardInWords medianWeight weight alreadyGeneratedCoins version = some reward →
      getBlockRewardInWords medianWeight weight' alreadyGeneratedCoins version = some reward' →
        reward' ≤ reward := by
  rw [← toNat_penaltyMedian] at hmedian
  subst hmedian
  have hexact (w : UInt64) := getBlockRewardInWords_toNat w alreadyGeneratedCoins hsmall
  have hsupply : moneySupply.toNat = 10000000000000000000 := by decide
  refine ⟨by rw [← hsupply, toNat_baseReward hcoins], ?_, ?_, ?_, ?_⟩
  · rw [← exactReward_eq_none_iff (baseReward alreadyGeneratedCoins).toNat, ← hexact,
      Option.map_eq_none_iff]
  · intro hle
    rw [getBlockRewardInWords, if_pos (le_iff_toNat_le.mpr hle)]
  · intro hlarge hlimit
    have hvalue := hexact weight
    rw [exactReward, if_neg (by omega), if_neg (by omega), Option.map_eq_some_iff] at hvalue
    obtain ⟨reward, hreward, hvalue⟩ := hvalue
    refine ⟨reward, hreward, by rw [hvalue, penaltyFactor, Nat.mul_assoc], ?_⟩
    rw [lt_iff_toNat_lt, hvalue]
    exact quotient_lt (baseReward_pos _) hlarge hlimit
  · intro weight' reward reward' hle hreward hreward'
    rw [getBlockRewardInWords_eq] at hreward hreward'
    exact getBlockReward_antitone hsmall hle hreward hreward'

/-- A block half as heavy again as the median of 300000 keeps three quarters of the reward. -/
theorem block_reward_penalty_half :
    ∃ reward, getBlockRewardInWords 300000 450000 moneySupply 16 = some reward ∧
      reward = 244500000000 ∧ reward < baseReward moneySupply := by
  obtain ⟨-, -, -, hpenalty, -⟩ := block_reward_penalty 300000 moneySupply 16 300000 (by decide)
    (by decide) (by norm_num) 450000
  obtain ⟨reward, hreward, -, hlt⟩ := hpenalty (by decide) (by decide)
  refine ⟨reward, hreward, ?_, hlt⟩
  have hvalue : getBlockRewardInWords 300000 450000 moneySupply 16 = some 244500000000 := by
    decide +kernel
  exact some.inj (hreward.symm.trans hvalue)

end Monzero.RewardPenalty
