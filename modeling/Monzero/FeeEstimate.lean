import Monzero.Checked
import Monzero.Decimals
import Monzero.Emission
import Monzero.IntUtil
import Mathlib.Data.UInt

/-!
The fees per byte that the node suggests and the fee it asks for. The four estimates are
quotients of the block reward and the medians, rounded up to two significant digits. They are
in order. The lowest one covers the fee that is asked for unless both quotients round down
to zero: a fee of at least one is asked for, and the estimate stays zero.
-/
namespace Monzero.FeeEstimate

open Checked Decimals Emission IntUtil Words List
open Nat (ofDigits)
open UInt64 (le_iff_toNat_le ofNat toNat_div toNat_inj)

/-- `DYNAMIC_FEE_REFERENCE_TRANSACTION_WEIGHT`. -/
def referenceTransactionWeight : UInt64 := 3000

/-- `CRYPTONOTE_BLOCK_GRANTED_FULL_REWARD_ZONE_V5`. -/
def fullRewardZoneV5 : UInt64 := 300000

/-- `CRYPTONOTE_SCALING_2021_FEE_ROUNDING_PLACES`. -/
def feeRoundingPlaces : ℕ := 2

/-- `DYNAMIC_FEE_PER_KB_BASE_FEE` and, from version 5 on, `DYNAMIC_FEE_PER_KB_BASE_FEE_V5`. -/
def feeBase (version : UInt8) : UInt64 :=
  if version ≥ 5 then 200000000 * 60000 / 300000 else 200000000

/-- `DYNAMIC_FEE_PER_KB_BASE_BLOCK_REWARD`. -/
def baseBlockReward : UInt64 := 1000000000000

/-- `get_fee_quantization_mask`: eleven decimals are displayed, eight are kept. -/
def feeQuantizationMask : UInt64 := 10 ^ (11 - 8)

def getDynamicBaseFee (blockReward medianBlockWeight : UInt64) (version : UInt8) : UInt64 :=
  let minBlockWeight := getMinBlockWeight version
  let median := if medianBlockWeight < minBlockWeight then minBlockWeight else medianBlockWeight
  if version ≥ 8 then
    let (lo, hi) := mul128 blockReward referenceTransactionWeight
    let (hi, lo) := div128By64 hi lo median
    if version ≥ 15 then
      let (_, lo) := div128By64 hi lo median
      let lo := lo - lo / 20
      if lo = 0 then 1 else lo
    else
      let (_, lo) := div128By64 hi lo minBlockWeight
      lo / 5
  else
    let unscaledFeeBase := feeBase version * minBlockWeight / median
    let (lo, hi) := mul128 unscaledFeeBase blockReward
    let (_, lo) := div128By64 hi lo baseBlockReward
    (lo + feeQuantizationMask - 1) / feeQuantizationMask * feeQuantizationMask

/-- The text of a number, and the number of a text, as digits from the highest on. -/
def printDigits (amount : UInt64) : List ℕ := (digitsUpTo 10 20 amount.toNat).reverse

def readDigits (buf : List ℕ) : ℕ := buf.foldl (fun n d => 10 * n + d) 0

/-- The text of `round_money_up`. Digits after the significant ones become zero, and raise those
before by one if one of them was not. -/
def roundDigits (significantDigits : ℕ) (buf : List ℕ) : List ℕ :=
  if buf.length > significantDigits then
    let front := buf.take significantDigits
    let tail := buf.drop significantDigits
    let zeros := tail.map fun _ => 0
    if tail.any (· ≠ 0) then
      let bumped := bump 10 front.reverse
      (if bumped.2 then [1] else []) ++ bumped.1.reverse ++ zeros
    else front ++ zeros
  else buf

/-- `round_money_up`. A text beyond 64 bits cannot be read. -/
def roundMoneyUp (amount : UInt64) (significantDigits : ℕ) : Except String UInt64 := do
  failIf (significantDigits = 0) "significant_digits must not be 0"
  let buf := roundDigits significantDigits (printDigits amount)
  failIf (2 ^ 64 ≤ readDigits buf)
    ("Failed to parse rounded amount: " ++ String.ofList (buf.map Nat.digitChar))
  failIf (readDigits buf = 0 ∧ amount ≠ 0) "Overflow in rounding"
  return ofNat (readDigits buf)

/-- The fees before they are rounded, for the lower median and the short-term median. -/
structure Fees where
  fl : UInt64
  fn : UInt64
  fm : UInt64
  fh : UInt64

def unroundedFees (baseReward mnw mlw : UInt64) : Fees :=
  let mfw := min mnw mlw
  let fm := 16 * baseReward * referenceTransactionWeight / (fullRewardZoneV5 * mfw)
  { fl := baseReward * referenceTransactionWeight / (mfw * mfw)
    fn := 4 * baseReward * referenceTransactionWeight / (mfw * mfw)
    fm := fm
    fh := max (4 * fm)
      (4 * fm * mfw / (32 * referenceTransactionWeight * mnw / fullRewardZoneV5)) }

/-- `get_dynamic_base_fee_estimate_2021_scaling` for a reward and two medians. -/
def getDynamicBaseFeeEstimate2021Scaling (baseReward mnw mlw : UInt64) :
    Except String (List UInt64) :=
  let fees := unroundedFees baseReward mnw mlw
  [fees.fl, fees.fn, fees.fm, fees.fh].mapM fun fee => roundMoneyUp fee feeRoundingPlaces

/-- The medians the node calls it with, from the long-term and the short-term median that a
wallet will see. The first is the short-term one, limited by the second. -/
def walletMedians (longTermMedian shortTermMedian : UInt64) : UInt64 × UInt64 :=
  let mlw := max longTermMedian fullRewardZoneV5
  let msw := max shortTermMedian mlw
  (min msw (50 * mlw), mlw)

theorem readDigits_eq (buf : List ℕ) : readDigits buf = ofDigits 10 buf.reverse := by
  rw [readDigits, Nat.ofDigits_eq_foldr, foldr_reverse]
  congr 1
  funext n d
  simp [Nat.add_comm]

theorem readDigits_append_zeros (front tail : List ℕ) : readDigits (front ++ tail.map fun _ => 0) =
      10 ^ tail.length * ofDigits 10 front.reverse := by
  rw [readDigits_eq, reverse_append, Nat.ofDigits_append, ← map_reverse,
    ofDigits_map_zero, length_map, length_reverse, Nat.zero_add]

theorem readDigits_roundDigits_append {front tail : List ℕ} (htail : tail ≠ []) :
    readDigits (roundDigits front.length (front ++ tail)) =
      10 ^ tail.length * if ofDigits 10 tail.reverse = 0 then ofDigits 10 front.reverse
        else ofDigits 10 front.reverse + 1 := by
  have hlong : (front ++ tail).length > front.length := by
    have hpos := length_pos_iff.mpr htail
    rw [length_append]
    omega
  have hany : tail.any (· ≠ 0) = true ↔ ¬ ofDigits 10 tail.reverse = 0 := by
    rw [ofDigits_eq_zero_iff (by omega)]
    simp
  rw [roundDigits, if_pos hlong, take_left, drop_left]
  by_cases hzero : ofDigits 10 tail.reverse = 0
  · rw [if_neg (mt hany.mp (not_not.mpr hzero)), if_pos hzero, readDigits_append_zeros]
  · rw [if_pos (hany.mpr hzero), if_neg hzero, readDigits_append_zeros, reverse_append,
      reverse_reverse, ← ofDigits_bump]
    split <;> rfl

theorem readDigits_roundDigits (digs : ℕ) (amt : UInt64) :
    readDigits (roundDigits digs (printDigits amt)) = roundUp 10 digs amt.toNat := by
  have hlt : amt.toNat < 10 ^ 20 := amt.toNat_lt.trans (by norm_num)
  have hval := ofDigits_digitsUpTo 20 amt.toNat hlt
  have hlen := length_digitsUpTo (by omega : 1 < 10) 20 amt.toNat hlt (by omega)
  have hdigit := digitsUpTo_lt (by omega : 0 < 10) 20 amt.toNat
  rw [printDigits, roundUp, ← hlen]
  generalize digitsUpTo 10 20 amt.toNat = ds at hval hdigit ⊢
  rw [← hval]
  by_cases hlong : digs < ds.length
  · obtain ⟨tail, front, hsplit, htail⟩ : ∃ tail front, ds = tail ++ front ∧
        tail.length = ds.length - digs :=
      ⟨_, _, (take_append_drop (ds.length - digs) ds).symm, by simp⟩
    have hfront : front.reverse.length = digs := by
      have hsum := congrArg List.length hsplit
      rw [length_append] at hsum
      rw [length_reverse]
      omega
    have hlow : ofDigits 10 tail < 10 ^ tail.length :=
      Nat.ofDigits_lt_base_pow_length (by omega) fun d hd => hdigit d (by simp [hsplit, hd])
    have hne : tail.reverse ≠ [] := by
      rw [← length_pos_iff, length_reverse]
      omega
    rw [← htail, hsplit, Nat.ofDigits_append, ceilTo_add (Nat.pow_pos (by omega)) _ hlow,
      reverse_append, ← hfront, readDigits_roundDigits_append hne, reverse_reverse,
      reverse_reverse, length_reverse]
  · rw [roundDigits, length_reverse, if_neg hlong, readDigits_eq, reverse_reverse,
      Nat.sub_eq_zero_of_le (by omega), pow_zero]
    simp [ceilTo]

theorem roundMoneyUp_of_lt {digs : ℕ} (hdig : 0 < digs)
    {amt : UInt64} (hfits : roundUp 10 digs amt.toNat < 2 ^ 64) :
    ∃ rounded, roundMoneyUp amt digs = .ok rounded ∧ rounded.toNat = roundUp 10 digs amt.toNat := by
  have hle : amt.toNat ≤ roundUp 10 digs amt.toNat := le_roundUp (by omega) _
  have hzero : ¬ (roundUp 10 digs amt.toNat = 0 ∧ amt ≠ 0) := by
    rintro ⟨hrounded, hne⟩
    exact hne (toNat_inj.mp (by simpa [hrounded] using hle))
  refine ⟨ofNat (roundUp 10 digs amt.toNat), ?_, ?_⟩
  · simp only [roundMoneyUp, readDigits_roundDigits]
    rw [failIf_of_not _ (by omega), ok_bind, failIf_of_not _ (by omega), ok_bind,
      failIf_of_not _ hzero, ok_bind]
    rfl
  · rw [UInt64.toNat_ofNat', Nat.mod_eq_of_lt (by omega)]

theorem roundMoneyUp_eq {digs : ℕ} (hdig : 0 < digs) {amt : UInt64} (h : 2 * amt.toNat < 2 ^ 64) :
    ∃ rounded, roundMoneyUp amt digs = .ok rounded ∧ rounded.toNat = roundUp 10 digs amt.toNat :=
  roundMoneyUp_of_lt hdig ((roundUp_le_two_mul (by omega) hdig _).trans_lt h)

/-- At most so many significant decimal digits. -/
def FewDigits (digits x : ℕ) : Prop := ∃ m k, m < 10 ^ digits ∧ x = m * 10 ^ k

/-- An amount is rounded to the least number from it on that has few enough digits, and the call
fails exactly when that number has more than 64 bits. -/
theorem round_money_up_least (amount : UInt64) (significantDigits : ℕ)
    (hdig : 1 ≤ significantDigits) :
    ∃ least, IsLeast {x | amount.toNat ≤ x ∧ FewDigits significantDigits x} least ∧
      (least < 2 ^ 64 → ∃ rounded, roundMoneyUp amount significantDigits = .ok rounded ∧
        rounded.toNat = least) ∧
      (2 ^ 64 ≤ least → ∃ e, roundMoneyUp amount significantDigits = .error e) := by
  have hiff (x : ℕ) : FewDigits significantDigits x ↔ IsRounded 10 significantDigits x :=
    (isRounded_iff (by omega) hdig).symm
  refine ⟨roundUp 10 significantDigits amount.toNat, ⟨⟨?_, ?_⟩, ?_⟩, ?_, fun hlarge => ?_⟩
  · exact le_roundUp (by omega) _
  · exact (hiff _).mpr (isRounded_roundUp (by omega) _)
  · rintro x ⟨hle, hx⟩
    exact roundUp_le (by omega) hdig hle ((hiff x).mp hx)
  · exact roundMoneyUp_of_lt hdig
  · simp only [roundMoneyUp, readDigits_roundDigits]
    rw [failIf_of_not _ (by omega), ok_bind, failIf, if_pos hlarge]
    exact ⟨_, rfl⟩

theorem round_money_up_least_carry :
    ∃ rounded, roundMoneyUp 1995 2 = .ok rounded ∧
      IsLeast {x | 1995 ≤ x ∧ FewDigits 2 x} rounded.toNat := by
  obtain ⟨least, hleast, hok, -⟩ := round_money_up_least 1995 2 (by decide)
  have hle : least ≤ 2000 := hleast.2 ⟨by decide, 20, 2, by decide, rfl⟩
  obtain ⟨rounded, hrounded, rfl⟩ := hok (by omega)
  exact ⟨rounded, hrounded, hleast⟩

/-! ### The fees in numbers -/

theorem toNat_min (a b : UInt64) : (min a b).toNat = min a.toNat b.toNat := by
  rw [UInt64.min_def]
  split <;> (rename_i hle; rw [le_iff_toNat_le] at hle; omega)

theorem toNat_max (a b : UInt64) : (max a b).toNat = max a.toNat b.toNat := by
  rw [UInt64.max_def]
  split <;> (rename_i hle; rw [le_iff_toNat_le] at hle; omega)

/-- A fee less a twentieth, and at least one. -/
def lessTwentieth (fee : UInt64) : UInt64 := if fee - fee / 20 = 0 then 1 else fee - fee / 20

theorem toNat_lessTwentieth (fee : UInt64) :
    (lessTwentieth fee).toNat = max 1 (fee.toNat - fee.toNat / 20) := by
  have htwenty : (fee / 20).toNat = fee.toNat / 20 := toNat_div _ _
  have hle : fee / 20 ≤ fee := by
    rw [le_iff_toNat_le, htwenty]
    omega
  rw [lessTwentieth, ← htwenty, ← UInt64.toNat_sub_of_le _ _ hle]
  split
  · rename_i hzero
    rw [hzero]
    rfl
  · rename_i hne
    rw [← toNat_inj] at hne
    exact (Nat.max_eq_right (Nat.pos_of_ne_zero hne)).symm

/-- Medians as the node computes them, and a reward for which no product wraps. -/
structure Usual (reward mnw mlw : UInt64) : Prop where
  reward_lt : 48000 * reward.toNat < 2 ^ 64
  zone_le : 300000 ≤ mlw.toNat
  mlw_le : mlw.toNat ≤ mnw.toNat
  mnw_le : mnw.toNat ≤ 50 * mlw.toNat
  mlw_lt : mlw.toNat < 2 ^ 32

section Numbers

variable {rew mnw mlw : UInt64} (h : Usual rew mnw mlw)
include h

theorem min_eq_mlw : min mnw mlw = mlw := by
  apply toNat_inj.mp
  rw [toNat_min]
  have := h.mlw_le
  omega

theorem toNat_sq : (mlw * mlw).toNat = mlw.toNat ^ 2 := by
  rw [toNat_mul_of_lt, pow_two]
  calc mlw.toNat * mlw.toNat < 2 ^ 32 * 2 ^ 32 := Nat.mul_lt_mul'' h.mlw_lt h.mlw_lt
    _ = 2 ^ 64 := by norm_num

theorem toNat_fl : (unroundedFees rew mnw mlw).fl.toNat = 3000 * rew.toNat / mlw.toNat ^ 2 := by
  have hlt := h.reward_lt
  have href : referenceTransactionWeight.toNat = 3000 := rfl
  simp only [unroundedFees, min_eq_mlw h]
  rw [toNat_div, toNat_sq h, toNat_mul_of_lt (by rw [href]; omega), href, Nat.mul_comm]

theorem toNat_scaled {k : UInt64} (hk : k.toNat ≤ 16) :
    (k * rew * referenceTransactionWeight).toNat = 3000 * k.toNat * rew.toNat := by
  have hlt := h.reward_lt
  have href : referenceTransactionWeight.toNat = 3000 := rfl
  have hle := Nat.mul_le_mul_right rew.toNat hk
  have hfst : (k * rew).toNat = k.toNat * rew.toNat := toNat_mul_of_lt (by omega)
  rw [toNat_mul_of_lt (by rw [hfst, href]; omega), hfst, href]
  ring

theorem toNat_fn : (unroundedFees rew mnw mlw).fn.toNat = 12000 * rew.toNat / mlw.toNat ^ 2 := by
  simp only [unroundedFees, min_eq_mlw h]
  rw [toNat_div, toNat_sq h, toNat_scaled h (by decide)]
  rfl

theorem toNat_fm :
    (unroundedFees rew mnw mlw).fm.toNat = 48000 * rew.toNat / (300000 * mlw.toNat) := by
  have hlt := h.mlw_lt
  have hzone : fullRewardZoneV5.toNat = 300000 := rfl
  simp only [unroundedFees, min_eq_mlw h]
  rw [toNat_div, toNat_scaled h (by decide), toNat_mul_of_lt (by rw [hzone]; omega), hzone]
  rfl

theorem fm_mul_lt : 300000 * ((unroundedFees rew mnw mlw).fm.toNat * mlw.toNat) < 2 ^ 64 := by
  have hlt := h.reward_lt
  have hle := Nat.div_mul_le_self (48000 * rew.toNat) (300000 * mlw.toNat)
  rw [← toNat_fm h] at hle
  calc 300000 * ((unroundedFees rew mnw mlw).fm.toNat * mlw.toNat)
      = (unroundedFees rew mnw mlw).fm.toNat * (300000 * mlw.toNat) := by ring
    _ ≤ 48000 * rew.toNat := hle
    _ < 2 ^ 64 := hlt

theorem fm_lt : (unroundedFees rew mnw mlw).fm.toNat < 2 ^ 32 := by
  have hlt := fm_mul_lt h
  have hle := Nat.mul_le_mul_left (unroundedFees rew mnw mlw).fm.toNat h.zone_le
  omega

theorem fm_le_fh : (unroundedFees rew mnw mlw).fm ≤ (unroundedFees rew mnw mlw).fh ∧
    2 * (unroundedFees rew mnw mlw).fh.toNat < 2 ^ 64 := by
  have hmul := fm_mul_lt h
  have hlt := fm_lt h
  have hfh : (unroundedFees rew mnw mlw).fh = max (4 * (unroundedFees rew mnw mlw).fm)
      (4 * (unroundedFees rew mnw mlw).fm * mlw /
        (32 * referenceTransactionWeight * mnw / fullRewardZoneV5)) := by
    simp [unroundedFees, min_eq_mlw h]
  have hfour : (4 * (unroundedFees rew mnw mlw).fm).toNat =
      4 * (unroundedFees rew mnw mlw).fm.toNat :=
    toNat_mul_of_lt (by
      change 4 * (unroundedFees rew mnw mlw).fm.toNat < 2 ^ 64
      omega)
  have hproduct : (4 * (unroundedFees rew mnw mlw).fm * mlw).toNat =
      4 * ((unroundedFees rew mnw mlw).fm.toNat * mlw.toNat) := by
    rw [toNat_mul_of_lt (by rw [hfour, Nat.mul_assoc]; omega), hfour, Nat.mul_assoc]
  have hquotient := Nat.div_le_self (4 * (unroundedFees rew mnw mlw).fm * mlw).toNat
    (32 * referenceTransactionWeight * mnw / fullRewardZoneV5).toNat
  rw [le_iff_toNat_le, hfh, toNat_max, hfour, toNat_div]
  omega

theorem fl_le_fn : (unroundedFees rew mnw mlw).fl ≤ (unroundedFees rew mnw mlw).fn := by
  rw [le_iff_toNat_le, toNat_fl h, toNat_fn h]
  exact Nat.div_le_div_right (by omega)

theorem fn_le_fm : (unroundedFees rew mnw mlw).fn ≤ (unroundedFees rew mnw mlw).fm := by
  have hzone := h.zone_le
  rw [le_iff_toNat_le, toNat_fn h, toNat_fm h, Nat.le_div_iff_mul_le (by omega)]
  calc 12000 * rew.toNat / mlw.toNat ^ 2 * (300000 * mlw.toNat)
      ≤ 12000 * rew.toNat / mlw.toNat ^ 2 * (mlw.toNat * mlw.toNat) :=
        Nat.mul_le_mul_left _ (Nat.mul_le_mul_right _ hzone)
    _ = 12000 * rew.toNat / mlw.toNat ^ 2 * mlw.toNat ^ 2 := by rw [← pow_two]
    _ ≤ 12000 * rew.toNat := Nat.div_mul_le_self _ _
    _ ≤ 48000 * rew.toNat := by omega

/-- The fee that is asked for starts from the quotient of the lowest estimate. -/
theorem getDynamicBaseFee_eq {ver : UInt8} (hver : 15 ≤ ver) :
    getDynamicBaseFee rew (min mnw mlw) ver = lessTwentieth (unroundedFees rew mnw mlw).fl := by
  have hzone := h.zone_le
  have hminimum : getMinBlockWeight ver = 300000 := by
    rw [getMinBlockWeight, if_neg (UInt8.not_lt.mpr (UInt8.le_trans (by decide) hver)),
      if_neg (UInt8.not_lt.mpr (UInt8.le_trans (by decide) hver))]
  have hmed : ¬ mlw < 300000 := by
    rw [UInt64.not_lt, le_iff_toNat_le]
    exact hzone
  have hquotient : ofNat (rew.toNat * referenceTransactionWeight.toNat / mlw.toNat /
      mlw.toNat) = (unroundedFees rew mnw mlw).fl := by
    apply toNat_inj.mp
    have hlt := (unroundedFees rew mnw mlw).fl.toNat_lt
    rw [toNat_fl h, pow_two, ← Nat.div_div_eq_div_mul, Nat.mul_comm 3000] at hlt ⊢
    rw [UInt64.toNat_ofNat']
    exact Nat.mod_eq_of_lt hlt
  simp [getDynamicBaseFee, lessTwentieth, min_eq_mlw h, hminimum, if_neg hmed, hver,
    low_mul_div_div, hquotient, UInt8.le_trans (by decide : (8 : UInt8) ≤ 15) hver]

end Numbers

/-- The estimates are in order. The lowest is at least the fee that is asked for if the reward for
a transaction of the reference weight is at least the square of the median. -/
theorem fee_estimate_ordered (reward mnw mlw : UInt64) (h : Usual reward mnw mlw) :
    ∃ f0 f1 f2 f3, getDynamicBaseFeeEstimate2021Scaling reward mnw mlw = .ok [f0, f1, f2, f3] ∧
      f0 ≤ f1 ∧ f1 ≤ f2 ∧ f2 ≤ f3 ∧
      ∀ version, 15 ≤ version →
        (getDynamicBaseFee reward (min mnw mlw) version ≤ f0 ↔
          mlw.toNat ^ 2 ≤ 3000 * reward.toNat) := by
  have horder := fl_le_fn h
  have horder' := fn_le_fm h
  obtain ⟨horder'', hbound⟩ := fm_le_fh h
  rw [le_iff_toNat_le] at horder horder' horder''
  obtain ⟨f0, hf0, hf0'⟩ := roundMoneyUp_eq (by decide : 0 < feeRoundingPlaces)
    (by omega : 2 * (unroundedFees reward mnw mlw).fl.toNat < 2 ^ 64)
  obtain ⟨f1, hf1, hf1'⟩ := roundMoneyUp_eq (by decide : 0 < feeRoundingPlaces)
    (by omega : 2 * (unroundedFees reward mnw mlw).fn.toNat < 2 ^ 64)
  obtain ⟨f2, hf2, hf2'⟩ := roundMoneyUp_eq (by decide : 0 < feeRoundingPlaces)
    (by omega : 2 * (unroundedFees reward mnw mlw).fm.toNat < 2 ^ 64)
  obtain ⟨f3, hf3, hf3'⟩ := roundMoneyUp_eq (by decide : 0 < feeRoundingPlaces) hbound
  have hmono {m n : ℕ} (hle : m ≤ n) := roundUp_mono (by omega : 1 < 10)
    (by decide : 0 < feeRoundingPlaces) hle
  refine ⟨f0, f1, f2, f3, ?_, ?_, ?_, ?_, ?_⟩
  · simp only [getDynamicBaseFeeEstimate2021Scaling, mapM_cons, mapM_nil, hf0, hf1, hf2,
      hf3, ok_bind]
    rfl
  · rw [le_iff_toNat_le, hf0', hf1']
    exact hmono horder
  · rw [le_iff_toNat_le, hf1', hf2']
    exact hmono horder'
  · rw [le_iff_toNat_le, hf2', hf3']
    exact hmono horder''
  · intro version hversion
    have hzone := h.zone_le
    have hpos : 0 < (unroundedFees reward mnw mlw).fl.toNat ↔
        mlw.toNat ^ 2 ≤ 3000 * reward.toNat := by
      rw [toNat_fl h, Nat.div_pos_iff]
      exact and_iff_right (Nat.pow_pos (by omega))
    have hle : (unroundedFees reward mnw mlw).fl.toNat ≤
      roundUp 10 feeRoundingPlaces (unroundedFees reward mnw mlw).fl.toNat :=
        le_roundUp (by omega) _
    have htwice := roundUp_le_two_mul (by omega : 1 < 10) (by decide : 0 < feeRoundingPlaces)
      (unroundedFees reward mnw mlw).fl.toNat
    rw [le_iff_toNat_le, getDynamicBaseFee_eq h hversion, toNat_lessTwentieth, hf0', ← hpos]
    omega

theorem usual_walletMedians {rew ltm stm : UInt64}
    (hrew : 48000 * rew.toNat < 2 ^ 64) (hlong : ltm.toNat < 2 ^ 32) :
    Usual rew (walletMedians ltm stm).1 (walletMedians ltm stm).2 := by
  have hzone : fullRewardZoneV5.toNat = 300000 := rfl
  have hmlw : (max ltm fullRewardZoneV5).toNat = max ltm.toNat 300000 := by
    rw [toNat_max, hzone]
  have hfifty : (50 * max ltm fullRewardZoneV5).toNat = 50 * max ltm.toNat 300000 := by
    rw [← hmlw]
    exact toNat_mul_of_lt (by
      change 50 * (max ltm fullRewardZoneV5).toNat < 2 ^ 64
      omega)
  have hmnw : (walletMedians ltm stm).1.toNat = min (max stm.toNat (max ltm.toNat 300000))
        (50 * max ltm.toNat 300000) := by
    rw [walletMedians, toNat_min, toNat_max, hmlw, hfifty]
  have hmlw' : (walletMedians ltm stm).2.toNat = max ltm.toNat 300000 := hmlw
  constructor <;> omega

/-- At the tail reward, with long-term and short-term medians at the zone of the full reward. -/
theorem fee_estimate_at_zone : ∃ f0 f1 f2 f3,
    getDynamicBaseFeeEstimate2021Scaling 326000000000 300000 300000 = .ok [f0, f1, f2, f3] ∧
      f0 ≤ f1 ∧ f1 ≤ f2 ∧ f2 ≤ f3 ∧ getDynamicBaseFee 326000000000 300000 16 ≤ f0 := by
  have husual : Usual 326000000000 (walletMedians 1000 2000).1 (walletMedians 1000 2000).2 :=
    usual_walletMedians (by decide) (by decide)
  obtain ⟨f0, f1, f2, f3, hfees, h01, h12, h23, hbase⟩ := fee_estimate_ordered _ _ _ husual
  exact ⟨f0, f1, f2, f3, hfees, h01, h12, h23, (hbase 16 (by decide)).mpr (by decide)⟩

/-- At the tail reward, with both medians at 32000000. -/
theorem fee_estimate_below_minimum :
    Usual 326000000000 32000000 32000000 ∧
      ∃ f1 f2 f3,
        getDynamicBaseFeeEstimate2021Scaling 326000000000 32000000 32000000 =
          .ok [0, f1, f2, f3] ∧
        getDynamicBaseFee 326000000000 (min 32000000 32000000) 16 = 1 := by
  refine ⟨⟨by decide, by decide, by decide, by decide, by decide⟩, 3, 1700, 21000, ?_, ?_⟩
  · decide +kernel
  · decide +kernel

end Monzero.FeeEstimate
