import Monzero.MergeMining
import Mathlib.Data.UInt

/-!
The depth field of a merge mining tag. It holds the number of chains and a nonce, and the
width of the first in its three lowest bits. Three bits tell widths up to eight apart, while
the encoder goes up to sixteen. So a number of chains comes back exactly when it is at most
256, and the encoder accepts the larger ones too.
-/
namespace Monzero.MergeMiningDepth

open MergeMining
open Nat (mod_eq_of_lt)
open UInt32 (le_iff_toNat_le toNat_add toNat_inj toNat_one)

variable {chains nBits nonce depth : UInt32}

theorem toNat_one_shiftLeft (h : nBits.toNat < 32) :
    ((1 : UInt32) <<< nBits).toNat = 2 ^ nBits.toNat := by
  rw [UInt32.toNat_shiftLeft, mod_eq_of_lt h, toNat_one, Nat.one_shiftLeft,
    mod_eq_of_lt (Nat.pow_lt_pow_right (by decide) h)]

/-- The loop ends at a width that fits in the field and holds the number of chains. -/
theorem countBits_spec (hchains : chains.toNat ≤ 256) (rounds : ℕ) (hle : nBits.toNat ≤ 8)
    (hrounds : 8 ≤ nBits.toNat + rounds) : nBits.toNat ≤ (countBits chains rounds nBits).toNat ∧
      (countBits chains rounds nBits).toNat ≤ 8 ∧
      chains.toNat ≤ 2 ^ (countBits chains rounds nBits).toNat := by
  induction rounds generalizing nBits with
  | zero =>
    have height : nBits.toNat = 8 := by omega
    simpa [countBits, height] using hchains
  | succ rounds ih =>
    have hpow := @toNat_one_shiftLeft nBits (by omega)
    rw [countBits]
    split_ifs with hmore
    · have hlt : 2 ^ nBits.toNat < 2 ^ 8 := by
        have := UInt32.lt_iff_toNat_lt.mp hmore.1
        omega
      have hnext : (nBits + 1).toNat = nBits.toNat + 1 := by
        rw [toNat_add, toNat_one]
        omega
      have hsmall := (Nat.pow_lt_pow_iff_right (by decide)).mp hlt
      obtain ⟨hlow, hrest⟩ := @ih (nBits + 1) (by omega) (by omega)
      exact ⟨by omega, hrest⟩
    · refine ⟨le_rfl, hle, ?_⟩
      rw [UInt32.lt_iff_toNat_lt, UInt32.lt_iff_toNat_lt, hpow, not_and_or] at hmore
      have hsixteen : (16 : UInt32).toNat = 16 := rfl
      omega

/-- What `encode_mm_depth` packs, as a sum of its three fields. -/
theorem toNat_packed (hpos : 1 ≤ nBits.toNat) (hle : nBits.toNat ≤ 8)
    (hchains : 1 ≤ chains.toNat ∧ chains.toNat ≤ 2 ^ nBits.toNat) (hnonce : nonce.toNat ≤ 65535) :
    ((nBits - 1) ||| ((chains - 1) <<< (3 : UInt32)) ||| (nonce <<< ((3 : UInt32) + nBits))).toNat =
      2 ^ (3 + nBits.toNat) * nonce.toNat + (2 ^ 3 * (chains.toNat - 1) + (nBits.toNat - 1)) := by
  have hbits : (nBits - 1).toNat = nBits.toNat - 1 :=
    UInt32.toNat_sub_of_le _ _ (le_iff_toNat_le.mpr hpos)
  have hcount : (chains - 1).toNat = chains.toNat - 1 :=
    UInt32.toNat_sub_of_le _ _ (le_iff_toNat_le.mpr hchains.1)
  have hshift : ((3 : UInt32) + nBits).toNat = 3 + nBits.toNat := by
    rw [toNat_add]
    exact mod_eq_of_lt (by change 3 + nBits.toNat < _; omega)
  have hwidth : 2 ^ nBits.toNat ≤ 2 ^ 8 := Nat.pow_le_pow_right (by decide) hle
  have hlow : 2 ^ 3 * (chains.toNat - 1) + (nBits.toNat - 1) < 2 ^ (3 + nBits.toNat) := by
    rw [Nat.pow_add]
    omega
  have hhigh : 2 ^ (3 + nBits.toNat) * nonce.toNat < 2 ^ 32 := by
    calc 2 ^ (3 + nBits.toNat) * nonce.toNat
        ≤ 2 ^ (3 + 8) * 65535 := Nat.mul_le_mul (Nat.pow_le_pow_right (by decide) (by omega)) hnonce
      _ < 2 ^ 32 := by decide
  rw [UInt32.toNat_or, UInt32.toNat_or, UInt32.toNat_shiftLeft, UInt32.toNat_shiftLeft, hbits,
    hcount, hshift, mod_eq_of_lt (a := 3 + nBits.toNat) (by omega), Nat.shiftLeft_eq,
    Nat.shiftLeft_eq, Nat.mul_comm nonce.toNat, mod_eq_of_lt hhigh]
  change (nBits.toNat - 1) ||| (chains.toNat - 1) * 2 ^ 3 % 2 ^ 32 ||| _ = _
  rw [Nat.mul_comm, mod_eq_of_lt (by omega), Nat.or_comm (nBits.toNat - 1),
    ← Nat.two_pow_add_eq_or_of_lt (by omega), Nat.or_comm, ← Nat.two_pow_add_eq_or_of_lt hlow]

theorem toNat_decodeMmDepth (depth : UInt32) :
    (decodeMmDepth depth).1.toNat = 1 + depth.toNat / 2 ^ 3 % 2 ^ (1 + depth.toNat % 8) ∧
      (decodeMmDepth depth).2.toNat = depth.toNat / 2 ^ (3 + (1 + depth.toNat % 8)) := by
  have hfield : (depth &&& 7).toNat = depth.toNat % 8 := by
    rw [UInt32.toNat_and]
    exact Nat.and_two_pow_sub_one_eq_mod depth.toNat 3
  have hbits : (1 + (depth &&& 7)).toNat = 1 + depth.toNat % 8 := by
    rw [toNat_add, hfield, toNat_one]
    omega
  have hpow := @toNat_one_shiftLeft (1 + (depth &&& 7)) (by omega)
  have hmask : (((1 : UInt32) <<< (1 + (depth &&& 7))) - 1).toNat =
      2 ^ (1 + depth.toNat % 8) - 1 := by
    rw [UInt32.toNat_sub_of_le, hpow, hbits, toNat_one]
    rw [le_iff_toNat_le, hpow]
    exact Nat.one_le_two_pow
  have hwidth : 2 ^ (1 + depth.toNat % 8) ≤ 2 ^ 8 := Nat.pow_le_pow_right (by decide) (by omega)
  have hlt := Nat.mod_lt (depth.toNat / 2 ^ 3) (Nat.two_pow_pos (1 + depth.toNat % 8))
  constructor
  · rw [decodeMmDepth, toNat_add, UInt32.toNat_and, hmask, UInt32.toNat_shiftRight,
      Nat.and_two_pow_sub_one_eq_mod, toNat_one, Nat.shiftRight_eq_div_pow]
    exact mod_eq_of_lt (by change 1 + depth.toNat / 2 ^ 3 % _ < _; omega)
  · have hshift : ((3 : UInt32) + (1 + (depth &&& 7))).toNat = 3 + (1 + depth.toNat % 8) := by
      rw [toNat_add, hbits]
      exact mod_eq_of_lt (by change 3 + (1 + depth.toNat % 8) < _; omega)
    rw [decodeMmDepth, UInt32.toNat_shiftRight, hshift, mod_eq_of_lt (by omega),
      Nat.shiftRight_eq_div_pow]

theorem decodeMmDepth_le (depth : UInt32) : (decodeMmDepth depth).1.toNat ≤ 256 := by
  have hlt := Nat.mod_lt (depth.toNat / 2 ^ 3) (Nat.two_pow_pos (1 + depth.toNat % 8))
  have hwidth : 2 ^ (1 + depth.toNat % 8) ≤ 2 ^ 8 := Nat.pow_le_pow_right (by decide) (by omega)
  rw [(toNat_decodeMmDepth depth).1]
  omega

/-- A depth that is written decodes to its number of chains and its nonce exactly for at most 256
chains. -/
theorem mm_depth_round_trip (nAuxChains nonce depth : UInt32) (hnonce : nonce ≤ 65535)
    (hdepth : encodeMmDepth nAuxChains nonce = some depth) :
    decodeMmDepth depth = (nAuxChains, nonce) ↔ nAuxChains ≤ 256 := by
  rw [le_iff_toNat_le] at hnonce ⊢
  change nonce.toNat ≤ 65535 at hnonce
  change _ ↔ nAuxChains.toNat ≤ 256
  constructor
  · intro hback
    have hle := decodeMmDepth_le depth
    rwa [hback] at hle
  · intro hchains
    rw [encodeMmDepth] at hdepth
    split_ifs at hdepth with hzero
    have hone : 1 ≤ nAuxChains.toNat := by
      have := mt toNat_inj.mp hzero
      rw [UInt32.toNat_zero] at this
      omega
    obtain ⟨hpos, hle, hfits⟩ := @countBits_spec nAuxChains 1 hchains 16 (by decide) (by decide)
    have hvalue := toNat_packed hpos hle ⟨hone, hfits⟩ hnonce
    rw [Option.some.inj hdepth] at hvalue
    generalize (countBits nAuxChains 16 1).toNat = bits at hvalue hpos hle hfits
    change 1 ≤ bits at hpos
    rw [Nat.pow_add, Nat.mul_assoc] at hvalue
    have hfield : 1 + depth.toNat % 8 = bits := by omega
    have hmid : depth.toNat / 2 ^ 3 = 2 ^ bits * nonce.toNat + (nAuxChains.toNat - 1) := by omega
    obtain ⟨hcount, hrest⟩ := toNat_decodeMmDepth depth
    refine Prod.ext (toNat_inj.mp ?_) (toNat_inj.mp ?_)
    · rw [hcount, hfield, hmid, Nat.mul_add_mod, mod_eq_of_lt (by omega)]
      exact Nat.add_sub_cancel' hone
    · rw [hrest, hfield, Nat.pow_add, ← Nat.div_div_eq_div_mul, hmid,
        Nat.mul_add_div (Nat.two_pow_pos bits), Nat.div_eq_of_lt (by omega), Nat.add_zero]

theorem mm_depth_round_trip_three :
    encodeMmDepth 3 65535 = some 2097137 ∧ decodeMmDepth 2097137 = (3, 65535) :=
  ⟨by decide, (mm_depth_round_trip 3 65535 2097137 (by decide) (by decide)).mpr (by decide)⟩

/-- 257 chains take nine bits, and the width does not fit in its field. -/
theorem mm_depth_two_hundred_fifty_seven :
    ∃ depth, encodeMmDepth 257 0 = some depth ∧ decodeMmDepth depth = (2, 128) :=
  ⟨2056, by decide, by decide⟩

end Monzero.MergeMiningDepth
