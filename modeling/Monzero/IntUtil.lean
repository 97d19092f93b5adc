import Monzero.Words
import Mathlib.Tactic.Ring

/-!
Products of 128 bits and their division by a word, as the node computes them from words.
There are two multiplications: the one of the integer utilities, which adds the mixed
products of the halves first, and a portable one, which carries from one half to the next.
Both give the exact product.
-/
namespace Monzero.IntUtil

open Words

def hiDword (val : UInt64) : UInt64 := val >>> 32

def loDword (val : UInt64) : UInt64 := val &&& 0xFFFFFFFF

@[simp] theorem toNat_hiDword (val : UInt64) : (hiDword val).toNat = val.toNat / 2 ^ 32 :=
  toNat_high_half val

@[simp] theorem toNat_loDword (val : UInt64) : (loDword val).toNat = val.toNat % 2 ^ 32 :=
  toNat_low_half val

/-- `mul128`: the low and the high word of the product. -/
def mul128 (multiplier multiplicand : UInt64) : UInt64 × UInt64 :=
  let a := hiDword multiplier
  let b := loDword multiplier
  let c := hiDword multiplicand
  let d := loDword multiplicand
  let ac := a * c
  let ad := a * d
  let bc := b * c
  let bd := b * d
  let adbc := ad + bc
  let adbcCarry : UInt64 := if adbc < ad then 1 else 0
  let productLo := bd + (adbc <<< 32)
  let productLoCarry : UInt64 := if productLo < bd then 1 else 0
  (productLo, ac + (adbc >>> 32) + (adbcCarry <<< 32) + productLoCarry)

/-- The multiplication of `difficulty.cpp` for machines without a wide product. -/
def mulPortable (a b : UInt64) : UInt64 × UInt64 :=
  let aLow := a &&& 0xFFFFFFFF
  let aHigh := a >>> 32
  let bLow := b &&& 0xFFFFFFFF
  let bHigh := b >>> 32
  let res := aLow * bLow
  let lowRes1 := res &&& 0xFFFFFFFF
  let carry := res >>> 32
  let res := aHigh * bLow + carry
  let highResHigh1 := res >>> 32
  let highResLow1 := res &&& 0xFFFFFFFF
  let res := aLow * bHigh
  let lowRes2 := res &&& 0xFFFFFFFF
  let carry := res >>> 32
  let res := aHigh * bHigh + carry
  let highResHigh2 := res >>> 32
  let highResLow2 := res &&& 0xFFFFFFFF
  let r := highResLow1 + lowRes2
  let carry := r >>> 32
  let low := (r <<< 32) ||| lowRes1
  let r := highResHigh1 + highResLow2 + carry
  let d3 := r &&& 0xFFFFFFFF
  let carry := r >>> 32
  let r := highResHigh2 + carry
  (low, d3 ||| (r <<< 32))

/-- The halves of a word. -/
inductive IsHalf (x : UInt64) : UInt64 → Prop
  | high : IsHalf x (hiDword x)
  | low : IsHalf x (loDword x)

theorem IsHalf.lt {x a : UInt64} (h : IsHalf x a) : a.toNat < 2 ^ 32 := by
  have hx := x.toNat_lt
  cases h with
  | high =>
    rw [toNat_hiDword]
    omega
  | low =>
    rw [toNat_loDword]
    omega

theorem IsHalf.toNat_mul {x y a b : UInt64} (ha : IsHalf x a) (hb : IsHalf y b) :
    (a * b).toNat = a.toNat * b.toNat ∧ (a * b).toNat ≤ 2 ^ 64 - 2 ^ 33 + 1 := by
  have hle := mul_halves_le ha.lt hb.lt
  have hmul := toNat_mul_of_lt (a := a) (b := b) (by omega)
  exact ⟨hmul, hmul ▸ hle⟩

theorem mul_eq_halves (x y : UInt64) : x.toNat * y.toNat = (hiDword x * hiDword y).toNat * 2 ^ 64 +
      ((hiDword x * loDword y).toNat + (loDword x * hiDword y).toNat) * 2 ^ 32 +
        (loDword x * loDword y).toNat := by
  rw [(IsHalf.high.toNat_mul IsHalf.high).1, (IsHalf.high.toNat_mul IsHalf.low).1,
    (IsHalf.low.toNat_mul IsHalf.high).1, (IsHalf.low.toNat_mul IsHalf.low).1]
  simp only [toNat_hiDword, toNat_loDword]
  conv_lhs => rw [← Nat.div_add_mod x.toNat (2 ^ 32), ← Nat.div_add_mod y.toNat (2 ^ 32)]
  ring

theorem half_products_le (x y : UInt64) : (hiDword x * hiDword y).toNat ≤ 2 ^ 64 - 2 ^ 33 + 1 ∧
      (hiDword x * loDword y).toNat ≤ 2 ^ 64 - 2 ^ 33 + 1 ∧
      (loDword x * hiDword y).toNat ≤ 2 ^ 64 - 2 ^ 33 + 1 ∧
      (loDword x * loDword y).toNat ≤ 2 ^ 64 - 2 ^ 33 + 1 :=
  ⟨(IsHalf.high.toNat_mul IsHalf.high).2, (IsHalf.high.toNat_mul IsHalf.low).2,
    (IsHalf.low.toNat_mul IsHalf.high).2, (IsHalf.low.toNat_mul IsHalf.low).2⟩

theorem toNat_ite_one (p : Prop) [Decidable p] :
    (if p then (1 : UInt64) else 0).toNat = if p then 1 else 0 := by
  split <;> rfl

theorem wide_mul128 (x y : UInt64) : wide (mul128 x y).2 (mul128 x y).1 = x.toNat * y.toNat := by
  obtain ⟨hac, had, hbc, hbd⟩ := half_products_le x y
  rw [mul_eq_halves, mul128]
  generalize hiDword x * hiDword y = ac at *
  generalize hiDword x * loDword y = ad at *
  generalize loDword x * hiDword y = bc at *
  generalize loDword x * loDword y = bd at *
  simp only [wide, UInt64.toNat_add, toNat_raise_half, toNat_high_half, toNat_ite_one,
    add_lt_left_iff]
  split <;> split <;> omega

theorem wide_mulPortable (x y : UInt64) :
    wide (mulPortable x y).2 (mulPortable x y).1 = x.toNat * y.toNat := by
  obtain ⟨hac, had, hbc, hbd⟩ := half_products_le x y
  rw [mul_eq_halves, mulPortable]
  simp only [hiDword, loDword] at *
  generalize x >>> 32 * y >>> 32 = ac at *
  generalize x >>> 32 * (y &&& 0xFFFFFFFF) = ad at *
  generalize (x &&& (0xFFFFFFFF : UInt64)) * y >>> 32 = bc at *
  generalize (x &&& 0xFFFFFFFF) * (y &&& 0xFFFFFFFF) = bd at *
  have hhalf (a : UInt64) : (a &&& 0xFFFFFFFF).toNat < 2 ^ 32 := by
    rw [toNat_low_half]
    omega
  rw [wide, UInt64.or_comm, toNat_or_halves _ (hhalf _), toNat_or_halves _ (hhalf _)]
  simp only [toNat_high_half, toNat_low_half, UInt64.toNat_add]
  omega

/-- `div128_64` without the remainder: the high and the low word of the quotient. The division
of 128-bit numbers throws when the divisor is zero, which it is not for any caller. -/
def div128By64 (dividendHi dividendLo divisor : UInt64) : UInt64 × UInt64 :=
  let q := (dividendHi.toNat <<< 64 ||| dividendLo.toNat) / divisor.toNat
  (UInt64.ofNat (q >>> 64 &&& 0xFFFFFFFFFFFFFFFF), UInt64.ofNat (q &&& 0xFFFFFFFFFFFFFFFF))

theorem wide_div128By64 (high low divisor : UInt64) :
    wide (div128By64 high low divisor).1 (div128By64 high low divisor).2 =
      wide high low / divisor.toNat := by
  have hdividend : high.toNat <<< 64 ||| low.toNat = wide high low := by
    rw [Nat.shiftLeft_eq, Nat.mul_comm, ← Nat.two_pow_add_eq_or_of_lt low.toNat_lt, wide,
      Nat.mul_comm]
  have hmask (n : ℕ) : n &&& 0xFFFFFFFFFFFFFFFF = n % 2 ^ 64 := Nat.and_two_pow_sub_one_eq_mod n 64
  have hlt : wide high low / divisor.toNat < 2 ^ 128 :=
    (Nat.div_le_self _ _).trans_lt (wide_lt high low)
  rw [div128By64, hdividend, hmask, hmask, Nat.shiftRight_eq_div_pow]
  generalize wide high low / divisor.toNat = q at hlt
  rw [wide, UInt64.toNat_ofNat', UInt64.toNat_ofNat']
  omega

theorem low_mul_div_div (a b d e : UInt64) :
    (div128By64 (div128By64 (mul128 a b).2 (mul128 a b).1 d).1
      (div128By64 (mul128 a b).2 (mul128 a b).1 d).2 e).2 =
        UInt64.ofNat (a.toNat * b.toNat / d.toNat / e.toNat) := by
  apply low_of_wide
  rw [wide_div128By64, wide_div128By64, wide_mul128]

end Monzero.IntUtil
