import Mathlib.Algebra.Order.Ring.Nat
import Mathlib.Algebra.Ring.Nat
import Mathlib.Data.Nat.Bitwise
import Mathlib.Data.Nat.Digits.Defs

/-!
Arithmetic on 64-bit words that keeps what does not fit. A word is two halves of 32 bits,
a sum that wraps is recognised by comparing it with one of its terms, and a list of words
stands for a number in the base of the word size.
-/
namespace Monzero.Words

/-- The value of two words, the high one first. -/
def wide (high low : UInt64) : ℕ := high.toNat * 2 ^ 64 + low.toNat

theorem wide_lt (high low : UInt64) : wide high low < 2 ^ 128 := by
  have hhigh := high.toNat_lt
  have hlow := low.toNat_lt
  unfold wide
  omega

theorem wide_zero (low : UInt64) : wide 0 low = low.toNat := by
  simp [wide]

theorem low_of_wide {high low : UInt64} {n : ℕ} (h : wide high low = n) : low = UInt64.ofNat n := by
  have hlow := low.toNat_lt
  apply UInt64.toNat_inj.mp
  rw [UInt64.toNat_ofNat', ← h, wide]
  omega

theorem toNat_low_half (a : UInt64) : (a &&& 0xFFFFFFFF).toNat = a.toNat % 2 ^ 32 := by
  rw [UInt64.toNat_and]
  exact Nat.and_two_pow_sub_one_eq_mod a.toNat 32

theorem toNat_high_half (a : UInt64) : (a >>> 32).toNat = a.toNat / 2 ^ 32 := by
  rw [UInt64.toNat_shiftRight]
  exact Nat.shiftRight_eq_div_pow a.toNat 32

theorem toNat_raise_half (a : UInt64) : (a <<< 32).toNat = a.toNat % 2 ^ 32 * 2 ^ 32 := by
  rw [UInt64.toNat_shiftLeft]
  change a.toNat <<< 32 % 2 ^ 64 = _
  rw [Nat.shiftLeft_eq]
  omega

theorem toNat_or_halves (high : UInt64) {low : UInt64} (hlow : low.toNat < 2 ^ 32) :
    (high <<< 32 ||| low).toNat = high.toNat % 2 ^ 32 * 2 ^ 32 + low.toNat := by
  rw [UInt64.toNat_or, toNat_raise_half, Nat.mul_comm, ← Nat.two_pow_add_eq_or_of_lt hlow]

theorem toNat_mul_of_lt {a b : UInt64} (h : a.toNat * b.toNat < 2 ^ 64) :
    (a * b).toNat = a.toNat * b.toNat := by
  rw [UInt64.toNat_mul, Nat.mod_eq_of_lt h]

theorem mul_halves_le {a b : ℕ} (ha : a < 2 ^ 32) (hb : b < 2 ^ 32) :
    a * b ≤ 2 ^ 64 - 2 ^ 33 + 1 := by
  have h := Nat.mul_le_mul (Nat.le_pred_of_lt ha) (Nat.le_pred_of_lt hb)
  exact h.trans (by norm_num)

theorem add_lt_left_iff (a b : UInt64) : a + b < a ↔ 2 ^ 64 ≤ a.toNat + b.toNat := by
  have ha := a.toNat_lt
  have hb := b.toNat_lt
  rw [UInt64.lt_iff_toNat_lt, UInt64.toNat_add]
  omega

theorem add_carry_iff (a b : UInt64) (c : Bool) :
    a + b < a ∨ c = true ∧ a + b = 0xFFFFFFFFFFFFFFFF ↔ 2 ^ 64 ≤ a.toNat + b.toNat + c.toNat := by
  have ha := a.toNat_lt
  have hb := b.toNat_lt
  rw [add_lt_left_iff, ← UInt64.toNat_inj, UInt64.toNat_add]
  change _ ∨ _ ∧ (a.toNat + b.toNat) % 2 ^ 64 = 2 ^ 64 - 1 ↔ _
  cases c <;> simp only [Bool.toNat_false, Bool.toNat_true, Bool.false_eq_true, true_and,
    false_and, or_false] <;> omega

/-- The number whose words are given, the least significant first. -/
def ofWords (words : List UInt64) : ℕ := Nat.ofDigits (2 ^ 64) (words.map UInt64.toNat)

@[simp] theorem ofWords_nil : ofWords [] = 0 := rfl

@[simp] theorem ofWords_cons (w : UInt64) (words : List UInt64) :
    ofWords (w :: words) = w.toNat + 2 ^ 64 * ofWords words := by
  simp [ofWords, Nat.ofDigits_cons]

theorem ofWords_lt (words : List UInt64) : ofWords words < (2 ^ 64) ^ words.length := by
  induction words with
  | nil => simp
  | cons w rest ih =>
    have hw := w.toNat_lt
    have hpow : (2 ^ 64) ^ (rest.length + 1) = 2 ^ 64 * (2 ^ 64) ^ rest.length := pow_succ' _ _
    rw [ofWords_cons, List.length_cons, hpow]
    omega

theorem foldl_shift_eq (n : ℕ) (words : List UInt64) (hfits : 64 * words.length ≤ n) :
    words.reverse.foldl (fun value w => (value <<< 64 ||| w.toNat) % 2 ^ n) 0 = ofWords words := by
  induction words with
  | nil => rfl
  | cons w rest ih =>
    have hlt := ofWords_lt (w :: rest)
    rw [← pow_mul] at hlt
    have hsmall : ofWords (w :: rest) < 2 ^ n :=
      hlt.trans_le (Nat.pow_le_pow_right (by omega) hfits)
    rw [List.length_cons] at hfits
    rw [List.reverse_cons, List.foldl_append, ih (by omega), List.foldl_cons, List.foldl_nil,
      Nat.shiftLeft_eq, Nat.mul_comm, ← Nat.two_pow_add_eq_or_of_lt w.toNat_lt, Nat.add_comm,
      ← ofWords_cons, Nat.mod_eq_of_lt hsmall]

end Monzero.Words
