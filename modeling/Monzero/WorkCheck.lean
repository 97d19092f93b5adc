import Monzero.Codec
import Monzero.IntUtil
import Monzero.Primitives
import Mathlib.Tactic.Ring

/-!
Whether a hash shows enough work. Read as a number of 256 bits, the hash times the
difficulty must stay below the size of the hash. For a difficulty of one word the node
never forms the product: it multiplies word by word and follows the carries.
-/
namespace Monzero.WorkCheck

open Bytes Codec IntUtil Primitives Words List

/-- The two definitions of `mul`. -/
inductive Multiplication
  /-- `mul128`, on x86-64. -/
  | native
  | portable
deriving DecidableEq

/-- `mul`: the low and the high word of a product. -/
def Multiplication.mul : Multiplication → UInt64 → UInt64 → UInt64 × UInt64
  | native => mul128
  | portable => mulPortable

theorem Multiplication.wide_mul (m : Multiplication) (x y : UInt64) :
    wide (m.mul x y).2 (m.mul x y).1 = x.toNat * y.toNat := by
  cases m with
  | native => exact wide_mul128 x y
  | portable => exact wide_mulPortable x y

def cadd (a b : UInt64) : Bool := a + b < a

def cadc (a b : UInt64) (c : Bool) : Bool := a + b < a || (c && a + b == 0xFFFFFFFFFFFFFFFF)

/-- `swap64le(((const uint64_t *) &hash)[i])`: a word of the hash in the order of its bytes. -/
def hashWord (hash : Hash) (i : ℕ) : UInt64 :=
  UInt64.ofNat (leValue ((hash.bytes.drop (8 * i)).take 8))

/-- `check_hash_64`. The product with the highest word comes first, as it fails most often. -/
def checkHash64 (m : Multiplication) (hash : Hash) (difficulty : UInt64) : Bool :=
  let (top, high) := m.mul (hashWord hash 3) difficulty
  if high ≠ 0 then false
  else
    let (_, cur) := m.mul (hashWord hash 0) difficulty
    let (low, high) := m.mul (hashWord hash 1) difficulty
    let carry := cadd cur low
    let cur := high
    let (low, high) := m.mul (hashWord hash 2) difficulty
    let carry := cadc cur low carry
    let carry := cadc high top carry
    !carry

abbrev DifficultyType := Fin (2 ^ 128)

/-- `check_hash_128`. The products are those of 512-bit numbers. -/
def checkHash128 (hash : Hash) (difficulty : DifficultyType) : Bool :=
  let hashVal := [0, 1, 2, 3].foldl
    (fun value i => (value <<< 64 ||| (hashWord hash (3 - i)).toNat) % 2 ^ 512) 0
  hashVal * difficulty.val % 2 ^ 512 ≤ 2 ^ 256 - 1

def checkHash (m : Multiplication) (hash : Hash) (difficulty : DifficultyType) : Bool :=
  if difficulty.val ≤ 2 ^ 64 - 1 then checkHash64 m hash (UInt64.ofNat difficulty.val)
  else checkHash128 hash difficulty

/-- The words of a hash, the least significant first. -/
def hashWords (hash : Hash) : List UInt64 := (List.range 4).map (hashWord hash)

@[simp] theorem length_hashWords (hash : Hash) : (hashWords hash).length = 4 := by
  simp [hashWords]

theorem leValue_append (s t : List UInt8) :
    leValue (s ++ t) = leValue s + 256 ^ s.length * leValue t := by
  induction s with
  | nil => simp [leValue]
  | cons b rest ih =>
    rw [cons_append, leValue, leValue, ih, length_cons, pow_succ]
    ring

theorem leValue_eq_word (s : List UInt8) (hlen : 8 ≤ s.length) :
    leValue s = (UInt64.ofNat (leValue (s.take 8))).toNat + 2 ^ 64 * leValue (s.drop 8) := by
  have hsize : (s.take 8).length = 8 := by
    rw [length_take]
    omega
  have hlt := leValue_lt (s.take 8)
  rw [hsize] at hlt
  rw [UInt64.toNat_ofNat', Nat.mod_eq_of_lt (by norm_num at hlt ⊢; omega)]
  conv_lhs => rw [← take_append_drop 8 s, leValue_append, hsize]
  norm_num

theorem ofWords_hashWords (hash : Hash) : ofWords (hashWords hash) = leValue hash.bytes := by
  have hsize := hash.size_eq
  have hdrop (i : ℕ) : (hash.bytes.drop (8 * i)).drop 8 = hash.bytes.drop (8 * (i + 1)) := by
    rw [drop_drop]
    congr 1
  have hstep (i : ℕ) (hi : i < 4) : leValue (hash.bytes.drop (8 * i)) =
      (hashWord hash i).toNat + 2 ^ 64 * leValue (hash.bytes.drop (8 * (i + 1))) := by
    rw [← hdrop, hashWord]
    apply leValue_eq_word
    rw [length_drop]
    omega
  have hend : leValue (hash.bytes.drop (8 * 4)) = 0 := by
    rw [drop_eq_nil_of_le (by omega), leValue]
  have h0 := hstep 0 (by omega)
  have h1 := hstep 1 (by omega)
  have h2 := hstep 2 (by omega)
  have h3 := hstep 3 (by omega)
  rw [Nat.mul_zero, drop_zero] at h0
  rw [h0, h1, h2, h3, hend]
  simp [hashWords, range_succ]

theorem cadd_iff (a b : UInt64) : cadd a b = true ↔ 2 ^ 64 ≤ a.toNat + b.toNat := by
  rw [cadd, decide_eq_true_eq, add_lt_left_iff]

theorem cadc_iff (a b : UInt64) (c : Bool) :
    cadc a b c = true ↔ 2 ^ 64 ≤ a.toNat + b.toNat + c.toNat := by
  rw [← add_carry_iff, cadc]
  simp

theorem toNat_of_iff {c : Bool} {n : ℕ} (h : c = true ↔ 2 ^ 64 ≤ n) (hn : n < 2 * 2 ^ 64) :
    c.toNat = n / 2 ^ 64 := by
  cases c with
  | false =>
    have hlt : ¬ 2 ^ 64 ≤ n := fun hle => Bool.false_ne_true (h.mpr hle)
    rw [Bool.toNat_false]
    omega
  | true =>
    have hle := h.mp rfl
    rw [Bool.toNat_true]
    omega

/-- The carries of the chain tell whether the product of a word and four words stays within
four words. -/
theorem checkHash64_iff_words (m : Multiplication) (hash : Hash) (diff : UInt64) :
    checkHash64 m hash diff = true ↔ ofWords (hashWords hash) * diff.toNat < 2 ^ 256 := by
  have h0 := m.wide_mul (hashWord hash 0) diff
  have h1 := m.wide_mul (hashWord hash 1) diff
  have h2 := m.wide_mul (hashWord hash 2) diff
  have h3 := m.wide_mul (hashWord hash 3) diff
  have hproduct : ofWords (hashWords hash) * diff.toNat = (hashWord hash 0).toNat * diff.toNat +
        2 ^ 64 * ((hashWord hash 1).toNat * diff.toNat) +
        2 ^ 128 * ((hashWord hash 2).toNat * diff.toNat) +
        2 ^ 192 * ((hashWord hash 3).toNat * diff.toNat) := by
    simp only [hashWords, range_succ, range_zero, nil_append, map_cons,
      map_nil, cons_append, ofWords_cons, ofWords_nil]
    ring
  rw [hproduct, ← h0, ← h1, ← h2, ← h3, checkHash64]
  generalize m.mul (hashWord hash 0) diff = p0
  generalize m.mul (hashWord hash 1) diff = p1
  generalize m.mul (hashWord hash 2) diff = p2
  generalize m.mul (hashWord hash 3) diff = p3
  obtain ⟨low0, high0⟩ := p0
  obtain ⟨low1, high1⟩ := p1
  obtain ⟨low2, high2⟩ := p2
  obtain ⟨top, high3⟩ := p3
  dsimp only [wide]
  have hlow0 := low0.toNat_lt
  have hlow1 := low1.toNat_lt
  have hlow2 := low2.toNat_lt
  have hhigh0 := high0.toNat_lt
  have hhigh1 := high1.toNat_lt
  have hhigh2 := high2.toNat_lt
  have htop := top.toNat_lt
  by_cases hhigh3 : high3 = 0
  · have hcarry1 := toNat_of_iff (cadd_iff high0 low1) (by omega)
    have hcarry2 := toNat_of_iff (cadc_iff high1 low2 (cadd high0 low1)) (by omega)
    rw [if_neg (not_not.mpr hhigh3), Bool.not_eq_true', ← Bool.not_eq_true, cadc_iff, hcarry2,
      hcarry1, hhigh3, UInt64.toNat_zero]
    omega
  · have hpos : high3.toNat ≠ 0 := fun h => hhigh3 (UInt64.toNat_inj.mp h)
    rw [if_pos hhigh3]
    simp only [Bool.false_eq_true, false_iff]
    omega

theorem checkHash128_iff_words (hash : Hash) (diff : DifficultyType) :
    checkHash128 hash diff = true ↔ ofWords (hashWords hash) * diff.val < 2 ^ 256 := by
  have hval : [0, 1, 2, 3].foldl
      (fun value i => (value <<< 64 ||| (hashWord hash (3 - i)).toNat) % 2 ^ 512) 0 =
        ofWords (hashWords hash) := foldl_shift_eq 512 (hashWords hash) (by simp)
  have hlt := ofWords_lt (hashWords hash)
  rw [length_hashWords, ← pow_mul] at hlt
  have hproduct := Nat.mul_lt_mul'' hlt diff.isLt
  rw [← pow_add] at hproduct
  have hexponent : 64 * 4 + 128 < 512 := by omega
  generalize 64 * 4 + 128 = bits at hproduct hexponent
  have hsmall := hproduct.trans (Nat.pow_lt_pow_right Nat.one_lt_two hexponent)
  rw [checkHash128, hval, decide_eq_true_eq, Nat.mod_eq_of_lt hsmall]
  omega

/-- Both paths of the test are exact, with either multiplication. -/
theorem check_hash_exact (m : Multiplication) (hash : Hash) :
    (∀ difficulty : UInt64, checkHash64 m hash difficulty = true ↔
      leValue hash.bytes * difficulty.toNat < 2 ^ 256) ∧
    (∀ difficulty : DifficultyType, checkHash128 hash difficulty = true ↔
      leValue hash.bytes * difficulty.val < 2 ^ 256) ∧
    ∀ difficulty : DifficultyType, checkHash m hash difficulty = true ↔
      leValue hash.bytes * difficulty.val < 2 ^ 256 := by
  rw [← ofWords_hashWords]
  refine ⟨checkHash64_iff_words m hash, checkHash128_iff_words hash, fun difficulty => ?_⟩
  rw [checkHash]
  split
  · rename_i hsmall
    rw [checkHash64_iff_words, UInt64.toNat_ofNat', Nat.mod_eq_of_lt (by omega)]
  · exact checkHash128_iff_words hash difficulty

end Monzero.WorkCheck
