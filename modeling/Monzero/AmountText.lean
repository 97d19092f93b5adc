import Monzero.FeeEstimate
import Mathlib.Algebra.Order.Field.Rat
import Mathlib.Tactic.FieldSimp

/-!
Amounts as text. `print_money` writes the digits of an amount with a point before the last
eleven. `parse_amount` works on the text: it drops zeros that are too far behind the point,
removes the point and appends zeros up to eleven decimals, and reads the digits that are left.
-/
namespace Monzero.AmountText

open Decimals FeeEstimate List
open List (replicate)

def defaultDecimalPoint : ℕ := 11

/-- `std::isspace`. -/
def isSpace (c : Char) : Bool := c = ' ' ∨ ('\t' ≤ c ∧ c ≤ '\r')

/-- `boost::algorithm::trim`. -/
def trim (s : List Char) : List Char :=
  ((s.dropWhile isSpace).reverse.dropWhile isSpace).reverse

def isDigit (c : Char) : Bool := '0' ≤ c ∧ c ≤ '9'

def value (s : List Char) : ℕ := readDigits (s.map fun c => c.toNat - '0'.toNat)

/-- `get_xtype_from_string` for 64 bits, which takes digits and nothing else. -/
def getXtypeFromString (s : List Char) : Option UInt64 :=
  if s ≠ [] ∧ s.all isDigit = true ∧ value s < 2 ^ 64 then some (UInt64.ofNat (value s))
  else none

/-- The loop that erases zeros at the end, on the reversed text, with `fraction_size`. -/
def eraseZeros : List Char → ℕ → List Char × ℕ
  | [], fractionSize => ([], fractionSize)
  | c :: rest, fractionSize =>
      if defaultDecimalPoint < fractionSize ∧ c = '0' then eraseZeros rest (fractionSize - 1)
      else (c :: rest, fractionSize)

/-- The end of `parse_amount`, without the point. -/
def parseDigits (s : List Char) (fractionSize : ℕ) : Option UInt64 :=
  if s = [] then none
  else getXtypeFromString (s ++ replicate (defaultDecimalPoint - fractionSize) '0')

def parseTrimmed (s : List Char) : Option UInt64 :=
  if '.' ∈ s then
    let pointIndex := s.idxOf '.'
    let erased := eraseZeros s.reverse (s.length - pointIndex - 1)
    if defaultDecimalPoint < erased.2 then none
    else parseDigits (erased.1.reverse.eraseIdx pointIndex) erased.2
  else parseDigits s 0

def parseAmount (s : List Char) : Option UInt64 := parseTrimmed (trim s)

def insertMoneyDecimalPoint (s : List Char) : List Char :=
  let s := replicate (defaultDecimalPoint + 1 - s.length) '0' ++ s
  s.take (s.length - defaultDecimalPoint) ++ '.' :: s.drop (s.length - defaultDecimalPoint)

def printMoney (amount : UInt64) : List Char :=
  insertMoneyDecimalPoint ((printDigits amount).map fun d => Char.ofNat ('0'.toNat + d))

/-- The number that digits before and after a point stand for. -/
def decimalValue (whole fraction : List Char) : ℚ :=
  value whole + value fraction / 10 ^ fraction.length

/-- A text of digits with at most one point, with zeros behind the eleventh decimal, and the
amount it stands for. -/
def IsAmount (s : List Char) (v : UInt64) : Prop :=
  ∃ whole fraction, (s = whole ++ '.' :: fraction ∨ (s = whole ∧ fraction = [])) ∧
    (∀ c ∈ whole ++ fraction, isDigit c = true) ∧ whole ++ fraction ≠ [] ∧
    (∀ c ∈ fraction.drop 11, c = '0') ∧ (v.toNat : ℚ) = decimalValue whole fraction * 10 ^ 11

/-! ### Values -/

theorem value_append (s t : List Char) : value (s ++ t) = value s * 10 ^ t.length + value t := by
  rw [value, map_append, readDigits_eq, reverse_append, Nat.ofDigits_append,
    length_reverse, length_map, value, value, readDigits_eq, readDigits_eq]
  ring

theorem value_zeros (k : ℕ) : value (replicate k '0') = 0 := by
  rw [value, map_replicate, readDigits_eq, reverse_replicate]
  exact Nat.ofDigits_replicate_zero ..

theorem value_append_zeros (s : List Char) (k : ℕ) :
    value (s ++ replicate k '0') = value s * 10 ^ k := by
  rw [value_append, value_zeros, length_replicate, Nat.add_zero]

theorem eq_decimalValue_iff (v : ℕ) (whole frac : List Char) :
    (v : ℚ) = decimalValue whole frac * 10 ^ 11 ↔
      v * 10 ^ frac.length = value (whole ++ frac) * 10 ^ 11 := by
  have hpos : (10 : ℚ) ^ frac.length ≠ 0 := pow_ne_zero _ (by norm_num)
  have hval : decimalValue whole frac * 10 ^ frac.length = (value (whole ++ frac) : ℚ) := by
    rw [decimalValue, value_append, add_mul, div_mul_cancel₀ _ hpos]
    push_cast
    rfl
  rw [← mul_left_inj' hpos, mul_right_comm, hval]
  norm_cast

theorem forall_digit_append_zeros (s : List Char) (k : ℕ) :
    (∀ c ∈ s ++ replicate k '0', isDigit c = true) ↔ ∀ c ∈ s, isDigit c = true := by
  refine ⟨fun h c hc => h c (mem_append_left _ hc), fun h c hc => ?_⟩
  rcases mem_append.mp hc with hc | hc
  · exact h c hc
  · rw [eq_of_mem_replicate hc]
    rfl

theorem getXtypeFromString_eq_some (s : List Char) (v : UInt64) : getXtypeFromString s = some v ↔
      s ≠ [] ∧ (∀ c ∈ s, isDigit c = true) ∧ v.toNat = value s := by
  rw [getXtypeFromString, ← all_eq_true]
  split
  case isTrue h =>
    rw [Option.some.injEq, ← UInt64.toNat_inj, UInt64.toNat_ofNat_of_lt' h.2.2, eq_comm,
      and_iff_right h.1, and_iff_right h.2.1]
  case isFalse h =>
    refine iff_of_false (by simp) fun ⟨hne, hdig, hv⟩ => h ⟨hne, hdig, ?_⟩
    rw [← hv]
    exact v.toNat_lt

theorem parseDigits_eq_some (s : List Char) (fractionSize : ℕ) (v : UInt64) :
    parseDigits s fractionSize = some v ↔ s ≠ [] ∧ (∀ c ∈ s, isDigit c = true) ∧
      v.toNat = value s * 10 ^ (11 - fractionSize) := by
  rw [parseDigits]
  split
  case isTrue h => simp [h]
  case isFalse h =>
    rw [getXtypeFromString_eq_some, forall_digit_append_zeros, value_append_zeros,
      and_iff_right fun hnil => h (append_eq_nil_iff.mp hnil).1, and_iff_right h]
    rfl

/-! ### Zeros behind the point -/

/-- What the loop leaves of a fraction: it stops at the eleventh decimal, or before it at
something that is not a zero. -/
theorem eraseZeros_spec (frac rest : List Char) : ∃ kept k, frac = kept ++ replicate k '0' ∧
      eraseZeros (frac.reverse ++ rest) frac.length = (kept.reverse ++ rest, kept.length) ∧
      (kept.length ≤ 11 ∨ ∃ c ∈ kept.drop 11, c ≠ '0') ∧ (k = 0 ∨ 11 ≤ kept.length) := by
  induction frac using List.reverseRecOn with
  | nil =>
    refine ⟨[], 0, rfl, ?_, Or.inl (Nat.zero_le _), Or.inl rfl⟩
    cases rest with
    | nil => rfl
    | cons c rest => exact if_neg fun h => absurd h.1 (Nat.not_lt_zero _)
  | append_singleton frac c ih =>
    rw [reverse_append, reverse_singleton, singleton_append, cons_append,
      length_append, length_singleton, eraseZeros]
    split
    case isTrue hzero =>
      obtain ⟨hlong, rfl⟩ := hzero
      obtain ⟨kept, k, hfraction, herased, hstop, hk⟩ := ih
      refine ⟨kept, k + 1, ?_, herased, hstop, Or.inr ?_⟩
      · rw [replicate_succ', ← append_assoc, ← hfraction]
      · rcases hk with rfl | hk
        · rw [hfraction, replicate_zero, append_nil, defaultDecimalPoint] at hlong
          omega
        · exact hk
    case isFalse hzero =>
      refine ⟨frac ++ [c], 0, by simp, by simp, ?_, Or.inl rfl⟩
      by_cases hlong : 11 < frac.length + 1
      · refine Or.inr ⟨c, ?_, fun hc => hzero ⟨hlong, hc⟩⟩
        rw [drop_append_of_le_length (by omega)]
        simp
      · exact Or.inl (by rw [length_append, length_singleton]; omega)

theorem scale_iff {v x : ℕ} {n : ℕ} (k : ℕ) (hn : n ≤ 11) :
    v * 10 ^ (n + k) = x * 10 ^ k * 10 ^ 11 ↔ v = x * 10 ^ (11 - n) := by
  have hpow : x * 10 ^ k * 10 ^ 11 = x * 10 ^ (11 - n) * 10 ^ (n + k) := by
    rw [Nat.mul_assoc, Nat.mul_assoc, ← Nat.pow_add, ← Nat.pow_add]
    congr 2
    omega
  rw [hpow]
  exact Nat.mul_left_inj (by positivity)

theorem parseTrimmed_point {whole : List Char} (hwhole : '.' ∉ whole) (frac : List Char)
    (v : UInt64) : parseTrimmed (whole ++ '.' :: frac) = some v ↔
      (∀ c ∈ whole ++ frac, isDigit c = true) ∧ whole ++ frac ≠ [] ∧ (∀ c ∈ frac.drop 11, c = '0') ∧
      v.toNat * 10 ^ frac.length = value (whole ++ frac) * 10 ^ 11 := by
  obtain ⟨kept, k, rfl, herased, hstop, hk⟩ := eraseZeros_spec frac ('.' :: whole.reverse)
  have hidx : (whole ++ '.' :: (kept ++ replicate k '0')).idxOf '.' = whole.length := by
    rw [idxOf_append_of_notMem hwhole, idxOf_cons_self, Nat.add_zero]
  have hsize : (whole ++ '.' :: (kept ++ replicate k '0')).length - whole.length - 1 =
      (kept ++ replicate k '0').length := by
    rw [length_append, length_cons]
    omega
  have hreverse : (whole ++ '.' :: (kept ++ replicate k '0')).reverse =
      (kept ++ replicate k '0').reverse ++ '.' :: whole.reverse := by
    simp
  have hpoint : (kept.reverse ++ '.' :: whole.reverse).reverse.eraseIdx whole.length =
      whole ++ kept := by
    simp [eraseIdx_append_of_length_le]
  rw [parseTrimmed, if_pos (by simp), hidx]
  dsimp only
  rw [hsize, hreverse, herased]
  dsimp only
  rw [hpoint, defaultDecimalPoint, ← append_assoc, forall_digit_append_zeros,
    value_append_zeros, length_append, length_replicate]
  split
  case isTrue hlong =>
    refine iff_of_false (by simp) ?_
    rintro ⟨-, -, hzeros, -⟩
    obtain ⟨c, hc, hne⟩ := hstop.resolve_left (by omega)
    rw [drop_append_of_le_length (by omega)] at hzeros
    exact hne (hzeros c (mem_append_left _ hc))
  case isFalse hshort =>
    have hne : whole ++ kept ++ replicate k '0' ≠ [] ↔ whole ++ kept ≠ [] := by
      rcases hk with rfl | hk
      · simp
      · have : kept ≠ [] := length_pos_iff.mp (by omega)
        simp [this]
    have hzeros : ∀ c ∈ (kept ++ replicate k '0').drop 11, c = '0' := by
      intro c hc
      rw [drop_append, drop_of_length_le (by omega), nil_append] at hc
      exact eq_of_mem_replicate (mem_of_mem_drop hc)
    rw [parseDigits_eq_some, hne, and_iff_right hzeros, scale_iff _ (by omega)]
    exact and_left_comm

/-- An accepted text is an amount of this value, and the text of an amount is accepted. -/
theorem parseTrimmed_eq_some (s : List Char) (v : UInt64) :
    parseTrimmed s = some v ↔ IsAmount s v := by
  have hpoint {whole frac : List Char} (h : ∀ c ∈ whole ++ frac, isDigit c = true) :
      '.' ∉ whole := fun hmem => absurd (h '.' (mem_append_left _ hmem)) (by decide)
  constructor
  · intro h
    by_cases hmem : '.' ∈ s
    · obtain ⟨whole, frac, rfl, hwhole⟩ := eq_append_cons_of_mem hmem
      obtain ⟨hdig, hne, hzeros, hv⟩ := (parseTrimmed_point hwhole frac v).mp h
      exact ⟨whole, frac, Or.inl rfl, hdig, hne, hzeros, (eq_decimalValue_iff ..).mpr hv⟩
    · rw [parseTrimmed, if_neg hmem, parseDigits_eq_some] at h
      obtain ⟨hne, hdig, hv⟩ := h
      refine ⟨s, [], Or.inr ⟨rfl, rfl⟩, ?_, ?_, by simp, (eq_decimalValue_iff ..).mpr ?_⟩
      · rwa [append_nil]
      · rwa [append_nil]
      · rw [append_nil, hv, length_nil, Nat.pow_zero, Nat.mul_one]
  · rintro ⟨whole, frac, rfl | ⟨rfl, rfl⟩, hdig, hne, hzeros, hv⟩
    · exact (parseTrimmed_point (hpoint hdig) frac v).mpr
        ⟨hdig, hne, hzeros, (eq_decimalValue_iff ..).mp hv⟩
    · rw [parseTrimmed, if_neg (hpoint hdig), parseDigits_eq_some]
      rw [eq_decimalValue_iff, append_nil, length_nil, Nat.pow_zero, Nat.mul_one] at hv
      rw [append_nil] at hdig hne
      exact ⟨hne, hdig, hv⟩

/-! ### Printed amounts -/

theorem isSpace_of_isDigit {c : Char} (h : isDigit c = true) : isSpace c = false := by
  have hdigit : '0' ≤ c := (of_decide_eq_true h).1
  apply decide_eq_false
  rintro (rfl | ⟨-, hle⟩)
  · exact absurd hdigit (by decide)
  · exact absurd (Char.le_trans hdigit hle) (by decide)

theorem trim_of_forall {s : List Char} (h : ∀ c ∈ s, isSpace c = false) : trim s = s := by
  have hdrop {l : List Char} (hl : ∀ c ∈ l, isSpace c = false) : l.dropWhile isSpace = l := by
    cases l with
    | nil => rfl
    | cons c rest => exact dropWhile_cons_of_neg (by simp [hl c mem_cons_self])
  rw [trim, hdrop h, hdrop fun c hc => h c (mem_reverse.mp hc), reverse_reverse]

/-- The digits of an amount, padded to twelve. -/
def paddedDigits (amount : UInt64) : List Char :=
  replicate (12 - (printDigits amount).length) '0' ++
    (printDigits amount).map fun d => Char.ofNat ('0'.toNat + d)

theorem digitChar {d : ℕ} (hd : d < 10) : isDigit (Char.ofNat ('0'.toNat + d)) = true ∧
      (Char.ofNat ('0'.toNat + d)).toNat - '0'.toNat = d := by
  interval_cases d <;> decide

theorem printDigits_lt {amt : UInt64} : ∀ d ∈ printDigits amt, d < 10 := by
  intro d hd
  exact digitsUpTo_lt (by omega) 20 _ d (mem_reverse.mp hd)

theorem isDigit_paddedDigits (amt : UInt64) : ∀ c ∈ paddedDigits amt, isDigit c = true := by
  intro c hc
  rcases mem_append.mp hc with hc | hc
  · rw [eq_of_mem_replicate hc]
    rfl
  · obtain ⟨d, hd, rfl⟩ := mem_map.mp hc
    exact (digitChar (printDigits_lt d hd)).1

theorem value_paddedDigits (amt : UInt64) : value (paddedDigits amt) = amt.toNat := by
  have hdig : ((printDigits amt).map fun d => Char.ofNat ('0'.toNat + d)).map
      (fun c => c.toNat - '0'.toNat) = printDigits amt := by
    rw [map_map]
    exact (map_congr_left fun d hd => (digitChar (printDigits_lt d hd)).2).trans (map_id _)
  have hamt : amt.toNat < 10 ^ 20 := lt_trans amt.toNat_lt (by norm_num)
  rw [paddedDigits, value_append, value_zeros, Nat.zero_mul, Nat.zero_add, value, hdig,
    readDigits_eq, printDigits, reverse_reverse, ofDigits_digitsUpTo 20 _ hamt]

/-- Amounts as text are exact. The text of an amount is read back, and a text is accepted with a
value exactly when, without the whitespace around it, it is a decimal number of that value. -/
theorem amount_text_exact :
    (∀ a : UInt64, parseAmount (printMoney a) = some a) ∧
      ∀ (s : List Char) (v : UInt64), parseAmount s = some v ↔ IsAmount (trim s) v := by
  refine ⟨fun a => ?_, fun s v => parseTrimmed_eq_some (trim s) v⟩
  have hlength : 12 ≤ (paddedDigits a).length := by
    rw [paddedDigits, length_append, length_replicate, length_map]
    omega
  have hprint : printMoney a = (paddedDigits a).take ((paddedDigits a).length - 11) ++
      '.' :: (paddedDigits a).drop ((paddedDigits a).length - 11) := by
    simp only [printMoney, insertMoneyDecimalPoint, defaultDecimalPoint, length_map]
    rfl
  have hsplit := take_append_drop ((paddedDigits a).length - 11) (paddedDigits a)
  have hspace : ∀ c ∈ printMoney a, isSpace c = false := by
    intro c hc
    rw [hprint, mem_append, mem_cons, or_left_comm, ← mem_append, hsplit] at hc
    rcases hc with rfl | hc
    · decide
    · exact isSpace_of_isDigit (isDigit_paddedDigits a c hc)
  rw [parseAmount, trim_of_forall hspace, hprint, parseTrimmed_eq_some]
  refine ⟨_, _, Or.inl rfl, ?_, ?_, ?_, (eq_decimalValue_iff ..).mpr ?_⟩
  · rw [hsplit]
    exact isDigit_paddedDigits a
  · rw [hsplit]
    exact length_pos_iff.mp (by omega)
  · rw [drop_drop, drop_of_length_le (by omega)]
    simp
  · rw [hsplit, value_paddedDigits, length_drop]
    congr 2
    omega

end Monzero.AmountText
