import Mathlib.Algebra.Order.Floor.Div
import Mathlib.Data.Nat.Digits.Lemmas
import Mathlib.Data.Nat.Log

/-!
Positional digits, the lowest digit first, and rounding up to a number of significant digits.
The rounded number is the least number above that has no more significant digits, and so
rounding is monotone across numbers of different lengths.
-/
namespace Monzero.Decimals

/-- The digits of a number; zero has one digit. -/
def digitsUpTo (b : ℕ) : ℕ → ℕ → List ℕ
  | 0, _ => []
  | fuel + 1, n => if n < b then [n] else n % b :: digitsUpTo b fuel (n / b)

section Digits

variable {b : ℕ}

theorem ofDigits_digitsUpTo (fuel n : ℕ) (h : n < b ^ fuel) :
    Nat.ofDigits b (digitsUpTo b fuel n) = n := by
  induction fuel generalizing n with
  | zero =>
    have hzero : n = 0 := by simpa using h
    simp [digitsUpTo, hzero]
  | succ fuel ih =>
    rw [digitsUpTo]
    split
    · exact Nat.ofDigits_singleton
    · have hnext : n / b < b ^ fuel := Nat.div_lt_of_lt_mul (by rwa [pow_succ'] at h)
      rw [Nat.ofDigits_cons, ih _ hnext]
      exact Nat.mod_add_div n b

theorem digitsUpTo_lt (hb : 0 < b) (fuel n : ℕ) : ∀ d ∈ digitsUpTo b fuel n, d < b := by
  induction fuel generalizing n with
  | zero => simp [digitsUpTo]
  | succ fuel ih =>
    rw [digitsUpTo]
    split
    · simpa
    · exact List.forall_mem_cons.mpr ⟨Nat.mod_lt n hb, ih _⟩

theorem length_digitsUpTo (hb : 1 < b) (fuel n : ℕ) (h : n < b ^ fuel) (hfuel : 0 < fuel) :
    (digitsUpTo b fuel n).length = Nat.log b n + 1 := by
  induction fuel generalizing n with
  | zero => cases hfuel
  | succ fuel ih =>
    rw [digitsUpTo]
    split
    · rename_i hlt
      rw [Nat.log_of_lt hlt, List.length_singleton]
    · rename_i hge
      have hnext : n / b < b ^ fuel := Nat.div_lt_of_lt_mul (by rwa [pow_succ'] at h)
      have hpos : 0 < fuel := Nat.pos_of_ne_zero fun hzero => by
        rw [hzero, Nat.zero_add, pow_one] at h
        exact hge h
      rw [List.length_cons, ih _ hnext hpos, Nat.log_of_one_lt_of_le hb (Nat.le_of_not_lt hge)]

/-- Adding one, with the carry out of the highest digit. -/
def bump (b : ℕ) : List ℕ → List ℕ × Bool
  | [] => ([], true)
  | d :: rest =>
      if d + 1 = b then (0 :: (bump b rest).1, (bump b rest).2) else ((d + 1) :: rest, false)

theorem ofDigits_bump (l : List ℕ) :
    Nat.ofDigits b ((bump b l).1 ++ if (bump b l).2 then [1] else []) = Nat.ofDigits b l + 1 := by
  induction l with
  | nil => simp [bump]
  | cons d rest ih =>
    rw [bump]
    split
    · rename_i hcarry
      rw [List.cons_append, Nat.ofDigits_cons, ih, Nat.ofDigits_cons]
      rw [← hcarry]
      ring
    · rw [if_neg (by simp), List.append_nil, Nat.ofDigits_cons, Nat.ofDigits_cons]
      ring

theorem ofDigits_eq_zero_iff (hb : 0 < b) (l : List ℕ) : Nat.ofDigits b l = 0 ↔ ∀ d ∈ l, d = 0 := by
  induction l with
  | nil => simp
  | cons d rest ih =>
    rw [Nat.ofDigits_cons, List.forall_mem_cons, ← ih]
    simp [hb.ne']

theorem ofDigits_map_zero (l : List ℕ) : Nat.ofDigits b (l.map fun _ => 0) = 0 := by
  simp [Nat.ofDigits_replicate_zero]

end Digits

/-- The least multiple of a step that is not below a number. -/
def ceilTo (step n : ℕ) : ℕ := n ⌈/⌉ step * step

section Steps

variable {step : ℕ} (hstep : 0 < step)
include hstep

theorem le_ceilTo (n : ℕ) : n ≤ ceilTo step n := by
  rw [ceilTo, Nat.mul_comm, ← smul_eq_mul]
  exact le_smul_ceilDiv hstep

theorem ceilTo_le {n x : ℕ} (hle : n ≤ x) (hdvd : step ∣ x) : ceilTo step n ≤ x := by
  obtain ⟨k, rfl⟩ := hdvd
  rw [ceilTo, Nat.mul_comm]
  exact Nat.mul_le_mul_left _ ((ceilDiv_le_iff_le_mul hstep).mpr hle)

theorem ceilTo_add {low : ℕ} (high : ℕ) (hlow : low < step) :
    ceilTo step (low + step * high) = step * if low = 0 then high else high + 1 := by
  apply Nat.le_antisymm
  · refine ceilTo_le hstep ?_ (dvd_mul_right _ _)
    split
    · omega
    · rw [Nat.mul_add]
      omega
  · have hle := le_ceilTo hstep (low + step * high)
    rw [ceilTo, Nat.mul_comm _ step] at hle ⊢
    apply Nat.mul_le_mul_left
    split
    · exact Nat.le_of_mul_le_mul_left ((Nat.le_add_left _ _).trans hle) hstep
    · apply Nat.lt_of_mul_lt_mul_left (a := step)
      omega

end Steps

/-- Rounding up to a number of significant digits. -/
def roundUp (b digits n : ℕ) : ℕ := ceilTo (b ^ (Nat.log b n + 1 - digits)) n

/-- No more significant digits than given, or the power that follows them. -/
def IsRounded (b digits x : ℕ) : Prop := ∃ k, b ^ k ∣ x ∧ x ≤ b ^ (k + digits)

section Rounding

variable {b digits : ℕ} (hb : 1 < b)
include hb

theorem le_roundUp (n : ℕ) : n ≤ roundUp b digits n :=
  le_ceilTo (Nat.pow_pos (by omega)) n

theorem isRounded_roundUp (n : ℕ) : IsRounded b digits (roundUp b digits n) := by
  have hpos : 0 < b := by omega
  have hlt := Nat.lt_pow_succ_log_self hb n
  refine ⟨Nat.log b n + 1 - digits, Dvd.intro_left _ rfl, ?_⟩
  apply ceilTo_le (Nat.pow_pos hpos)
  · exact hlt.le.trans (Nat.pow_le_pow_right hpos (by omega))
  · exact pow_dvd_pow b (Nat.le_add_right _ _)

theorem isRounded_iff (hdig : 0 < digits) {x : ℕ} :
    IsRounded b digits x ↔ ∃ m k, m < b ^ digits ∧ x = m * b ^ k := by
  constructor
  · rintro ⟨k, ⟨m, rfl⟩, hbound⟩
    rw [pow_add] at hbound
    have hle := Nat.le_of_mul_le_mul_left hbound (Nat.pow_pos (by omega))
    rcases hle.lt_or_eq with hlt | rfl
    · exact ⟨m, k, hlt, Nat.mul_comm _ _⟩
    · exact ⟨1, k + digits, Nat.one_lt_pow hdig.ne' hb, by rw [one_mul, pow_add]⟩
  · rintro ⟨m, k, hlt, rfl⟩
    refine ⟨k, dvd_mul_left _ _, ?_⟩
    rw [Nat.add_comm, pow_add]
    exact Nat.mul_le_mul_right _ hlt.le

theorem roundUp_le (hdig : 0 < digits) {n x : ℕ} (hle : n ≤ x) (hx : IsRounded b digits x) :
    roundUp b digits n ≤ x := by
  have hpos : 0 < b := by omega
  obtain ⟨k, hdvd, hbound⟩ := hx
  by_cases hk : Nat.log b n + 1 - digits ≤ k
  · exact ceilTo_le (Nat.pow_pos hpos) hle ((pow_dvd_pow b hk).trans hdvd)
  · -- Then the number is a power of the base, and so is its rounding.
    have hn : n ≠ 0 := fun hzero => hk (by simp [hzero]; omega)
    have hpow := Nat.pow_log_le_self b hn
    have hle' : x ≤ b ^ Nat.log b n := hbound.trans (Nat.pow_le_pow_right hpos (by omega))
    have hx : x = b ^ Nat.log b n := Nat.le_antisymm hle' (hpow.trans hle)
    exact ceilTo_le (Nat.pow_pos hpos) hle (hx ▸ pow_dvd_pow b (by omega))

theorem roundUp_mono (hdig : 0 < digits) {m n : ℕ} (hle : m ≤ n) :
    roundUp b digits m ≤ roundUp b digits n :=
  roundUp_le hb hdig (hle.trans (le_roundUp hb n)) (isRounded_roundUp hb n)

theorem roundUp_le_two_mul (hdig : 0 < digits) (n : ℕ) : roundUp b digits n ≤ 2 * n := by
  rcases Nat.eq_zero_or_pos n with rfl | hn
  · exact roundUp_le hb hdig (by omega) ⟨0, dvd_zero _, by omega⟩
  · have hpos : 0 < b ^ (Nat.log b n + 1 - digits) := Nat.pow_pos (by omega)
    have hstep : b ^ (Nat.log b n + 1 - digits) ≤ n :=
      (Nat.pow_le_pow_right (by omega) (by omega)).trans (Nat.pow_log_le_self b hn.ne')
    rw [roundUp]
    generalize b ^ (Nat.log b n + 1 - digits) = step at hpos hstep
    have hsplit := Nat.mod_add_div n step
    conv_lhs => rw [← hsplit]
    rw [ceilTo_add hpos _ (Nat.mod_lt n hpos)]
    split
    · omega
    · rw [Nat.mul_add]
      omega

end Rounding

end Monzero.Decimals
