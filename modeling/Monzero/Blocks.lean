import Mathlib.Data.List.Basic
import Mathlib.Data.Nat.Digits.Lemmas

/-!
A string cut into blocks of one length and a shorter last block, and a string of digits
written into a fixed number of places. The blocks of a string are found by their index;
the lemmas here take the first block off, so that facts about whole strings follow by
induction on the number of blocks.
-/
namespace Monzero.Blocks

open List

variable {α : Type}

/-- Block number `i` of a string that is cut every `n` places. -/
def block (n : ℕ) (s : List α) (i : ℕ) : List α := (s.drop (i * n)).take n

/-- The full blocks, in their order. -/
def fullBlocks (n : ℕ) (s : List α) : List (List α) :=
  (List.range (s.length / n)).map (block n s)

/-- What follows the full blocks. -/
def lastBlock (n : ℕ) (s : List α) : List α := s.drop (s.length / n * n)

variable {base : ℕ} {b : List α} {n : ℕ}

theorem fullBlocks_short {s : List α} (h : s.length < n) : fullBlocks n s = [] := by
  rw [fullBlocks, Nat.div_eq_of_lt h]
  rfl

theorem lastBlock_short {s : List α} (h : s.length < n) : lastBlock n s = s := by
  rw [lastBlock, Nat.div_eq_of_lt h, Nat.zero_mul, drop_zero]

theorem length_div_append (hn : 0 < n) (hb : b.length = n) (rest : List α) :
    (b ++ rest).length / n = rest.length / n + 1 := by
  rw [length_append, hb, Nat.add_div_left _ hn]

theorem length_mod_append (hb : b.length = n) (rest : List α) :
    (b ++ rest).length % n = rest.length % n := by
  rw [length_append, hb, Nat.add_mod_left]

theorem fullBlocks_append (hn : 0 < n) (hb : b.length = n) (rest : List α) :
    fullBlocks n (b ++ rest) = b :: fullBlocks n rest := by
  have hfst : block n (b ++ rest) 0 = b := by simp [block, ← hb]
  have hlater : ∀ i, block n (b ++ rest) (i + 1) = block n rest i := by
    intro i
    rw [block, block, drop_append, drop_eq_nil_of_le, nil_append, hb,
      Nat.succ_mul, Nat.add_sub_cancel]
    rw [hb, Nat.succ_mul]
    exact Nat.le_add_left n _
  rw [fullBlocks, length_div_append hn hb, range_succ_eq_map, map_cons, hfst, map_map, fullBlocks]
  exact congrArg (b :: ·) (map_congr_left fun i _ => hlater i)

theorem lastBlock_append (hn : 0 < n) (hb : b.length = n) (rest : List α) :
    lastBlock n (b ++ rest) = lastBlock n rest := by
  rw [lastBlock, length_div_append hn hb, Nat.succ_mul, Nat.add_comm, ← drop_drop,
    drop_left' hb, lastBlock]

theorem block_induction (hn : 0 < n) {P : List α → Prop} (short : ∀ s, s.length < n → P s)
    (full : ∀ b rest, b.length = n → P rest → P (b ++ rest)) (s : List α) : P s := by
  obtain ⟨count, hcnt⟩ : ∃ count, s.length / n = count := ⟨_, rfl⟩
  induction count generalizing s with
  | zero =>
    refine short s ?_
    by_contra hlong
    have : 1 ≤ s.length / n := (Nat.one_le_div_iff hn).mpr (by omega)
    omega
  | succ count ih =>
    have hlong : n ≤ s.length := (Nat.one_le_div_iff hn).mp (by omega)
    have hb : (s.take n).length = n := by simp [hlong]
    have hsplit := take_append_drop n s
    have hdiv := length_div_append hn hb (s.drop n)
    rw [hsplit] at hdiv
    rw [← hsplit]
    exact full _ _ hb (ih _ (by omega))

/-- The digits of a number in exactly `width` places, the most significant first. Places the
number does not reach hold zero. -/
def placedDigits (base : ℕ) : ℕ → ℕ → List ℕ
  | 0, _ => []
  | width + 1, n =>
      if n = 0 then List.replicate (width + 1) 0
      else placedDigits base width (n / base) ++ [n % base]

/-- The number that digits stand for, the most significant first. -/
def valueOf (base : ℕ) (ds : List ℕ) : ℕ := Nat.ofDigits base ds.reverse

@[simp] theorem length_placedDigits (base width n : ℕ) :
    (placedDigits base width n).length = width := by
  induction width generalizing n with
  | zero => rfl
  | succ width ih =>
    rw [placedDigits]
    split
    · simp
    · simp [ih]

theorem placedDigits_lt (hbase : 0 < base) (width n : ℕ) :
    ∀ d ∈ placedDigits base width n, d < base := by
  induction width generalizing n with
  | zero => simp [placedDigits]
  | succ width ih =>
    intro d hd
    rw [placedDigits] at hd
    split at hd
    · rw [eq_of_mem_replicate hd]
      exact hbase
    · rcases mem_append.mp hd with hd | hd
      · exact ih _ d hd
      · rw [mem_singleton.mp hd]
        exact Nat.mod_lt n hbase

theorem valueOf_placedDigits (width n : ℕ) (hn : n < base ^ width) :
    valueOf base (placedDigits base width n) = n := by
  induction width generalizing n with
  | zero =>
    obtain rfl : n = 0 := by simpa using hn
    rfl
  | succ width ih =>
    rw [placedDigits]
    split
    · rename_i hzero
      rw [valueOf, reverse_replicate, Nat.ofDigits_replicate_zero, hzero]
    · have hquot : n / base < base ^ width := Nat.div_lt_of_lt_mul (by rwa [← pow_succ'])
      have hrec := ih (n / base) hquot
      rw [valueOf] at hrec
      rw [valueOf, reverse_append, reverse_singleton, singleton_append, Nat.ofDigits_cons, hrec]
      exact Nat.mod_add_div n base

theorem valueOf_lt (hbase : 1 < base) {ds : List ℕ} (hds : ∀ d ∈ ds, d < base) :
    valueOf base ds < base ^ ds.length := by
  have h := Nat.ofDigits_lt_base_pow_length hbase (l := ds.reverse) (by simpa using hds)
  rwa [length_reverse] at h

theorem placedDigits_valueOf (hbase : 1 < base) {ds : List ℕ} (hds : ∀ d ∈ ds, d < base) :
    placedDigits base ds.length (valueOf base ds) = ds := by
  have hval := valueOf_placedDigits ds.length (valueOf base ds) (valueOf_lt hbase hds)
  apply reverse_injective
  refine Nat.ofDigits_inj_of_len_eq hbase (by simp) ?_ (by simpa using hds) hval
  intro d hd
  exact placedDigits_lt (by omega) _ _ d (mem_reverse.mp hd)

end Monzero.Blocks
