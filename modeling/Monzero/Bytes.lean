import Monzero.Checked
import Mathlib.Tactic.Ring

/-!
Byte strings as they are hashed, stored and sent: blobs of a fixed size,
little-endian integers, and readers that take a value off the front of a
string. A reader returns the value together with the bytes that follow it.
-/
namespace Monzero.Bytes

open Checked List

/-- A value of exactly `n` bytes: a hash, a key, a signature, a network id. -/
@[ext]
structure Blob (n : ℕ) where
  bytes : List UInt8
  size_eq : bytes.length = n
deriving DecidableEq

attribute [simp] Blob.size_eq

namespace Blob

/-- The blob whose bytes are all zero. -/
def zero (n : ℕ) : Blob n := ⟨List.replicate n 0, by simp⟩

/-- One byte repeated. -/
def fill {n : ℕ} (byte : UInt8) : Blob n := ⟨List.replicate n byte, by simp⟩

instance (n : ℕ) : Inhabited (Blob n) := ⟨zero n⟩

end Blob

/-- `std::memcmp(left, right, n) < 0` on strings of the same length. -/
def memcmpLt : List UInt8 → List UInt8 → Bool
  | a :: left, b :: right => a < b || (a == b && memcmpLt left right)
  | _, _ => false

/-- The bytes of a blob as numbers. -/
def digits {n : ℕ} (b : Blob n) : List ℕ := b.bytes.map UInt8.toNat

theorem digits_injective {n : ℕ} {a b : Blob n} (h : digits a = digits b) : a = b := by
  apply Blob.ext
  apply map_injective_iff.mpr _ h
  intro x y hxy
  exact UInt8.toNat_inj.mp hxy

private theorem memcmpLt_iff_map_lt (s t : List UInt8) (hlen : s.length = t.length) :
    memcmpLt s t = true ↔ s.map UInt8.toNat < t.map UInt8.toNat := by
  induction s generalizing t with
  | nil =>
    rw [length_eq_zero_iff.mp hlen.symm]
    simp [memcmpLt]
  | cons a s ih =>
    cases t with
    | nil => simp at hlen
    | cons b t =>
      rw [map_cons, map_cons, cons_lt_cons_iff, ← ih t (by simpa using hlen)]
      simp [memcmpLt, UInt8.lt_iff_toNat_lt, UInt8.toNat_inj]

theorem memcmpLt_iff {n : ℕ} (a b : Blob n) :
    memcmpLt a.bytes b.bytes = true ↔ digits a < digits b :=
  memcmpLt_iff_map_lt a.bytes b.bytes (by simp)

/-- The low `width` bytes of a number, least significant first. -/
def leBytes : ℕ → ℕ → List UInt8
  | 0, _ => []
  | width + 1, value => UInt8.ofNat value :: leBytes width (value / 256)

/-- The number a little-endian byte string stands for. -/
def leValue : List UInt8 → ℕ
  | [] => 0
  | b :: rest => b.toNat + 256 * leValue rest

@[simp] theorem leBytes_length (width value : ℕ) : (leBytes width value).length = width := by
  induction width generalizing value with
  | zero => rfl
  | succ width ih => simp [leBytes, ih]

theorem leValue_leBytes (width : ℕ) {value : ℕ} :
    leValue (leBytes width value) = value % 256 ^ width := by
  induction width generalizing value with
  | zero => simp [leBytes, leValue, Nat.mod_one]
  | succ width ih =>
    have hbyte : (UInt8.ofNat value).toNat = value % 256 := by simp
    rw [leBytes, leValue, ih, hbyte, pow_succ', Nat.mod_mul]

theorem leBytes_injOn {width v w : ℕ} (hv : v < 256 ^ width) (hw : w < 256 ^ width)
    (h : leBytes width v = leBytes width w) : v = w := by
  have hval := congrArg leValue h
  rwa [leValue_leBytes, leValue_leBytes, Nat.mod_eq_of_lt hv, Nat.mod_eq_of_lt hw] at hval

/-- Take `n` bytes off the front, or fail with the caller's message. -/
def readPod {ε : Type} (n : ℕ) (message : ε) (s : List UInt8) :
    Except ε (Blob n × List UInt8) :=
  if h : n ≤ s.length then .ok (⟨s.take n, by simp [h]⟩, s.drop n) else .error message

@[simp] theorem readPod_append {ε : Type} {n : ℕ} (msg : ε) (b : Blob n)
    (rest : List UInt8) : readPod n msg (b.bytes ++ rest) = .ok (b, rest) := by
  have hle : n ≤ (b.bytes ++ rest).length := by simp
  have htake : (b.bytes ++ rest).take n = b.bytes := take_left' b.size_eq
  have hdrop : (b.bytes ++ rest).drop n = rest := drop_left' b.size_eq
  simp only [readPod, hle, ↓reduceDIte, htake, hdrop]

/-- A reader gives back the bytes it took: the input is the value followed by the rest. -/
theorem readPod_eq_ok {ε : Type} {n : ℕ} {msg : ε} {s : List UInt8} {b : Blob n}
    {rest : List UInt8} (h : readPod n msg s = .ok (b, rest)) : s = b.bytes ++ rest := by
  unfold readPod at h
  split at h
  · cases h
    exact (take_append_drop n s).symm
  · cases h

/-- Take a `width`-byte little-endian integer off the front. -/
def readUInt {ε : Type} (width : ℕ) (message : ε) (s : List UInt8) :
    Except ε (ℕ × List UInt8) := do
  let (b, rest) ← readPod width message s
  return (leValue b.bytes, rest)

@[simp] theorem readUInt_append {ε : Type} (width value : ℕ) (msg : ε) (rest : List UInt8) :
    readUInt width msg (leBytes width value ++ rest) = .ok (value % 256 ^ width, rest) := by
  have h := readPod_append msg (⟨leBytes width value, by simp⟩ : Blob width) rest
  simp only at h
  simp only [readUInt, h, ok_bind, leValue_leBytes]
  rfl

/-- Take one byte off the front. -/
def readByte {ε : Type} (message : ε) : List UInt8 → Except ε (UInt8 × List UInt8)
  | [] => .error message
  | b :: rest => .ok (b, rest)

@[simp] theorem readByte_cons {ε : Type} (msg : ε) (b : UInt8) (rest : List UInt8) :
    readByte msg (b :: rest) = .ok (b, rest) := rfl

/-- Take a one-byte count off the front and refuse it above a limit. -/
def readCount {ε : Type} (limit : ℕ) (message : ε) (s : List UInt8) :
    Except ε (ℕ × List UInt8) := do
  let (b, rest) ← readByte message s
  failIf (b.toNat > limit) message
  return (b.toNat, rest)

/-- Read the same kind of value `n` times. -/
def readMany {ε α : Type} (read : List UInt8 → Except ε (α × List UInt8)) :
    ℕ → List UInt8 → Except ε (List α × List UInt8)
  | 0, s => .ok ([], s)
  | n + 1, s => do
      let (a, s) ← read s
      let (rest, s) ← readMany read n s
      return (a :: rest, s)

/-- The bytes of an ASCII literal such as a domain separator. -/
def ascii (s : String) : List UInt8 := s.toList.map fun c => UInt8.ofNat c.toNat

end Monzero.Bytes
