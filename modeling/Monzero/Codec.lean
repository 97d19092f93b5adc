import Monzero.Bytes

/-!
Readers and the writers they undo. A reader reads a format when it succeeds exactly on the
bytes that the writer gives to an allowed value, and leaves what follows them. Such a reader
accepts no other spelling of a value, and it does not look at the bytes that follow.
-/
namespace Monzero.Codec

open Bytes Checked List

variable {ε α β : Type}

/-- `read` takes off the front of a string exactly what `write` puts there. -/
def Reads (read : List UInt8 → Except ε (α × List UInt8)) (write : α → List UInt8)
    (allowed : α → Prop) : Prop :=
  ∀ s a rest, read s = .ok (a, rest) ↔ allowed a ∧ s = write a ++ rest

theorem reads_pod (n : ℕ) (msg : ε) : Reads (readPod n msg) Blob.bytes fun _ => True := by
  intro s b rest
  constructor
  · intro h
    exact ⟨trivial, readPod_eq_ok h⟩
  · rintro ⟨-, rfl⟩
    exact readPod_append msg b rest

theorem readPod_eq_ok_iff (n : ℕ) (msg : ε) (s : List UInt8) (b : Blob n)
    (rest : List UInt8) : readPod n msg s = .ok (b, rest) ↔ s = b.bytes ++ rest := by
  rw [reads_pod n msg s b rest, true_and]

theorem blob_append_inj {n : ℕ} {a b : Blob n} {rest rest' : List UInt8}
    (h : a.bytes ++ rest = b.bytes ++ rest') : a = b ∧ rest = rest' := by
  obtain ⟨hbs, hrest⟩ := append_inj h (by simp)
  exact ⟨Blob.ext hbs, hrest⟩

theorem readByte_eq_ok_iff (msg : ε) (s : List UInt8) (b : UInt8) (rest : List UInt8) :
    readByte msg s = .ok (b, rest) ↔ s = b :: rest := by
  cases s with
  | nil => simp [readByte]
  | cons c tail => simp [readByte]

theorem readCount_eq_ok_iff (limit : ℕ) (hlim : limit < 256) (msg : ε) (s : List UInt8)
    (n : ℕ) (rest : List UInt8) :
    readCount limit msg s = .ok (n, rest) ↔ n ≤ limit ∧ s = UInt8.ofNat n :: rest := by
  simp only [readCount, bind_eq_ok, failIf_eq_ok, pure_eq_ok, exists_unit, Prod.exists,
    readByte_eq_ok_iff, Prod.mk.injEq, not_lt]
  constructor
  · rintro ⟨b, tail, rfl, hle, rfl, rfl⟩
    exact ⟨hle, by rw [UInt8.ofNat_toNat]⟩
  · rintro ⟨hle, rfl⟩
    have hval : (UInt8.ofNat n).toNat = n := by
      rw [UInt8.toNat_ofNat']
      exact Nat.mod_eq_of_lt (by omega)
    exact ⟨_, rest, rfl, by rw [hval]; exact hle, hval, rfl⟩

theorem leBytes_leValue (s : List UInt8) : leBytes s.length (leValue s) = s := by
  induction s with
  | nil => rfl
  | cons b tail ih =>
    have hbyte := b.toNat_lt
    have hlow : UInt8.ofNat (b.toNat + 256 * leValue tail) = b := by
      apply UInt8.toNat_inj.mp
      rw [UInt8.toNat_ofNat']
      omega
    have hhigh : (b.toNat + 256 * leValue tail) / 256 = leValue tail := by omega
    rw [length_cons, leBytes, leValue, hlow, hhigh, ih]

theorem leValue_lt (s : List UInt8) : leValue s < 256 ^ s.length := by
  induction s with
  | nil => simp [leValue]
  | cons b tail ih =>
    have hbyte := b.toNat_lt
    rw [leValue, length_cons, pow_succ]
    omega

theorem readUInt_eq_ok_iff (width : ℕ) (msg : ε) (s : List UInt8) (n : ℕ) (rest : List UInt8) :
    readUInt width msg s = .ok (n, rest) ↔ n < 256 ^ width ∧ s = leBytes width n ++ rest := by
  constructor
  · intro h
    simp only [readUInt, bind_eq_ok, pure_eq_ok, Prod.exists, readPod_eq_ok_iff, Prod.mk.injEq] at h
    obtain ⟨b, tail, rfl, rfl, rfl⟩ := h
    have hlt := leValue_lt b.bytes
    have hround := leBytes_leValue b.bytes
    rw [b.size_eq] at hlt hround
    exact ⟨hlt, by rw [hround]⟩
  · rintro ⟨hlt, rfl⟩
    rw [readUInt_append, Nat.mod_eq_of_lt hlt]

variable {read : List UInt8 → Except ε (α × List UInt8)} {write : α → List UInt8}

/-- Reading a number of values one after the other undoes writing them one after the other. -/
theorem reads_many {allowed : α → Prop} (h : Reads read write allowed) (count : ℕ) :
    Reads (readMany read count) (List.flatMap write)
      fun l => l.length = count ∧ ∀ a ∈ l, allowed a := by
  intro s l rest
  induction count generalizing s l rest with
  | zero =>
    cases l with
    | nil => simp [readMany]
    | cons a tail => simp [readMany]
  | succ count ih =>
    simp only [readMany, bind_eq_ok, pure_eq_ok, Prod.exists, Prod.mk.injEq, h _ _ _, ih]
    constructor
    · rintro ⟨a, after, ⟨ha, rfl⟩, tail, last, ⟨⟨hlen, htail⟩, rfl⟩, rfl, rfl⟩
      refine ⟨⟨by rw [length_cons, hlen], ?_⟩, by simp⟩
      rw [forall_mem_cons]
      exact ⟨ha, htail⟩
    · rintro ⟨⟨hlen, hall⟩, rfl⟩
      cases l with
      | nil => cases hlen
      | cons a tail =>
        rw [forall_mem_cons] at hall
        refine ⟨a, _, ⟨hall.1, ?_⟩, tail, rest, ⟨⟨by simpa using hlen, hall.2⟩, rfl⟩, rfl, rfl⟩
        rw [flatMap_cons, append_assoc]

theorem readMany_eq_ok_iff (h : ∀ s a rest, read s = .ok (a, rest) ↔ s = write a ++ rest)
    (count : ℕ) (s : List UInt8) (l : List α) (rest : List UInt8) :
    readMany read count s = .ok (l, rest) ↔ l.length = count ∧ s = l.flatMap write ++ rest := by
  have hreads : Reads read write fun _ => True := by
    intro s a rest
    rw [h s a rest, true_and]
  rw [reads_many hreads count s l rest]
  simp

/-- Values written in a fixed size, one after the other, are determined by the bytes. -/
theorem flatMap_injOn (size : ℕ) (hsize : ∀ a, (write a).length = size) {l l' : List α}
    (hlen : l.length = l'.length) (hinj : ∀ a ∈ l, ∀ b ∈ l', write a = write b → a = b)
    (h : l.flatMap write = l'.flatMap write) : l = l' := by
  induction l generalizing l' with
  | nil => exact (length_eq_zero_iff.mp hlen.symm).symm
  | cons a l ih =>
    cases l' with
    | nil => cases hlen
    | cons b l' =>
      rw [flatMap_cons, flatMap_cons] at h
      obtain ⟨hhead, htail⟩ := append_inj h (by rw [hsize, hsize])
      rw [hinj a mem_cons_self b mem_cons_self hhead, ih (by simpa using hlen) ?_ htail]
      intro c hc d hd
      exact hinj c (mem_cons_of_mem _ hc) d (mem_cons_of_mem _ hd)

end Monzero.Codec
