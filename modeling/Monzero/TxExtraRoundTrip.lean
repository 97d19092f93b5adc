import Monzero.TxExtraCodec

/-!
Writing an extra field and reading it again. What was read once and is not padding is
read again from the bytes it is written as, whatever follows. Padding has to be the end
of the input, so nothing can be appended to it but zeros.
-/
namespace Monzero.TxExtraRoundTrip

open Bytes Primitives TxExtra TxExtraCodec List
open Blob (bytes)
open Option (bind_eq_bind bind_eq_some_iff bind_some some)
open UInt8 (ofNat toNat)

theorem readVarintFrom_written (i value n : ℕ) (rest : List UInt8) (hi : i ≤ 9)
    (hn : n < 2 ^ (64 - 7 * i)) (hzero : i ≠ 0 → n ≠ 0) :
    readVarintFrom (7 * i) value (writeVarintBytes (10 - i) n ++ rest) =
      some (value + n * 2 ^ (7 * i), rest) := by
  -- The induction is on the bytes that are left.
  obtain ⟨left, hleft⟩ : ∃ left, 9 - i = left := ⟨_, rfl⟩
  induction left generalizing i value n with
  | zero =>
    obtain rfl : i = 9 := by omega
    have hbit : n = 1 := by
      have hne := hzero (by omega)
      norm_num at hn
      omega
    subst hbit
    simp [writeVarintBytes, readVarintFrom]
  | succ left ih =>
    obtain ⟨fuel, hfuel⟩ : ∃ fuel, 10 - i = fuel + 1 := ⟨9 - i, by omega⟩
    rw [hfuel, writeVarintBytes]
    have hroom : ¬ 7 * i + 7 ≥ 64 := by omega
    by_cases hsmall : n < 128
    · have hbyte : (ofNat n).toNat = n := by
        rw [UInt8.toNat_ofNat']
        omega
      have hne : ¬ (ofNat n = 0 ∧ 7 * i ≠ 0) := by
        rintro ⟨hb, hshift⟩
        have hz := congrArg toNat hb
        rw [hbyte] at hz
        exact hzero (by omega) hz
      rw [if_pos hsmall, singleton_append, readVarintFrom, if_neg (fun h => hroom h.1),
        if_neg hne, hbyte, if_pos hsmall]
    · have hbyte : (ofNat (n % 128 + 128)).toNat = n % 128 + 128 := by
        rw [UInt8.toNat_ofNat']
        omega
      have hne : ¬ (ofNat (n % 128 + 128) = 0 ∧ 7 * i ≠ 0) := by
        rintro ⟨hb, _⟩
        have hz := congrArg toNat hb
        rw [hbyte] at hz
        cases hz
      have hhigh : n / 128 < 2 ^ (64 - 7 * (i + 1)) := by
        have hpow : 2 ^ (64 - 7 * i) = 2 ^ (64 - 7 * (i + 1)) * 128 := by
          rw [show 64 - 7 * i = 64 - 7 * (i + 1) + 7 by omega, pow_add]
          norm_num
        exact Nat.div_lt_of_lt_mul (by rw [Nat.mul_comm]; omega)
      have hnext := ih (i + 1) (value + n % 128 * 2 ^ (7 * i)) (n / 128) (by omega) hhigh
        (by omega) (by omega)
      rw [if_neg hsmall, cons_append, readVarintFrom, if_neg (fun h => hroom h.1), if_neg hne,
        hbyte, if_neg (by omega), show n % 128 + 128 - 128 = n % 128 by omega,
        show 7 * i + 7 = 7 * (i + 1) by ring, show fuel = 10 - (i + 1) by omega, hnext]
      have hsplit : n * 2 ^ (7 * i) = n % 128 * 2 ^ (7 * i) + n / 128 * 2 ^ (7 * (i + 1)) := by
        rw [show 7 * (i + 1) = 7 * i + 7 by ring, pow_add]
        conv_lhs => rw [← Nat.div_add_mod n 128]
        ring
      rw [hsplit, Nat.add_assoc]

theorem readVarint_written (n : ℕ) (rest : List UInt8) (hn : n < 2 ^ 64) :
    readVarint (writeVarint n ++ rest) = some (n, rest) := by
  have h := readVarintFrom_written 0 0 n rest (by omega) hn (by simp)
  rw [readVarint, writeVarint]
  simpa using h

theorem readVarintFrom_lt (i value n : ℕ) (s rest : List UInt8) (hi : i ≤ 9)
    (hval : value < 2 ^ (7 * i)) (h : readVarintFrom (7 * i) value s = some (n, rest)) :
    n < 2 ^ 64 := by
  induction s generalizing i value with
  | nil =>
    rw [readVarintFrom] at h
    split at h
    · cases h
    · cases h
      exact hval.trans_le (Nat.pow_le_pow_right (by decide) (by omega))
  | cons b tail ih =>
    rw [readVarintFrom] at h
    split at h
    · cases h
    rename_i hfits
    split at h
    · cases h
    split at h
    · rename_i hlast
      cases h
      by_cases hi9 : i = 9
      · subst hi9
        have hb : b.toNat < 2 := by
          by_contra hge
          exact hfits ⟨by omega, by norm_num; omega⟩
        norm_num at hval ⊢
        omega
      · have hle : b.toNat * 2 ^ (7 * i) ≤ 127 * 2 ^ (7 * i) :=
          Nat.mul_le_mul_right _ (by omega)
        have hpow : 128 * 2 ^ (7 * i) ≤ 2 ^ 64 := by
          rw [show (128 : ℕ) = 2 ^ 7 by norm_num, ← pow_add]
          exact Nat.pow_le_pow_right (by decide) (by omega)
        omega
    · rename_i hmore
      have hbyte := b.toNat_lt
      have hle : i + 1 ≤ 9 := by
        by_contra hgt
        obtain rfl : i = 9 := by omega
        apply hfits
        norm_num
        omega
      rw [show 7 * i + 7 = 7 * (i + 1) by ring] at h
      refine ih (i + 1) _ hle ?_ h
      have hmul : (b.toNat - 128) * 2 ^ (7 * i) ≤ 127 * 2 ^ (7 * i) :=
        Nat.mul_le_mul_right _ (by omega)
      rw [show 7 * (i + 1) = 7 * i + 7 by ring, pow_add]
      omega

variable {n : ℕ} {f : TxExtraField} {fs : List TxExtraField} {s rest : List UInt8}

theorem readVarint_lt (h : readVarint s = some (n, rest)) : n < 2 ^ 64 :=
  readVarintFrom_lt 0 0 n s rest (by omega) (by norm_num) h

variable {data e t : List UInt8} {limit : ℕ}

theorem readString_written (hlen : data.length < 2 ^ 64) :
    readString (writeString data ++ rest) = some (data, rest) := by
  rw [readString, writeString, append_assoc, readVarint_written _ _ hlen]
  simp

theorem readString_length_lt (h : readString s = some (data, rest)) : data.length < 2 ^ 64 := by
  simp only [readString, bind_eq_bind, bind_eq_some_iff, Prod.exists] at h
  obtain ⟨size, after, hread, h⟩ := h
  split at h
  · cases h
  · simp only [some.injEq, Prod.mk.injEq] at h
    rw [← h.1, length_take]
    have hlt := readVarint_lt hread
    omega

theorem readBlob_written (b : Blob n) (rest : List UInt8) :
    readBlob n (b.bytes ++ rest) = some (b, rest) := by
  rw [readBlob, readPod_append]
  rfl

theorem readBlobs_written (blobs : List (Blob n)) (rest : List UInt8) :
    readBlobs n blobs.length (blobs.flatMap bytes ++ rest) = some (blobs, rest) := by
  induction blobs with
  | nil => rfl
  | cons b tail ih =>
    rw [length_cons, readBlobs, flatMap_cons, append_assoc, readBlob_written]
    simp [ih]

theorem length_flatMap_bytes (blobs : List (Blob n)) :
    (blobs.flatMap bytes).length = n * blobs.length := by
  induction blobs with
  | nil => simp
  | cons b tail ih =>
    rw [flatMap_cons, length_append, b.size_eq, ih, length_cons]
    ring

/-- Fields that can be read again: they are within the limits that reading checks, and are not
padding. -/
def Writable : TxExtraField → Prop
  | .padding _ => False
  | .pubKey _ => True
  | .nonce data => data.length ≤ txExtraNonceMaxCount
  | .mergeMiningTag depth _ => depth < 2 ^ 64
  | .additionalPubKeys keys => keys.length < 2 ^ 64
  | .monzeroAsset data => data.length ≤ txExtraMonzeroAssetMaxCount
  | .mysteriousMinergate data => data.length < 2 ^ 64

theorem readLimited_written (field : List UInt8 → TxExtraField) (hlim : data.length ≤ limit)
    (hbits : limit < 2 ^ 64) :
    readLimited limit field (writeString data ++ rest) = some (field data, rest) := by
  rw [readLimited, readString_written (by omega)]
  simp only [bind_eq_bind, bind_some]
  rw [if_neg (by omega)]

theorem length_writeVarintBytes_le (fuel n : ℕ) : (writeVarintBytes fuel n).length ≤ fuel := by
  induction fuel generalizing n with
  | zero => simp [writeVarintBytes]
  | succ fuel ih =>
    rw [writeVarintBytes]
    split
    · simp
    · simpa using ih (n / 128)

theorem readMergeMiningTag_written {depth : ℕ} (root : Hash) (rest : List UInt8)
    (hdepth : depth < 2 ^ 64) :
    readMergeMiningTag (writeString (writeVarint depth ++ root.bytes) ++ rest) =
      some (.mergeMiningTag depth root, rest) := by
  have hlen : (writeVarint depth ++ root.bytes).length < 2 ^ 64 := by
    have hle := length_writeVarintBytes_le 10 depth
    have hroot := root.size_eq
    rw [length_append, writeVarint]
    omega
  rw [readMergeMiningTag, readString_written hlen]
  simp only [bind_eq_bind, bind_some]
  rw [readVarint_written _ _ hdepth]
  simp only [bind_some]
  have hroot := readBlob_written root []
  rw [append_nil] at hroot
  rw [hroot]
  simp

theorem readField_written (rest : List UInt8) (h : Writable f) :
    readField (writeField f ++ rest) = some (f, rest) := by
  cases f with
  | padding size => exact h.elim
  | pubKey key =>
    change ((readBlob 32 (key.bytes ++ rest)).bind fun r => some (TxExtraField.pubKey r.1, r.2)) = _
    rw [readBlob_written]
    rfl
  | nonce data =>
    change readLimited txExtraNonceMaxCount .nonce (writeString data ++ rest) = _
    exact readLimited_written _ h (by decide)
  | mergeMiningTag depth root =>
    change readMergeMiningTag (writeString (writeVarint depth ++ root.bytes) ++ rest) = _
    exact readMergeMiningTag_written root rest h
  | additionalPubKeys keys =>
    have hroom : ¬ (keys.flatMap bytes ++ rest).length < keys.length := by
      have hlen : (keys.flatMap bytes).length = 32 * keys.length := length_flatMap_bytes keys
      rw [length_append]
      omega
    change ((readVarint (writeVarint keys.length ++ keys.flatMap bytes ++ rest)).bind
      fun r => if r.2.length < r.1 then none
        else (readBlobs 32 r.1 r.2).bind fun q =>
          some (TxExtraField.additionalPubKeys q.1, q.2)) = _
    rw [append_assoc, readVarint_written _ _ h, bind_some, if_neg hroom, readBlobs_written]
    rfl
  | monzeroAsset data =>
    change readLimited txExtraMonzeroAssetMaxCount .monzeroAsset (writeString data ++ rest) = _
    exact readLimited_written _ h (by decide)
  | mysteriousMinergate data =>
    change ((readString (writeString data ++ rest)).bind fun r =>
      some (TxExtraField.mysteriousMinergate r.1, r.2)) = _
    rw [readString_written h]
    rfl

theorem readBlobs_length {count : ℕ} {blobs : List (Blob n)}
    (h : readBlobs n count s = some (blobs, rest)) : blobs.length = count :=
  (readBlobs_spec n count s rest blobs h).2

theorem length_le_of_readLimited {field : List UInt8 → TxExtraField}
    (h : readLimited limit field s = some (f, rest)) :
    ∃ data, f = field data ∧ data.length ≤ limit := by
  simp only [readLimited, bind_eq_bind, bind_eq_some_iff, Prod.exists] at h
  obtain ⟨data, after, _, h⟩ := h
  split at h
  · cases h
  · simp only [some.injEq, Prod.mk.injEq] at h
    exact ⟨data, h.1.symm, by omega⟩

theorem writable_of_read (h : readField s = some (f, rest)) :
    Writable f ∨ ∃ size, f = .padding size ∧ rest = [] := by
  cases s with
  | nil => cases h
  | cons tag after =>
    rw [readField] at h
    split at h
    · split at h
      · cases h
        exact Or.inr ⟨_, rfl, rfl⟩
      · cases h
    left
    split at h
    · simp only [bind_eq_bind, bind_eq_some_iff, Prod.exists] at h
      obtain ⟨key, after, _, h⟩ := h
      cases h
      trivial
    split at h
    · obtain ⟨data, rfl, hlen⟩ := length_le_of_readLimited h
      exact hlen
    split at h
    · simp only [readMergeMiningTag, bind_eq_bind, bind_eq_some_iff, Prod.exists] at h
      obtain ⟨data, after, _, depth, inner, hdepth, root, last, _, h⟩ := h
      split at h
      · cases h
        exact readVarint_lt hdepth
      · cases h
    split at h
    · simp only [bind_eq_bind, bind_eq_some_iff, Prod.exists] at h
      obtain ⟨count, after, hcnt, h⟩ := h
      split at h
      · cases h
      · simp only [bind_eq_some_iff, Prod.exists] at h
        obtain ⟨keys, last, hkeys, h⟩ := h
        cases h
        change keys.length < 2 ^ 64
        rw [readBlobs_length hkeys]
        exact readVarint_lt hcnt
    split at h
    · obtain ⟨data, rfl, hlen⟩ := length_le_of_readLimited h
      exact hlen
    split at h
    · simp only [bind_eq_bind, bind_eq_some_iff, Prod.exists] at h
      obtain ⟨data, after, hdata, h⟩ := h
      cases h
      exact readString_length_lt hdata
    · cases h

theorem writeField_ne_nil (f : TxExtraField) : writeField f ≠ [] := by
  cases f <;> simp [writeField]

theorem readField_shorter (h : readField s = some (f, rest)) : rest.length < s.length := by
  rcases readField_spec s rest f h with hs | ⟨hrest, _⟩
  · have hpos := length_pos_of_ne_nil (writeField_ne_nil f)
    rw [hs, length_append]
    omega
  · cases s with
    | nil => cases h
    | cons tag after => simp [hrest]

theorem parseTxExtra_of_parsed (h : Parsed e fs) : parseTxExtra e = some fs := by
  have hfuel : ∀ fuel, e.length ≤ fuel → readFields fuel e = some fs := by
    induction h with
    | nil =>
      intro fuel _
      cases fuel <;> rfl
    | @cons s rest f fs read later ih =>
      intro fuel hle
      have hshorter := readField_shorter read
      obtain ⟨fuel, rfl⟩ : ∃ n, fuel = n + 1 := ⟨fuel - 1, by omega⟩
      cases s with
      | nil => cases read
      | cons tag after =>
        rw [readFields, read]
        simp only [bind_eq_bind, bind_some]
        rw [ih fuel (by omega)]
        · rfl
        · simp
  exact hfuel e.length le_rfl

theorem parsed_of_parseTxExtra (h : parseTxExtra e = some fs) : Parsed e fs :=
  parsed_of_readFields e.length e fs h

theorem parsed_written_append {later : List TxExtraField}
    (h : ∀ f ∈ fs, Writable f) (ht : Parsed t later) :
    Parsed (fs.flatMap writeField ++ t) (fs ++ later) := by
  induction fs with
  | nil => exact ht
  | cons f rest ih =>
    rw [flatMap_cons, append_assoc, cons_append]
    refine .cons (readField_written _ (h f mem_cons_self)) ?_
    exact ih fun g hg => h g (mem_cons_of_mem _ hg)

theorem parsed_of_read (h : Parsed s fs) (hread : readField s = some (f, rest)) :
    ∃ later, fs = f :: later ∧ Parsed rest later := by
  cases h with
  | nil => cases hread
  | cons read later =>
    rw [hread] at read
    cases read
    exact ⟨_, rfl, later⟩

theorem parsed_front {front : List TxExtraField}
    (hfront : ∀ f ∈ front, Writable f) (h : Parsed (front.flatMap writeField ++ t) fs) :
    ∃ later, fs = front ++ later ∧ Parsed t later := by
  induction front generalizing fs with
  | nil => exact ⟨fs, rfl, h⟩
  | cons f rest ih =>
    rw [flatMap_cons, append_assoc] at h
    have hread := readField_written (rest.flatMap writeField ++ t) (hfront f mem_cons_self)
    obtain ⟨others, rfl, hothers⟩ := parsed_of_read h hread
    obtain ⟨later, rfl, hlater⟩ := ih (fun g hg => hfront g (mem_cons_of_mem _ hg)) hothers
    exact ⟨later, rfl, hlater⟩

theorem parsed_writable (h : Parsed e fs) : (∀ f ∈ fs, Writable f) ∨
      ∃ front size, fs = front ++ [.padding size] ∧ ∀ f ∈ front, Writable f := by
  induction h with
  | nil => exact Or.inl (by simp)
  | @cons s rest f fs read later ih =>
    rcases writable_of_read read with hf | ⟨size, rfl, rfl⟩
    · rcases ih with hall | ⟨front, size, rfl, hfront⟩
      · exact Or.inl (forall_mem_cons.mpr ⟨hf, hall⟩)
      · exact Or.inr ⟨f :: front, size, rfl, forall_mem_cons.mpr ⟨hf, hfront⟩⟩
    · cases later with
      | nil => exact Or.inr ⟨[], size, rfl, by simp⟩
      | cons read' later' => cases read'

end Monzero.TxExtraRoundTrip
