import Monzero.TxExtra

/-!
Reading an extra field and writing it again. A field that is read whole is written back as
the bytes it was read from. The one exception is a count that the end of the input cuts off:
`read_varint` then returns what it has, so a tag followed by continuation bytes alone reads
as an empty field, which is written with a count of one byte.
-/
namespace Monzero.TxExtraCodec

open Bytes Primitives TxExtra List

theorem writeVarintBytes_last (fuel : ℕ) (b : UInt8) (hlast : b.toNat < 128) :
    writeVarintBytes (fuel + 1) b.toNat = [b] := by
  rw [writeVarintBytes, if_pos hlast, UInt8.ofNat_toNat]

theorem writeVarintBytes_more (fuel m : ℕ) (b : UInt8) (hmore : ¬ b.toNat < 128) (hm : m ≠ 0) :
    writeVarintBytes (fuel + 1) (b.toNat - 128 + 128 * m) = b :: writeVarintBytes fuel m := by
  have hbyte := b.toNat_lt
  have hlow : (b.toNat - 128 + 128 * m) % 128 + 128 = b.toNat := by omega
  have hhigh : (b.toNat - 128 + 128 * m) / 128 = m := by omega
  rw [writeVarintBytes, if_neg (by omega), hlow, hhigh, UInt8.ofNat_toNat]

/-- The bytes a varint was read from, from the position `i` on: the varint itself, with a last
byte that is not zero unless it is the first, or all that was left of the input. -/
theorem readVarintFrom_spec (i value n : ℕ) (s rest : List UInt8) (hi : i ≤ 9)
    (h : readVarintFrom (7 * i) value s = some (n, rest)) : ∃ m, n = value + m * 2 ^ (7 * i) ∧
      ((s = writeVarintBytes (10 - i) m ++ rest ∧ (i ≠ 0 → m ≠ 0)) ∨
        (rest = [] ∧ (m = 0 → s = List.replicate s.length 0x80))) := by
  induction s generalizing i value with
  | nil =>
    rw [readVarintFrom] at h
    split at h
    · cases h
    · cases h
      exact ⟨0, by omega, Or.inr ⟨rfl, fun _ => rfl⟩⟩
  | cons b tail ih =>
    rw [readVarintFrom] at h
    split at h
    · cases h
    · rename_i hfits
      split at h
      · cases h
      · rename_i hzero
        split at h
        · rename_i hlast
          cases h
          refine ⟨b.toNat, rfl, Or.inl ⟨?_, ?_⟩⟩
          · rw [show 10 - i = 9 - i + 1 by omega, writeVarintBytes_last _ _ hlast]
            rfl
          · intro hne hb
            apply hzero
            refine ⟨UInt8.toNat_inj.mp hb, ?_⟩
            omega
        · rename_i hmore
          have hbyte := b.toNat_lt
          -- the tenth byte may only be zero or one, so a continued byte is not the last allowed
          have hle : i + 1 ≤ 9 := by
            by_contra hgt
            obtain rfl : i = 9 := by omega
            apply hfits
            norm_num
            omega
          have hshift : 7 * i + 7 = 7 * (i + 1) := by ring
          rw [hshift] at h
          obtain ⟨m, hn, hcases⟩ := ih (i + 1) _ hle h
          refine ⟨(b.toNat - 128) + 128 * m, ?_, ?_⟩
          · have hpow : 2 ^ (7 * (i + 1)) = 128 * 2 ^ (7 * i) := by
              rw [← hshift, pow_add]
              ring
            rw [hn, hpow]
            ring
          · rcases hcases with ⟨hs, hm⟩ | ⟨hrest, hs⟩
            · have hpos := hm (by omega)
              refine Or.inl ⟨?_, fun _ => by omega⟩
              rw [show 10 - i = 10 - (i + 1) + 1 by omega,
                writeVarintBytes_more _ _ _ hmore hpos, hs]
              rfl
            · refine Or.inr ⟨hrest, fun hzero' => ?_⟩
              have hb : b = 0x80 := UInt8.toNat_inj.mp (by
                show b.toNat = 128
                omega)
              rw [hb, length_cons, replicate_succ, ← hs (by omega)]

variable (s rest : List UInt8) (f : TxExtraField)

theorem readVarint_spec {n : ℕ} (h : readVarint s = some (n, rest)) : s = writeVarint n ++ rest ∨
      (rest = [] ∧ (n = 0 → ∃ k, s = List.replicate (k + 1) 0x80)) := by
  obtain ⟨m, hn, hcases⟩ := readVarintFrom_spec 0 0 n s rest (by omega) h
  obtain rfl : n = m := by simpa using hn
  rcases hcases with ⟨hs, -⟩ | ⟨hrest, hs⟩
  · exact Or.inl hs
  · refine Or.inr ⟨hrest, fun hzero => ?_⟩
    cases s with
    | nil => cases h
    | cons b tail => exact ⟨tail.length, hs hzero⟩

/-- A string was read from its own bytes, or it is empty and its length is cut off. -/
theorem readString_spec {s data rest : List UInt8} (h : readString s = some (data, rest)) :
    s = writeString data ++ rest ∨
      (data = [] ∧ rest = [] ∧ ∃ k, s = List.replicate (k + 1) 0x80) := by
  simp only [readString, Option.bind_eq_bind, Option.bind_eq_some_iff, Prod.exists] at h
  obtain ⟨size, after, hread, h⟩ := h
  split at h
  · cases h
  · rename_i hsize
    cases h
    rcases readVarint_spec s after hread with rfl | ⟨rfl, hcut⟩
    · left
      rw [writeString, length_take, Nat.min_eq_left (by omega), append_assoc, take_append_drop]
    · have hzero : size = 0 := by simpa using hsize
      exact Or.inr ⟨by simp, by simp, hcut hzero⟩

theorem readBlob_spec (n : ℕ) (s rest : List UInt8) (b : Blob n)
    (h : readBlob n s = some (b, rest)) : s = b.bytes ++ rest := by
  unfold readBlob at h
  cases hpod : readPod n () s with
  | error e =>
    rw [hpod] at h
    cases h
  | ok result =>
    rw [hpod] at h
    cases h
    exact readPod_eq_ok hpod

theorem readBlobs_spec (n count : ℕ) (s rest : List UInt8) (blobs : List (Blob n))
    (h : readBlobs n count s = some (blobs, rest)) :
    s = blobs.flatMap Blob.bytes ++ rest ∧ blobs.length = count := by
  induction count generalizing s blobs with
  | zero =>
    cases h
    exact ⟨rfl, rfl⟩
  | succ count ih =>
    simp only [readBlobs, Option.bind_eq_bind, Option.bind_eq_some_iff, Prod.exists,
      Option.pure_def, Option.some.injEq, Prod.mk.injEq] at h
    obtain ⟨x, after, hread, xs, after', hrest, rfl, rfl⟩ := h
    obtain ⟨hafter, hlen⟩ := ih after xs hrest
    rw [readBlob_spec n s after x hread, hafter]
    exact ⟨by simp, by simp [hlen]⟩

/-- The tags whose field starts with a count and nothing else. -/
def countedTags : List UInt8 := [0x02, 0x04, 0x7A, 0xDE]

/-- A counted field whose count the end of the input cuts off. -/
def CutOff (s : List UInt8) : Prop :=
  ∃ tag ∈ countedTags, ∃ k, s = tag :: List.replicate (k + 1) 0x80

/-- How a field was read: from the bytes it is written as, or cut off at the end of the input.
Then it is written with one byte for its count. -/
def ReadFrom (s : List UInt8) (f : TxExtraField) (rest : List UInt8) : Prop :=
  s = writeField f ++ rest ∨
    (rest = [] ∧ CutOff s ∧ ∃ tag, s.head? = some tag ∧ writeField f = [tag, 0x00])

theorem readFrom_string (tag : UInt8) (s data rest : List UInt8) (f : TxExtraField)
    (htag : tag ∈ countedTags) (hwrite : writeField f = tag :: writeString data)
    (h : readString s = some (data, rest)) : ReadFrom (tag :: s) f rest := by
  rcases readString_spec h with rfl | ⟨rfl, hrest, k, hs⟩
  · exact Or.inl (by rw [hwrite]; rfl)
  · exact Or.inr ⟨hrest, ⟨tag, htag, k, by rw [hs]⟩, tag, rfl, hwrite⟩

theorem readLimited_eq_some {limit : ℕ} (field : List UInt8 → TxExtraField)
    {s rest : List UInt8} {f : TxExtraField} (h : readLimited limit field s = some (f, rest)) :
    ∃ data, readString s = some (data, rest) ∧ f = field data := by
  simp only [readLimited, Option.bind_eq_bind, Option.bind_eq_some_iff, Prod.exists] at h
  obtain ⟨data, after, hread, h⟩ := h
  split at h
  · cases h
  · cases h
    exact ⟨data, hread, rfl⟩

theorem readFrom_limited (tag : UInt8) (limit : ℕ) (field : List UInt8 → TxExtraField)
    (s rest : List UInt8) (f : TxExtraField) (htag : tag ∈ countedTags)
    (hwrite : ∀ data, writeField (field data) = tag :: writeString data)
    (h : readLimited limit field s = some (f, rest)) : ReadFrom (tag :: s) f rest := by
  obtain ⟨data, hread, rfl⟩ := readLimited_eq_some field h
  exact readFrom_string tag s data rest _ htag (hwrite data) hread

theorem readFrom_mergeMiningTag (h : readMergeMiningTag s = some (f, rest)) :
    ReadFrom (0x03 :: s) f rest := by
  simp only [readMergeMiningTag, Option.bind_eq_bind, Option.bind_eq_some_iff, Prod.exists] at h
  obtain ⟨data, after, hstring, depth, inner, hdepth, root, last, hroot, h⟩ := h
  split at h
  · rename_i hlast
    cases h
    subst hlast
    have hinner := readBlob_spec 32 inner [] root hroot
    rw [append_nil] at hinner
    have hdata : data = writeVarint depth ++ root.bytes := by
      rcases readVarint_spec data inner hdepth with hdata | ⟨hnil, -⟩
      · rw [hdata, hinner]
      · have hsize := root.size_eq
        rw [← hinner, hnil] at hsize
        cases hsize
    rcases readString_spec hstring with rfl | ⟨hnil, -, -⟩
    · left
      rw [writeField, ← hdata]
      rfl
    · rw [hnil] at hdepth
      cases hdepth
  · cases h

theorem readFrom_additionalPubKeys {s after rest : List UInt8} {count : ℕ}
    {keys : List PublicKey} (hcnt : readVarint s = some (count, after))
    (hkeys : readBlobs 32 count after = some (keys, rest)) :
    ReadFrom (0x04 :: s) (.additionalPubKeys keys) rest := by
  obtain ⟨hafter, hlen⟩ := readBlobs_spec 32 count after rest keys hkeys
  rcases readVarint_spec s after hcnt with rfl | ⟨hnil, hcut⟩
  · left
    rw [writeField, hlen, hafter]
    simp
  · rw [hnil] at hafter
    obtain ⟨hbs, hrest⟩ := append_eq_nil_iff.mp hafter.symm
    have hkeys : keys = [] := by
      cases keys with
      | nil => rfl
      | cons key others =>
        have hsize := key.size_eq
        rw [flatMap_cons, append_eq_nil_iff] at hbs
        rw [hbs.1] at hsize
        cases hsize
    subst hkeys
    obtain ⟨k, hs⟩ := hcut hlen.symm
    exact Or.inr ⟨hrest, ⟨0x04, by decide, k, by rw [hs]⟩, 0x04, rfl, rfl⟩

theorem readField_additionalPubKeys (h : readField (0x04 :: s) = some (f, rest)) :
    ∃ count after keys, readVarint s = some (count, after) ∧
      readBlobs 32 count after = some (keys, rest) ∧ f = .additionalPubKeys keys := by
  rw [readField] at h
  simp only [show (0x04 : UInt8) ≠ 0x00 by decide, show (0x04 : UInt8) ≠ 0x01 by decide,
    show (0x04 : UInt8) ≠ 0x02 by decide, show (0x04 : UInt8) ≠ 0x03 by decide, if_true, if_false,
    Option.bind_eq_bind, Option.bind_eq_some_iff, Prod.exists, Option.pure_def] at h
  obtain ⟨count, after, hcnt, h⟩ := h
  split at h
  · cases h
  · simp only [Option.bind_eq_some_iff, Prod.exists, Option.some.injEq, Prod.mk.injEq] at h
    obtain ⟨keys, last, hread, rfl, rfl⟩ := h
    exact ⟨count, after, keys, hcnt, hread, rfl⟩

theorem readField_minergate (h : readField (0xDE :: s) = some (f, rest)) :
    ∃ data, readString s = some (data, rest) ∧ f = .mysteriousMinergate data := by
  have hread : (readString s).bind (fun r => some (TxExtraField.mysteriousMinergate r.1, r.2)) =
      some (f, rest) := h
  simp only [Option.bind_eq_some_iff, Prod.exists, Option.some.injEq, Prod.mk.injEq] at hread
  obtain ⟨data, last, hread, rfl, rfl⟩ := hread
  exact ⟨data, hread, rfl⟩

/-- Every field was read from the bytes it is written as, unless it is cut off. -/
theorem readField_spec (h : readField s = some (f, rest)) : ReadFrom s f rest := by
  cases s with
  | nil => cases h
  | cons tag after =>
    have hfield := h
    rw [readField] at h
    by_cases hpadding : tag = 0x00
    · rw [if_pos hpadding] at h
      split at h
      · rename_i hzeros
        cases h
        left
        have hall : after = List.replicate after.length 0 :=
          eq_replicate_iff.mpr ⟨rfl, by simpa using hzeros.1⟩
        rw [hpadding, writeField, Nat.add_sub_cancel, ← hall, append_nil]
      · cases h
    rw [if_neg hpadding] at h
    by_cases hpubKey : tag = 0x01
    · simp only [hpubKey, if_true, Option.bind_eq_bind, Option.bind_eq_some_iff, Prod.exists,
        Option.pure_def, Option.some.injEq, Prod.mk.injEq] at h
      obtain ⟨key, after', hread, rfl, rfl⟩ := h
      left
      rw [hpubKey, readBlob_spec 32 after _ key hread]
      rfl
    rw [if_neg hpubKey] at h
    by_cases hnonce : tag = 0x02
    · rw [if_pos hnonce] at h
      subst hnonce
      exact readFrom_limited 0x02 _ .nonce after rest f (by decide) (fun _ => rfl) h
    rw [if_neg hnonce] at h
    by_cases hmerge : tag = 0x03
    · rw [if_pos hmerge] at h
      subst hmerge
      exact readFrom_mergeMiningTag after rest f h
    rw [if_neg hmerge] at h
    by_cases hkeys : tag = 0x04
    · subst hkeys
      obtain ⟨count, after', keys, hcnt, hread, rfl⟩ :=
        readField_additionalPubKeys after rest f hfield
      exact readFrom_additionalPubKeys hcnt hread
    rw [if_neg hkeys] at h
    by_cases hasset : tag = 0x7A
    · rw [if_pos hasset] at h
      subst hasset
      exact readFrom_limited 0x7A _ .monzeroAsset after rest f (by decide) (fun _ => rfl) h
    rw [if_neg hasset] at h
    by_cases hminergate : tag = 0xDE
    · subst hminergate
      obtain ⟨data, hread, rfl⟩ := readField_minergate after rest f hfield
      exact readFrom_string 0xDE after data rest _ (by decide) rfl hread
    · rw [if_neg hminergate] at h
      cases h

theorem readVarintFrom_replicate (shift value k n : ℕ) (rest : List UInt8)
    (h : readVarintFrom shift value (List.replicate k 0x80) = some (n, rest)) :
    n = value ∧ rest = [] := by
  induction k generalizing shift value with
  | zero =>
    rw [replicate_zero, readVarintFrom] at h
    split at h
    · cases h
    · cases h
      exact ⟨rfl, rfl⟩
  | succ k ih =>
    rw [replicate_succ, readVarintFrom] at h
    split at h
    · cases h
    · rw [if_neg (by simp), if_neg (by decide)] at h
      obtain ⟨hn, hrest⟩ := ih _ _ h
      exact ⟨by simpa using hn, hrest⟩

theorem readString_replicate {k : ℕ} {data rest : List UInt8}
    (h : readString (List.replicate k 0x80) = some (data, rest)) : data = [] := by
  simp only [readString, Option.bind_eq_bind, Option.bind_eq_some_iff, Prod.exists] at h
  obtain ⟨size, after, hread, h⟩ := h
  obtain ⟨rfl, -⟩ := readVarintFrom_replicate 0 0 k size after hread
  split at h
  · cases h
  · cases h
    exact take_zero

theorem writeField_of_cutOff (hcut : CutOff s) (h : readField s = some (f, rest)) :
    s ≠ writeField f ++ rest := by
  obtain ⟨tag, htag, k, rfl⟩ := hcut
  have hemp : writeField f = [tag, 0x00] := by
    simp only [countedTags, mem_cons, not_mem_nil, or_false] at htag
    rcases htag with rfl | rfl | rfl | rfl
    · obtain ⟨data, hread, hf⟩ := readLimited_eq_some _ h
      rw [hf, readString_replicate hread]
      rfl
    · obtain ⟨count, after, keys, hcnt, hread, hf⟩ := readField_additionalPubKeys _ rest f h
      obtain ⟨rfl, rfl⟩ := readVarintFrom_replicate 0 0 _ count after hcnt
      cases hread
      rw [hf]
      rfl
    · obtain ⟨data, hread, hf⟩ := readLimited_eq_some _ h
      rw [hf, readString_replicate hread]
      rfl
    · obtain ⟨data, hread, hf⟩ := readField_minergate _ rest f h
      rw [hf, readString_replicate hread]
      rfl
  rw [hemp, replicate_succ]
  simp

/-- The fields of an extra string, read one after the other. -/
inductive Parsed : List UInt8 → List TxExtraField → Prop
  | nil : Parsed [] []
  | cons {s rest : List UInt8} {f : TxExtraField} {fields : List TxExtraField}
      (read : readField s = some (f, rest)) (later : Parsed rest fields) : Parsed s (f :: fields)

theorem parsed_of_readFields (fuel : ℕ) (e : List UInt8) (fs : List TxExtraField)
    (h : readFields fuel e = some fs) : Parsed e fs := by
  induction fuel generalizing e fs with
  | zero =>
    cases e with
    | nil =>
      cases h
      exact .nil
    | cons b tail => cases h
  | succ fuel ih =>
    cases e with
    | nil =>
      cases h
      exact .nil
    | cons b tail =>
      simp only [readFields, Option.bind_eq_bind, Option.bind_eq_some_iff, Prod.exists,
        Option.pure_def, Option.some.injEq] at h
      obtain ⟨f, rest, hread, others, hothers, rfl⟩ := h
      exact .cons hread (ih rest others hothers)

theorem envelopes_of_not_mem {e : List UInt8} {fs : List TxExtraField} (h : Parsed e fs)
    (hbyte : 0x7A ∉ e) : envelopes fs = [] := by
  induction h with
  | nil => rfl
  | cons read later ih =>
    rename_i s rest f fs
    have hspec := readField_spec s rest f read
    have hrest : 0x7A ∉ rest := by
      rcases hspec with hs | ⟨hnil, -⟩
      · rw [hs] at hbyte
        exact fun hmem => hbyte (mem_append_right _ hmem)
      · rw [hnil]
        exact not_mem_nil
    have hhead : (writeField f).head? = s.head? := by
      rcases hspec with hs | ⟨-, -, tag, hs, hwrite⟩
      · rw [hs]
        cases f <;> rfl
      · rw [hwrite, hs]
        rfl
    cases f with
    | monzeroAsset data =>
      have hmem : 0x7A ∈ s := mem_of_head? hhead.symm
      exact absurd hmem hbyte
    | _ => exact ih hrest

end Monzero.TxExtraCodec
