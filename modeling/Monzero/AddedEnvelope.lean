import Monzero.AssetBuilders
import Monzero.CarrierExtra
import Monzero.TxExtraRoundTrip

/-!
What an added envelope is read as. The envelope is appended to an extra field that could be
parsed, and the parser takes the fields before it as it did, unless the last of them reads
on into the envelope. Padding does, since it runs to the end; and so does a count that
the end of the extra field cut off, since it is continued by the tag of the envelope.
-/
namespace Monzero.AddedEnvelope

open Checked Primitives TxExtra TxExtraCodec TxExtraRoundTrip CarrierExtra AssetBuilders List

/-- The last field of an extra string ends with it, whatever is appended. -/
structure Appendable (e : List UInt8) : Prop where
  whole : ¬EndsCutOff e
  unpadded : ∀ fields, parseTxExtra e = some fields → ∀ size, .padding size ∉ fields

theorem getMonzeroAssetTxExtra_eq_ok_iff (e : List UInt8) (found : Option (List UInt8)) :
    getMonzeroAssetTxExtra e = .ok found ↔
      ∃ fs, parseTxExtra e = some fs ∧ envelopes fs = found.toList := by
  rw [getMonzeroAssetTxExtra]
  cases parseTxExtra e with
  | none => simp
  | some fs =>
    simp only [Option.some.injEq, exists_eq_left']
    rcases envelopes fs with _ | ⟨data, _ | ⟨data', rest⟩⟩ <;> cases found <;> simp

theorem add_eq_ok_iff (e q e' : List UInt8) : addMonzeroAssetTxExtra e q = .ok e' ↔
      q ≠ [] ∧ q.length ≤ txExtraMonzeroAssetMaxCount ∧
        (∃ fs, parseTxExtra e = some fs ∧ envelopes fs = []) ∧
        e' = e ++ writeField (.monzeroAsset q) := by
  have hnone := getMonzeroAssetTxExtra_eq_ok_iff e none
  rw [Option.toList_none] at hnone
  simp only [addMonzeroAssetTxExtra, bind_eq_ok, failIf_eq_ok, exists_unit, not_or, not_lt,
    ← hnone, and_assoc]
  constructor
  · rintro ⟨hne, hsize, existing, hexisting, h⟩
    cases existing with
    | some data => cases h
    | none =>
      rw [pure_eq_ok] at h
      exact ⟨hne, hsize, hexisting, h.symm⟩
  · rintro ⟨hne, hsize, hexisting, rfl⟩
    exact ⟨hne, hsize, none, hexisting, rfl⟩

section Added

variable {e q : List UInt8} {fs : List TxExtraField}

theorem envelopes_append (fs later : List TxExtraField) :
    envelopes (fs ++ later) = envelopes fs ++ envelopes later :=
  filterMap_append

/-- After an extra string that takes nothing of it, the envelope is the last field. -/
theorem parse_added (happend : Appendable e) (hparse : parseTxExtra e = some fs)
    (hsize : q.length ≤ txExtraMonzeroAssetMaxCount) :
    parseTxExtra (e ++ writeField (.monzeroAsset q)) = some (fs ++ [.monzeroAsset q]) := by
  have hprs := parsed_of_parseTxExtra hparse
  have hbs := (parsed_written hprs).mpr happend.whole
  have hwritable : Writable (.monzeroAsset q) := hsize
  have hlast : Parsed (writeField (.monzeroAsset q)) [.monzeroAsset q] := by
    have hread := readField_written [] hwritable
    rw [append_nil] at hread
    exact .cons hread .nil
  rcases parsed_writable hprs with hall | ⟨front, size, rfl, -⟩
  · have hwhole := parsed_written_append hall hlast
    rw [hbs] at hwhole
    exact parseTxExtra_of_parsed hwhole
  · exact absurd (mem_append_right _ (mem_singleton_self _)) (happend.unpadded _ hparse size)

theorem normalizedExtra_plain (hwhole : ¬EndsCutOff e) (hprs : parseTxExtra e = some fs)
    (hplain : envelopes fs = []) (msg : String) : normalizedExtra e msg = .ok e := by
  have hbs := (parsed_written (parsed_of_parseTxExtra hprs)).mpr hwhole
  simp only [normalizedExtra, hprs, hplain, length_nil, gt_iff_lt, Nat.not_lt_zero,
    failIf_of_not, not_false_eq_true, ok_bind, filter_plain hplain, hbs]
  rfl

theorem normalizedExtra_added (happend : Appendable e) (hprs : parseTxExtra e = some fs)
    (hplain : envelopes fs = []) (hsize : q.length ≤ txExtraMonzeroAssetMaxCount) (msg : String) :
    normalizedExtra (e ++ writeField (.monzeroAsset q)) msg = .ok e := by
  have hbs := (parsed_written (parsed_of_parseTxExtra hprs)).mpr happend.whole
  rw [normalizedExtra_of_one msg (parse_added happend hprs hsize)
    (by rw [append_nil]; exact hplain), flatMap_nil, append_nil, hbs]

theorem parse_added_padding {size : ℕ} (hparse : parseTxExtra e = some fs)
    (hwhole : ¬EndsCutOff e) (hpadding : .padding size ∈ fs) :
    parseTxExtra (e ++ writeField (.monzeroAsset q)) = none := by
  have hprs := parsed_of_parseTxExtra hparse
  have hbs := (parsed_written hprs).mpr hwhole
  rcases parsed_writable hprs with hall | ⟨front, size', rfl, hfront⟩
  · exact absurd (hall _ hpadding) id
  · by_contra hsome
    obtain ⟨fs', hfields'⟩ := Option.ne_none_iff_exists'.mp hsome
    have hafter := parsed_of_parseTxExtra hfields'
    rw [← hbs, flatMap_append, append_assoc] at hafter
    obtain ⟨later, -, hlater⟩ := parsed_front hfront hafter
    rw [flatMap_singleton] at hlater
    cases hlater with
    | cons read rest => simp [writeField, readField] at read

theorem appendable_of_parse {fs' : List TxExtraField} (hwhole : ¬EndsCutOff e)
    (hprs' : parseTxExtra (e ++ writeField (.monzeroAsset q)) = some fs') : Appendable e := by
  refine ⟨hwhole, fun fs hprs size hpadding => ?_⟩
  rw [parse_added_padding hprs hwhole hpadding] at hprs'
  cases hprs'

theorem get_added (happend : Appendable e) (hprs : parseTxExtra e = some fs)
    (hplain : envelopes fs = []) (hsize : q.length ≤ txExtraMonzeroAssetMaxCount) :
    getMonzeroAssetTxExtra (e ++ writeField (.monzeroAsset q)) = .ok (some q) := by
  refine (getMonzeroAssetTxExtra_eq_ok_iff _ _).mpr ⟨_, parse_added happend hprs hsize, ?_⟩
  rw [envelopes_append, hplain]
  rfl

end Added

/-- A count that was cut off goes on into the tag of the envelope, and is large. -/
theorem readVarintFrom_continued (shift value k n : ℕ) (s rest : List UInt8)
    (h : readVarintFrom shift value (List.replicate k 0x80 ++ 0x7A :: s) = some (n, rest)) :
    rest = s ∧ n = value + 122 * 2 ^ (shift + 7 * k) := by
  induction k generalizing shift with
  | zero =>
    simp only [replicate_zero, nil_append, readVarintFrom] at h
    split at h
    · cases h
    · split at h
      · cases h
      · rw [if_pos (by decide)] at h
        cases h
        exact ⟨rfl, rfl⟩
  | succ k ih =>
    rw [replicate_succ, cons_append, readVarintFrom] at h
    split at h
    · cases h
    · split at h
      · cases h
      · rw [if_neg (by decide), show ((0x80 : UInt8).toNat - 128) * 2 ^ shift = 0 by simp,
          Nat.add_zero] at h
        obtain ⟨hrest, hn⟩ := ih (shift + 7) h
        refine ⟨hrest, ?_⟩
        rw [hn, show shift + 7 + 7 * k = shift + 7 * (k + 1) by omega]

theorem readVarint_continued {k n : ℕ} {s rest : List UInt8}
    (h : readVarint (List.replicate (k + 1) 0x80 ++ 0x7A :: s) = some (n, rest)) :
    rest = s ∧ 15616 ≤ n := by
  obtain ⟨hrest, hn⟩ := readVarintFrom_continued 0 0 (k + 1) n s rest h
  refine ⟨hrest, ?_⟩
  have hpow : 2 ^ 7 ≤ 2 ^ (7 * (k + 1)) := Nat.pow_le_pow_right (by decide) (by omega)
  rw [hn, Nat.zero_add, Nat.zero_add]
  omega

theorem readString_continued {k : ℕ} {s data rest : List UInt8}
    (h : readString (List.replicate (k + 1) 0x80 ++ 0x7A :: s) = some (data, rest)) :
    15616 ≤ data.length ∧ s.length = data.length + rest.length := by
  simp only [readString, Option.bind_eq_bind, Option.bind_eq_some_iff, Prod.exists] at h
  obtain ⟨size, after, hread, h⟩ := h
  obtain ⟨rfl, hlarge⟩ := readVarint_continued hread
  split at h
  · cases h
  · rename_i hsize
    cases h
    rw [length_take, length_drop]
    omega

theorem length_envelope {e : List UInt8} {fs : List TxExtraField} (h : Parsed e fs)
    {data : List UInt8} (hdata : data ∈ envelopes fs) : data.length < e.length := by
  induction h with
  | nil => cases hdata
  | @cons s rest f fs read later ih =>
    rw [mem_envelopes, mem_cons] at hdata
    rcases hdata with rfl | hdata
    · have hlen : (writeField (.monzeroAsset data)).length ≤ s.length := by
        rcases readField_spec s rest _ read with hs | ⟨-, ⟨tag, -, k, hs⟩, tag', -, hwrite⟩
        · rw [hs, length_append]
          omega
        · rw [hs, hwrite]
          simp
      simp only [writeField, writeString, length_cons, length_append] at hlen
      omega
    · have hshorter := readField_shorter read
      have hrest := ih (mem_envelopes.mpr hdata)
      omega

/-- What the envelope is read as after a count that was cut off: only one kind of field can take so
many bytes, and then the envelope is in its data. -/
theorem readField_continued {t q rest rest₀ : List UInt8} {f f₀ : TxExtraField} (hcut : CutOff t)
    (hread₀ : readField t = some (f₀, rest₀)) (hplain : ∀ data, f₀ ≠ .monzeroAsset data)
    (hsize : q.length ≤ txExtraMonzeroAssetMaxCount)
    (h : readField (t ++ writeField (.monzeroAsset q)) = some (f, rest)) :
    ∃ data, f = .mysteriousMinergate data ∧ 15616 ≤ data.length ∧ rest.length < q.length := by
  obtain ⟨tag, htag, k, rfl⟩ := hcut
  have hcnt : (writeVarint q.length).length ≤ 10 := length_writeVarintBytes_le 10 q.length
  have hbound : (writeString q).length ≤ q.length + 10 := by
    rw [writeString, length_append]
    omega
  rw [cons_append, writeField] at h
  simp only [countedTags, mem_cons, not_mem_nil, or_false] at htag
  rcases htag with rfl | rfl | rfl | rfl
  · -- a nonce is short
    obtain ⟨data, hread, rfl⟩ := readLimited_eq_some _ h
    have hlarge := (readString_continued hread).1
    obtain ⟨data', hdata, hlim⟩ := length_le_of_readLimited h
    cases hdata
    rw [txExtraNonceMaxCount] at hlim
    omega
  · -- so many keys take more bytes than there are
    obtain ⟨count, after, keys, hread, hkeys, rfl⟩ := readField_additionalPubKeys _ rest f h
    obtain ⟨rfl, hlarge⟩ := readVarint_continued hread
    obtain ⟨hbs, hlen⟩ := readBlobs_spec 32 count _ rest keys hkeys
    have htotal := congrArg List.length hbs
    rw [length_append, length_flatMap_bytes, hlen] at htotal
    rw [txExtraMonzeroAssetMaxCount] at hsize
    omega
  · -- a cut off envelope is an envelope
    obtain ⟨data, -, hdata⟩ := readLimited_eq_some _ hread₀
    exact absurd hdata (hplain data)
  · obtain ⟨data, hread, rfl⟩ := readField_minergate _ rest f h
    obtain ⟨hlarge, htotal⟩ := readString_continued hread
    exact ⟨data, rfl, hlarge, by omega⟩

/-- After a count that was cut off the envelope is not found, and if anything can be read at all, a
long field has taken its place. -/
theorem parse_added_cutOff {e q : List UInt8} {fs fs' : List TxExtraField}
    (hparse : parseTxExtra e = some fs) (hplain : envelopes fs = []) (hcut : EndsCutOff e)
    (hsize : q.length ≤ txExtraMonzeroAssetMaxCount)
    (hprs' : parseTxExtra (e ++ writeField (.monzeroAsset q)) = some fs') :
    q ∉ envelopes fs' ∧ ∃ data, .mysteriousMinergate data ∈ fs' ∧ 15616 ≤ data.length := by
  obtain ⟨t, hboundary, hcut⟩ := hcut
  have hprs := parsed_of_parseTxExtra hparse
  have hne : t ≠ [] := by
    obtain ⟨tag, -, k, rfl⟩ := hcut
    exact cons_ne_nil _ _
  obtain ⟨before, later, rfl, hlater, he⟩ := parsed_boundary e t fs hboundary hprs hne
  rw [envelopes_append, append_eq_nil_iff] at hplain
  cases hlater with
  | nil => exact absurd rfl hne
  | @cons _ rest₀ f₀ others hread₀ hothers =>
    have hbefore : ∀ f ∈ before, Writable f := by
      rcases parsed_writable hprs with hall | ⟨front, size, hsplit, hfront⟩
      · exact fun f hf => hall f (mem_append_left _ hf)
      · -- padding is the last field, so it is not before the cut off one
        have hdrop := congrArg List.dropLast hsplit
        rw [dropLast_append_of_ne_nil (cons_ne_nil _ _), dropLast_concat] at hdrop
        intro f hf
        refine hfront f ?_
        rw [← hdrop]
        exact mem_append_left _ hf
    have hplain₀ : ∀ data, f₀ ≠ .monzeroAsset data := by
      rintro data rfl
      have hmem : data ∈ envelopes (.monzeroAsset data :: others) :=
        mem_envelopes.mpr mem_cons_self
      rw [hplain.2] at hmem
      cases hmem
    have hafter := parsed_of_parseTxExtra hprs'
    rw [he, append_assoc] at hafter
    obtain ⟨later', rfl, hlater'⟩ := parsed_front hbefore hafter
    generalize hs : t ++ writeField (.monzeroAsset q) = s at hlater'
    cases hlater' with
    | nil => exact absurd (append_eq_nil_iff.mp hs).1 hne
    | @cons _ rest' f' others' hread' hothers' =>
      rw [← hs] at hread'
      obtain ⟨data, rfl, hlarge, hshort⟩ := readField_continued hcut hread₀ hplain₀ hsize hread'
      refine ⟨?_, data, mem_append_right _ mem_cons_self, hlarge⟩
      intro hmem
      rw [envelopes_append, hplain.1, nil_append] at hmem
      have hlen := length_envelope hothers' hmem
      omega

/-- An envelope can be read after it was added, and the carrier is the same, exactly when the extra
field ended where its last field did. -/
theorem added_envelope_iff (H : TransactionHashes) (e q e' : List UInt8)
    (h : addMonzeroAssetTxExtra e q = .ok e') :
    (getMonzeroAssetTxExtra e' = .ok (some q) ∧
      ∀ tx : TransactionPrefix, tx.extra = e →
        getTransactionAssetCarrierHash H { tx with extra := e' } =
          getTransactionAssetCarrierHash H tx) ↔ Appendable e := by
  obtain ⟨-, hsize, ⟨fields, hparse, hplain⟩, rfl⟩ := (add_eq_ok_iff e q e').mp h
  constructor
  · rintro ⟨hget, -⟩
    obtain ⟨fields', hparse', hfound⟩ := (getMonzeroAssetTxExtra_eq_ok_iff _ _).mp hget
    have hwhole : ¬EndsCutOff e := by
      intro hcut
      refine (parse_added_cutOff hparse hplain hcut hsize hparse').1 ?_
      rw [hfound]
      exact mem_singleton_self q
    exact appendable_of_parse hwhole hparse'
  · intro happend
    refine ⟨get_added happend hparse hplain hsize, ?_⟩
    rintro tx rfl
    rw [getTransactionAssetCarrierHash, getTransactionAssetCarrierHash,
      normalizedExtra_added happend hparse hplain hsize,
      normalizedExtra_plain happend.whole hparse hplain]

theorem appendable_nonce : Appendable [0x02, 0x01, 0x07] := by
  have hprs : parseTxExtra [0x02, 0x01, 0x07] = some [.nonce [0x07]] := by decide +kernel
  refine ⟨(parsed_written (parsed_of_parseTxExtra hprs)).mp (by decide +kernel), ?_⟩
  intro fs hfields size
  rw [hprs] at hfields
  cases hfields
  simp

theorem added_envelope_iff_nonce :
    addMonzeroAssetTxExtra [0x02, 0x01, 0x07] [0x05] =
        .ok [0x02, 0x01, 0x07, 0x7A, 0x01, 0x05] ∧
      getMonzeroAssetTxExtra [0x02, 0x01, 0x07, 0x7A, 0x01, 0x05] = .ok (some [0x05]) := by
  have hadd : addMonzeroAssetTxExtra [0x02, 0x01, 0x07] [0x05] =
      .ok [0x02, 0x01, 0x07, 0x7A, 0x01, 0x05] := by decide +kernel
  exact ⟨hadd, ((added_envelope_iff ⟨fun _ => nullHash, fun _ => nullHash⟩ _ _ _ hadd).mpr
    appendable_nonce).1⟩

/-- After padding, and after a count that is cut off, an envelope is added that cannot be read. -/
theorem added_envelope_unreadable :
    addMonzeroAssetTxExtra [0x00] [0x05] = .ok [0x00, 0x7A, 0x01, 0x05] ∧
      getMonzeroAssetTxExtra [0x00, 0x7A, 0x01, 0x05] =
        .error "failed to parse transaction extra" ∧
      addMonzeroAssetTxExtra [0xDE, 0x80] [0x05] = .ok [0xDE, 0x80, 0x7A, 0x01, 0x05] ∧
      getMonzeroAssetTxExtra [0xDE, 0x80, 0x7A, 0x01, 0x05] =
        .error "failed to parse transaction extra" := by
  decide +kernel

end Monzero.AddedEnvelope
