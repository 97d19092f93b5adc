import Monzero.SentAssets

/-!
What attaching an issuance does to the native transaction. The envelope is written into the
extra field before the transaction is read again, so a call that succeeds leaves a
transaction from which the payload is recovered. A call that fails in the last step leaves
the envelope behind: it does so exactly when an envelope was written although the extra
field could not take it, or is longer than the limit for what is outside of it.
-/
namespace Monzero.AttachedIssuance

open Checked Primitives IssuanceCodec AssetWire AssetWireCodec WireParts WireRoundTrip List
  AssetRecipient AssetBuilders TxExtra AddedEnvelope SentAssets ToyCrypto ToyNode

variable {C : Crypto Key} {D : Derivations} {S : SenderPrimitives} {coins : Coins}
  {H : TransactionHashes} {tx : TransactionPrefix} {issuance : IssuancePayload}
  {recipient : AccountPublicAddress} {isSubaddress : Bool}

/-- An issuance that was created for a transaction, and its encoding, which was added to the extra
field. -/
structure Written (C : Crypto Key) (D : Derivations) (S : SenderPrimitives) (coins : Coins)
    (H : TransactionHashes) (tx : TransactionPrefix) (issuance : IssuancePayload)
    (recipient : AccountPublicAddress) (isSubaddress : Bool) (p : AssetTransactionPayload Key)
    (b : List UInt8) (fields : List TxExtraField) : Prop where
  created : ∃ carrier, getTransactionAssetCarrierHash H tx = .ok carrier ∧
    createIssuanceTransactionPayload C D S coins issuance recipient isSubaddress carrier = .ok p
  encoded : encodeAssetTransactionPayload C p = .ok b
  nonempty : b ≠ []
  size : b.length ≤ txExtraMonzeroAssetMaxCount
  parsed : parseTxExtra tx.extra = some fields
  plain : envelopes fields = []

def withEnvelope (tx : TransactionPrefix) (b : List UInt8) : TransactionPrefix :=
  { tx with extra := tx.extra ++ writeField (.monzeroAsset b) }

/-- The transaction is read again as one that carries an asset payload. -/
def ReadBack (C : Crypto Key) (H : TransactionHashes) (issuance : IssuancePayload)
    (tx : TransactionPrefix) (q : AssetTransactionPayload Key) : Prop :=
  parseNativeAssetTransaction C H tx hfVersionMonzeroAssets issuance.descriptor.network =
    .ok (some q)

section Call

variable {p : AssetTransactionPayload Key} {b : List UInt8} {fields : List TxExtraField}

theorem withEnvelope_ne (tx : TransactionPrefix) (b : List UInt8) : withEnvelope tx b ≠ tx := by
  intro heq
  have hextra := congrArg TransactionPrefix.extra heq
  cases append_right_eq_self.mp hextra

/-- Once the envelope is written, the outcome is up to reading it back. -/
theorem Written.call (h : Written C D S coins H tx issuance recipient isSubaddress p b fields) :
    (∃ q, ReadBack C H issuance (withEnvelope tx b) q) ∧
        attachIssuanceInPlace C D S coins H tx issuance recipient isSubaddress =
          (.ok p, withEnvelope tx b) ∨
      (¬∃ q, ReadBack C H issuance (withEnvelope tx b) q) ∧
        attachIssuanceInPlace C D S coins H tx issuance recipient isSubaddress =
          (.error "attached issuance envelope did not round trip", withEnvelope tx b) := by
  obtain ⟨carrier, hcar, hcreate⟩ := h.created
  have hnone : getMonzeroAssetTxExtra tx.extra = .ok none :=
    (getMonzeroAssetTxExtra_eq_ok_iff _ _).mpr ⟨fields, h.parsed, h.plain⟩
  have hadd : addMonzeroAssetTxExtra tx.extra b =
      .ok (tx.extra ++ writeField (.monzeroAsset b)) :=
    (add_eq_ok_iff _ _ _).mpr ⟨h.nonempty, h.size, ⟨fields, h.parsed, h.plain⟩, rfl⟩
  simp only [attachIssuanceInPlace, hnone, hcar, hcreate, attachPayload, h.encoded, hadd, ok_bind]
  simp only [pure, Except.pure, ok_bind]
  split
  · rename_i q hread
    exact Or.inl ⟨⟨q, hread⟩, rfl⟩
  · rename_i hread
    exact Or.inr ⟨not_exists.mpr hread, rfl⟩

theorem attachIssuanceInPlace_unwritten
    (h : ¬∃ p b fields, Written C D S coins H tx issuance recipient isSubaddress p b fields) :
    ∃ message, attachIssuanceInPlace C D S coins H tx issuance recipient isSubaddress =
      (.error message, tx) := by
  unfold attachIssuanceInPlace
  dsimp only
  split
  · rename_i message _
    exact ⟨message, rfl⟩
  · rename_i p attached hwritten
    rw [bind_eq_ok] at hwritten
    obtain ⟨existing, hnone, hwritten⟩ := hwritten
    cases existing with
    | some data => cases hwritten
    | none =>
      simp only [bind_eq_ok, pure_eq_ok, Prod.mk.injEq] at hwritten
      obtain ⟨carrier, hcar, created, hcreate, after, hatt, -⟩ := hwritten
      simp only [attachPayload, bind_eq_ok, pure_eq_ok] at hatt
      obtain ⟨b, henc, extra, hadd, -⟩ := hatt
      obtain ⟨hne, hsize, ⟨fields, hprs, hplain⟩, -⟩ := (add_eq_ok_iff _ _ _).mp hadd
      exact absurd ⟨created, b, fields, ⟨carrier, hcar, hcreate⟩, henc, hne, hsize, hprs, hplain⟩ h

end Call

theorem created_fields {car : Hash} {p : AssetTransactionPayload Key}
    (h : createIssuanceTransactionPayload C D S coins issuance recipient isSubaddress car = .ok p) :
    p.network = issuance.descriptor.network ∧ p.carrierPrefixHash = car ∧
      withKeyImages p = p ∧ ∃ amts masks pf, S.bulletproofPlusProve amts masks = .ok pf ∧
        ∀ bal ∈ p.balances, bal.rangeProofs = [pf] := by
  simp only [createIssuanceTransactionPayload, bind_eq_ok, exists_unit, mapError_eq_ok,
    pure_eq_ok] at h
  obtain ⟨-, -, -, aid, -, made, -, pf, hpf, -, rfl⟩ := h
  refine ⟨rfl, rfl, rfl, _, _, pf, hpf, ?_⟩
  intro bal hbal
  rw [issuancePayloadOf, mem_singleton] at hbal
  rw [hbal]

section Reading

variable (hprover : ∀ amounts masks proof, S.bulletproofPlusProve amounts masks = .ok proof →
  FitsRangeProof proof)
  {p : AssetTransactionPayload Key} {b : List UInt8} {fields : List TxExtraField}

include hprover

theorem Written.decodes (h : Written C D S coins H tx issuance recipient isSubaddress p b fields) :
    decodeAssetTransactionPayload C b = .ok p := by
  obtain ⟨car, -, hcreate⟩ := h.created
  obtain ⟨-, -, himages, amts, masks, pf, hpf, hranges⟩ := created_fields hcreate
  rw [← himages]
  refine (encoded_decodes_iff C p b h.encoded).mpr fun bal hbal pf' hpf' => ?_
  rw [hranges bal hbal, mem_singleton] at hpf'
  rw [hpf']
  exact hprover amts masks pf hpf

omit hprover in
/-- The fields outside the envelope are too long if a count that was cut off took it in. -/
theorem Written.appendable (h : Written C D S coins H tx issuance recipient isSubaddress p b fields)
    {q : AssetTransactionPayload Key} (hread : ReadBack C H issuance (withEnvelope tx b) q) :
    Appendable tx.extra := by
  simp only [ReadBack, parseNativeAssetTransaction, bind_eq_ok] at hread
  obtain ⟨found, hfound, hread⟩ := hread
  obtain ⟨fs', hprs', hfound⟩ := (getMonzeroAssetTxExtra_eq_ok_iff _ _).mp hfound
  refine appendable_of_parse (fun hcut => ?_) hprs'
  cases found with
  | none => cases hread
  | some encoded =>
    simp only [bind_eq_ok, failIf_eq_ok, exists_unit, not_lt] at hread
    obtain ⟨-, size, hsize, hlim, -⟩ := hread
    obtain ⟨-, data, hdata, hlarge⟩ := parse_added_cutOff h.parsed h.plain hcut h.size hprs'
    simp only [getMonzeroAssetNormalizedExtraSize, normalizedExtra, hprs', bind_eq_ok,
      pure_eq_ok] at hsize
    obtain ⟨normalized, ⟨-, -, rfl⟩, rfl⟩ := hsize
    obtain ⟨front, back, hsplit⟩ := append_of_mem (mem_filter.mpr ⟨hdata, rfl⟩ :
      TxExtraField.mysteriousMinergate data ∈ fs'.filter fun field => !isEnvelope field)
    rw [hsplit, flatMap_append, flatMap_cons, length_append, length_append,
      writeField, writeString, length_cons, length_append, maxTxExtraSize] at hlim
    omega

/-- Where the extra field can take the envelope, the payload is read back exactly if the rest is
within its limit. -/
theorem Written.readBack_iff
    (h : Written C D S coins H tx issuance recipient isSubaddress p b fields)
    (happend : Appendable tx.extra) (q : AssetTransactionPayload Key) :
    ReadBack C H issuance (withEnvelope tx b) q ↔ tx.extra.length ≤ maxTxExtraSize ∧ q = p := by
  have hdec := h.decodes hprover
  obtain ⟨car, hcar, hcreate⟩ := h.created
  obtain ⟨hnet, hbound, -⟩ := created_fields hcreate
  have hget : getMonzeroAssetTxExtra (withEnvelope tx b).extra = .ok (some b) :=
    get_added happend h.parsed h.plain h.size
  have hnormal : ∀ msg, normalizedExtra (withEnvelope tx b).extra msg = .ok tx.extra :=
    normalizedExtra_added happend h.parsed h.plain h.size
  have hsame : getTransactionAssetCarrierHash H (withEnvelope tx b) = .ok car := by
    rw [← hcar, getTransactionAssetCarrierHash, getTransactionAssetCarrierHash, hnormal,
      normalizedExtra_plain happend.whole h.parsed h.plain]
    rfl
  simp only [ReadBack, parseNativeAssetTransaction, hget, ok_bind,
    getMonzeroAssetNormalizedExtraSize, hnormal, hsame, hdec, bind_eq_ok, failIf_eq_ok,
    exists_unit, pure_eq_ok, hnet, hbound, not_lt, ne_eq, not_true_eq_false, not_false_eq_true,
    true_and, Option.some.injEq, lt_irrefl, exists_eq_left']
  exact and_congr_right fun _ => eq_comm

end Reading

/-- A call that succeeds leaves a transaction from which the payload is recovered and whose extra is
the old one with the envelope. A call that fails leaves the transaction as it was, unless an
envelope was written although the extra field cannot take one or is beyond the limit for what is
outside of one. -/
theorem attach_issuance_all_or_nothing (C : Crypto Key) (D : Derivations) (S : SenderPrimitives)
    (coins : Coins) (H : TransactionHashes) (tx : TransactionPrefix) (issuance : IssuancePayload)
    (recipient : AccountPublicAddress) (isSubaddress : Bool)
    (hprover : ∀ amounts masks proof, S.bulletproofPlusProve amounts masks = .ok proof →
      FitsRangeProof proof) :
    (∀ p tx', attachIssuanceInPlace C D S coins H tx issuance recipient isSubaddress =
        (.ok p, tx') →
      parseNativeAssetTransaction C H tx' hfVersionMonzeroAssets issuance.descriptor.network =
        .ok (some p) ∧
      (∃ b, encodeAssetTransactionPayload C p = .ok b ∧
        tx' = { tx with extra := tx.extra ++ writeField (.monzeroAsset b) }) ∧
      ∀ message, normalizedExtra tx'.extra message = .ok tx.extra) ∧
    ((∀ message tx', attachIssuanceInPlace C D S coins H tx issuance recipient isSubaddress =
        (.error message, tx') → tx' = tx) ↔
      ((∃ p b fields, Written C D S coins H tx issuance recipient isSubaddress p b fields) →
        Appendable tx.extra ∧ tx.extra.length ≤ maxTxExtraSize)) := by
  by_cases hwrites : ∃ p b fields,
      Written C D S coins H tx issuance recipient isSubaddress p b fields
  · obtain ⟨p, b, fields, hwritten⟩ := hwrites
    rcases hwritten.call with ⟨⟨q, hq⟩, hdone⟩ | ⟨hnone, hdone⟩
    · have happend := hwritten.appendable hq
      obtain ⟨hlimit, rfl⟩ := (hwritten.readBack_iff hprover happend q).mp hq
      refine ⟨fun p' tx' h => ?_, fun _ _ => ⟨happend, hlimit⟩, fun _ message tx' h => ?_⟩
      · rw [hdone] at h
        cases h
        exact ⟨hq, ⟨b, hwritten.encoded, rfl⟩,
          normalizedExtra_added happend hwritten.parsed hwritten.plain hwritten.size⟩
      · rw [hdone] at h
        cases h
    · refine ⟨fun p' tx' h => ?_, fun hkept => ?_, fun hfits => ?_⟩
      · rw [hdone] at h
        cases h
      · exact absurd (hkept _ _ hdone) (withEnvelope_ne tx b)
      · obtain ⟨happend, hlimit⟩ := hfits ⟨p, b, fields, hwritten⟩
        exact absurd ⟨p, (hwritten.readBack_iff hprover happend p).mpr ⟨hlimit, rfl⟩⟩ hnone
  · obtain ⟨message, hfail⟩ := attachIssuanceInPlace_unwritten hwrites
    refine ⟨fun p tx' h => ?_, fun _ h => absurd h hwrites, fun _ message' tx' h => ?_⟩
    · rw [hfail] at h
      cases h
    · rw [hfail] at h
      exact (Prod.mk.inj h).2.symm

def sampleAttach (extra : List UInt8) :
    Except String (AssetTransactionPayload Key) × TransactionPrefix :=
  attachIssuanceInPlace toy productDerivations productSender sampleCoins toyHashes
    { (nativeTx 1 []).toTransactionPrefix with extra } (signedIssuance sampleCollection)
    ⟨keyOfNat 40, keyOfNat 120⟩ true

theorem attach_issuance_all_or_nothing_nonce :
    ∃ p tx', sampleAttach [0x02, 0x01, 0x07] = (.ok p, tx') ∧
      parseNativeAssetTransaction toy toyHashes tx' hfVersionMonzeroAssets .mainnet =
        .ok (some p) ∧
      ∀ message, normalizedExtra tx'.extra message = .ok [0x02, 0x01, 0x07] := by
  have hok : (sampleAttach [0x02, 0x01, 0x07]).1.isOk = true := by decide +kernel
  obtain ⟨p, hp⟩ := exists_of_isOk hok
  have hcall : sampleAttach [0x02, 0x01, 0x07] = (.ok p, (sampleAttach [0x02, 0x01, 0x07]).2) :=
    Prod.fst_eq_iff.mp hp
  obtain ⟨hread, -, hextra⟩ := (attach_issuance_all_or_nothing toy productDerivations productSender
    sampleCoins toyHashes _ _ _ _ product_laws.proved).1 _ _ hcall
  exact ⟨p, _, hcall, hread, hextra⟩

/-- With padding at the end of the extra field the call fails, and the envelope stays in the
transaction, which can no longer be parsed. -/
theorem attach_issuance_leaves_envelope :
    (sampleAttach [0x00]).1.isOk = false ∧ (sampleAttach [0x00]).2.extra ≠ [0x00] ∧
      parseTxExtra [0x00] = some [.padding 1] ∧
      parseTxExtra (sampleAttach [0x00]).2.extra = none := by
  have hmessage : (sampleAttach [0x00]).1.isOk = false ∧
      (sampleAttach [0x00]).2.extra ≠ [0x00] ∧
      parseTxExtra (sampleAttach [0x00]).2.extra = none := by decide +kernel
  exact ⟨hmessage.1, hmessage.2.1, by decide, hmessage.2.2⟩

end Monzero.AttachedIssuance
