import Monzero.Codec
import Monzero.AssetWireCodec

/-!
The parts of the wire format of an asset transaction: range proofs, pseudo inputs, outputs,
balance groups, ring members, ownership proofs and the nested issuance. Each is read from
exactly the bytes it is written as, within the limits of its reader.
-/
namespace Monzero.WireParts

open Bytes Checked Codec Primitives IssuanceCodec AssetConfidential AssetWire AssetWireCodec List

theorem readKeys_eq_ok_iff (limit : ℕ) (hlim : limit < 256) (msg : String)
    (s : List UInt8) (keys : List Key) (rest : List UInt8) :
    readKeys limit msg s = .ok (keys, rest) ↔ keys.length ≤ limit ∧ s = writeKeys keys ++ rest := by
  simp only [readKeys, bind_eq_ok, Prod.exists, readCount_eq_ok_iff limit hlim,
    readMany_eq_ok_iff (readPod_eq_ok_iff 32 msg)]
  constructor
  · rintro ⟨count, after, ⟨hcnt, rfl⟩, rfl, rfl⟩
    exact ⟨hcnt, rfl⟩
  · rintro ⟨hcnt, rfl⟩
    exact ⟨keys.length, _, ⟨hcnt, rfl⟩, rfl, rfl⟩

/-- The vectors of a range proof are within the limits of `read_range_proof`. -/
structure FitsRangeProof (proof : BulletproofPlus Key) : Prop where
  commitments : proof.V.length ≤ maxConfidentialAssetOutputs
  rounds : proof.L.length ≤ 16
  nonempty : proof.L ≠ []
  paired : proof.L.length = proof.R.length

theorem reads_rangeProof : Reads readRangeProof writeRangeProof FitsRangeProof := by
  intro s pf rest
  simp only [readRangeProof, bind_eq_ok, failIf_eq_ok, pure_eq_ok, exists_unit, Prod.exists,
    readKeys_eq_ok_iff maxConfidentialAssetOutputs (by decide), readKeys_eq_ok_iff 16 (by decide),
    readPod_eq_ok_iff, Prod.mk.injEq, not_or, not_not, ne_eq]
  constructor
  · rintro ⟨V, _, ⟨hV, rfl⟩, A, _, rfl, A1, _, rfl, B, _, rfl, r1, _, rfl, s1, _, rfl, d1, _, rfl,
      L, _, ⟨hL, rfl⟩, R, _, ⟨-, rfl⟩, ⟨hne, hpaired⟩, rfl, rfl⟩
    exact ⟨⟨hV, hL, hne, hpaired⟩, by simp [writeRangeProof]⟩
  · rintro ⟨⟨hV, hL, hne, hpaired⟩, rfl⟩
    refine ⟨pf.V, _, ⟨hV, ?_⟩, pf.A, _, rfl, pf.A1, _, rfl, pf.B, _, rfl, pf.r1, _,
      rfl, pf.s1, _, rfl, pf.d1, _, rfl, pf.L, _, ⟨hL, rfl⟩, pf.R, rest,
      ⟨hpaired ▸ hL, rfl⟩, ⟨hne, hpaired⟩, rfl, rfl⟩
    simp [writeRangeProof]

theorem readPseudoInput_eq_ok_iff (s : List UInt8) (input : ConfidentialPseudoInput Key)
    (rest : List UInt8) :
    readPseudoInput s = .ok (input, rest) ↔ s = writePseudoInput input ++ rest := by
  simp only [readPseudoInput, bind_eq_ok, pure_eq_ok, Prod.exists, readPod_eq_ok_iff, Prod.mk.injEq]
  constructor
  · rintro ⟨a, _, rfl, b, _, rfl, rfl, rfl⟩
    simp [writePseudoInput]
  · rintro rfl
    refine ⟨input.sourceAssetId, _, ?_, input.commitment, rest, rfl, rfl, rfl⟩
    simp [writePseudoInput]

theorem readOutput_eq_ok_iff (s : List UInt8) (out : AssetRecipientData Key × Key)
    (rest : List UInt8) : readOutput s = .ok (out, rest) ↔ s = writeOutput out ++ rest := by
  simp only [readOutput, bind_eq_ok, pure_eq_ok, Prod.exists, readPod_eq_ok_iff,
    readByte_eq_ok_iff, Prod.mk.injEq]
  constructor
  · rintro ⟨a, _, rfl, b, _, rfl, c, _, rfl, d, _, rfl, e, _, rfl, f, _, rfl, rfl, rfl⟩
    simp [writeOutput]
  · rintro rfl
    refine ⟨out.1.destination, _, ?_, out.2, _, rfl, out.1.txPublicKey, _, rfl,
      out.1.encryptedAmount.mask, _, rfl, out.1.encryptedAmount.amount, _, rfl,
      out.1.viewTag, rest, rfl, rfl, rfl⟩
    simp [writeOutput]

/-- A balance group with its recipients is within the limits of its reader. -/
structure FitsGroup (group : ConfidentialAssetBalance Key × List (AssetRecipientData Key)) :
    Prop where
  inputs : group.1.pseudoInputs ≠ []
  inputCount : group.1.pseudoInputs.length ≤ maxConfidentialAssetInputs
  destinations : group.1.outputs.length + group.1.burns.length ≤ maxConfidentialAssetOutputs
  recipients : group.2.length = group.1.outputs.length
  proofs : group.1.rangeProofs ≠ []
  proofCount : group.1.rangeProofs.length ≤ maxAssetRangeProofs
  ranges : ∀ proof ∈ group.1.rangeProofs, FitsRangeProof proof

private theorem burns_limit {n : ℕ} : maxConfidentialAssetOutputs - n < 256 := by
  unfold maxConfidentialAssetOutputs
  omega

theorem reads_group : Reads readGroup writeGroup FitsGroup := by
  intro s group rest
  simp only [readGroup, bind_eq_ok, failIf_eq_ok, pure_eq_ok, exists_unit, Prod.exists,
    readCount_eq_ok_iff maxConfidentialAssetInputs (by decide),
    readCount_eq_ok_iff maxConfidentialAssetOutputs (by decide),
    readCount_eq_ok_iff maxAssetRangeProofs (by decide), readPod_eq_ok_iff,
    readMany_eq_ok_iff readPseudoInput_eq_ok_iff, readMany_eq_ok_iff readOutput_eq_ok_iff,
    readKeys_eq_ok_iff _ (burns_limit), reads_many reads_rangeProof _ _ _ _, Prod.mk.injEq]
  constructor
  · rintro ⟨aid, _, rfl, ins, _, ⟨hins, rfl⟩, hsome, pseudoInputs, _, ⟨rfl, rfl⟩, count,
      _, ⟨hcnt, rfl⟩, outs, _, ⟨rfl, rfl⟩, burns, _, ⟨hburns, rfl⟩, pfs, _, ⟨hpfs, rfl⟩,
      hpf, rangeProofs, _, ⟨⟨rfl, hranges⟩, rfl⟩, rfl, rfl⟩
    refine ⟨⟨?_, hins, ?_, ?_, ?_, hpfs, hranges⟩, ?_⟩
    · exact fun hnil => hsome (length_eq_zero_iff.mpr hnil)
    · simp only [length_map]
      omega
    · simp
    · exact fun hnil => hpf (length_eq_zero_iff.mpr hnil)
    · have hzip : (outs.map Prod.fst).zip (outs.map Prod.snd) = outs := by
        rw [zip_map', map_id']
      simp [writeGroup, hzip]
  · rintro ⟨h, rfl⟩
    have hlen := h.recipients
    have hdestinations := h.destinations
    have hfst : (group.2.zip group.1.outputs).map Prod.fst = group.2 :=
      map_fst_zip hlen.le
    have hsnd : (group.2.zip group.1.outputs).map Prod.snd = group.1.outputs :=
      map_snd_zip hlen.ge
    have hcnt : (group.2.zip group.1.outputs).length = group.1.outputs.length := by
      rw [length_zip, hlen, Nat.min_self]
    refine ⟨group.1.assetId, _, ?_, group.1.pseudoInputs.length, _, ⟨h.inputCount, rfl⟩,
      fun hnil => h.inputs (length_eq_zero_iff.mp hnil), group.1.pseudoInputs, _, ⟨rfl, rfl⟩,
      group.1.outputs.length, _, ⟨by omega, rfl⟩, group.2.zip group.1.outputs, _, ⟨hcnt, rfl⟩,
      group.1.burns, _, ⟨by omega, rfl⟩, group.1.rangeProofs.length, _, ⟨h.proofCount, rfl⟩,
      fun hnil => h.proofs (length_eq_zero_iff.mp hnil), group.1.rangeProofs, rest,
      ⟨⟨rfl, h.ranges⟩, rfl⟩, ?_, rfl⟩
    · simp [writeGroup]
    · rw [hfst, hsnd]

theorem readRingMember_eq_ok_iff (s : List UInt8) (member : AssetRingMember Key)
    (rest : List UInt8) :
    readRingMember s = .ok (member, rest) ↔ s = writeRingMember member ++ rest := by
  simp only [readRingMember, bind_eq_ok, pure_eq_ok, Prod.exists, readPod_eq_ok_iff, Prod.mk.injEq]
  constructor
  · rintro ⟨a, _, rfl, b, _, rfl, c, _, rfl, d, _, rfl, rfl, rfl⟩
    simp [writeRingMember]
  · rintro rfl
    refine ⟨member.assetId, _, ?_, member.outputId, _, rfl, member.publicOutput.dest, _, rfl,
      member.publicOutput.mask, rest, rfl, rfl, rfl⟩
    simp [writeRingMember]

/-- An ownership proof as it is read: full ring and responses, and the signature's key image a
copy of the proof's. -/
structure FitsOwnershipProof (proof : AssetOwnershipProof Key) : Prop where
  ring : proof.ring.length = confidentialAssetRingSize
  responses : proof.signature.s.length = confidentialAssetRingSize
  image : proof.signature.I = proof.keyImage

theorem reads_ownershipProof : Reads readOwnershipProof writeOwnershipProof FitsOwnershipProof := by
  intro s pf rest
  simp only [readOwnershipProof, bind_eq_ok, pure_eq_ok, Prod.exists, readPod_eq_ok_iff,
    readMany_eq_ok_iff readRingMember_eq_ok_iff, Prod.mk.injEq,
    readMany_eq_ok_iff (readPod_eq_ok_iff 32 "truncated asset CLSAG responses")]
  constructor
  · rintro ⟨a, _, rfl, b, _, rfl, c, _, rfl, ring, _, ⟨hring, rfl⟩, d, _, rfl, e, _, rfl, responses,
      _, ⟨hresponses, rfl⟩, rfl, rfl⟩
    exact ⟨⟨hring, hresponses, rfl⟩, by simp [writeOwnershipProof]⟩
  · rintro ⟨h, rfl⟩
    refine ⟨pf.assetId, _, ?_, pf.pseudoInput, _, rfl, pf.keyImage, _, rfl, pf.ring, _,
      ⟨h.ring, rfl⟩, pf.signature.c1, _, rfl, pf.signature.D, _, rfl, pf.signature.s, rest,
      ⟨h.responses, rfl⟩, ?_, rfl⟩
    · simp [writeOwnershipProof]
    · have himg := h.image
      obtain ⟨aid, pseudoInput, ki, ring, ⟨responses, c1, I, D⟩⟩ := pf
      dsimp only at himg ⊢
      rw [himg]

theorem readIssuance_eq_ok_iff (C : Crypto Key) (flag : UInt8) (s : List UInt8)
    (iss : Option IssuancePayload) {rest : List UInt8} :
    (¬flag > 1 ∧ readIssuance C flag s = .ok (iss, rest)) ↔
      ∃ bytes, writeIssuance C iss = .ok bytes ∧ flag :: s = bytes ++ rest := by
  constructor
  · rintro ⟨hflag, h⟩
    by_cases hzero : flag = 0
    · rw [readIssuance, if_pos hzero] at h
      cases h
      exact ⟨[0], rfl, by rw [hzero]; rfl⟩
    · have hone : flag = 1 := by
        apply UInt8.toNat_inj.mp
        have hle : flag.toNat ≤ 1 := UInt8.le_iff_toNat_le.mp (UInt8.not_lt.mp hflag)
        have hpos : flag.toNat ≠ 0 := fun hnat => hzero (UInt8.toNat_inj.mp hnat)
        show flag.toNat = 1
        omega
      rw [readIssuance, if_neg hzero] at h
      simp only [bind_eq_ok, pure_eq_ok, Prod.exists, readUInt_eq_ok_iff, readPod_eq_ok_iff,
        Prod.mk.injEq] at h
      obtain ⟨size, _, ⟨hsize, rfl⟩, enc, _, rfl, i, hdec, rfl, rfl⟩ := h
      refine ⟨1 :: (leBytes 2 enc.bytes.length ++ enc.bytes), ?_, ?_⟩
      · simp only [writeIssuance, encode_of_decode_payload C i _ hdec, ok_bind]
        rw [failIf_of_not _ (by rw [enc.size_eq]; omega)]
        rfl
      · rw [hone, enc.size_eq, cons_append, append_assoc]
  · rintro ⟨bytes, hwrite, heq⟩
    cases iss with
    | none =>
      cases hwrite
      cases heq
      exact ⟨by decide, rfl⟩
    | some i =>
      simp only [writeIssuance, bind_eq_ok, failIf_eq_ok, pure_eq_ok, exists_unit] at hwrite
      obtain ⟨enc, henc, hsize, rfl⟩ := hwrite
      rw [cons_append] at heq
      cases heq
      refine ⟨by decide, ?_⟩
      rw [readIssuance, if_neg (by decide)]
      simp only [bind_eq_ok, pure_eq_ok, Prod.exists, readUInt_eq_ok_iff, readPod_eq_ok_iff,
        Prod.mk.injEq]
      refine ⟨enc.length, _, ⟨by omega, append_assoc ..⟩, ⟨enc, rfl⟩, rest, rfl, i,
        decode_encode_payload C i enc henc, rfl, rfl⟩

theorem writeIssuance_cons {C : Crypto Key} {iss : Option IssuancePayload}
    {bytes : List UInt8} (h : writeIssuance C iss = .ok bytes) :
    ∃ flag tail, bytes = flag :: tail := by
  cases iss with
  | none =>
    cases h
    exact ⟨0, [], rfl⟩
  | some i =>
    simp only [writeIssuance, bind_eq_ok, failIf_eq_ok, pure_eq_ok, exists_unit] at h
    obtain ⟨enc, -, -, rfl⟩ := h
    exact ⟨1, _, rfl⟩

end Monzero.WireParts
