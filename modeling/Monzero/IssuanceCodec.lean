import Monzero.AssetTypes

/-!
Issuance payloads and the round trips of the two issuance codecs. A payload is
stored as the bytes of its canonical encoding, so what the store gives back is
the payload that was put in.
-/
namespace Monzero.IssuanceCodec

open Bytes Checked Primitives AssetTypes List

variable {K : Type} (C : Crypto K) (p : IssuancePayload) (d : IssuanceDescriptor)
  (bytes : List UInt8)

theorem validate_facts {u : Unit} (h : validateIssuanceDescriptor C d = .ok u) :
    d.network.isPublic = true ∧ d.type.isNamed = true ∧
      d.metadataReference.length ≤ maxMetadataReferenceBytes ∧ d.atomicSupply ≠ 0 := by
  simp only [validateIssuanceDescriptor, bind_eq_ok, failIf_eq_ok, exists_const,
    Bool.not_eq_false, not_lt] at h
  tauto

theorem member_not_collection {u : Unit} (h : validateIssuanceDescriptor C d = .ok u)
    (hmem : d.collectionId ≠ nullHash) : d.type ≠ .collection := by
  simp only [validateIssuanceDescriptor, bind_eq_ok, failIf_eq_ok, exists_const] at h
  tauto

theorem encodeIssuanceDescriptor_eq_ok : encodeIssuanceDescriptor C d = .ok bytes ↔
      validateIssuanceDescriptor C d = .ok () ∧ issuanceDomain ++ descriptorFields d = bytes := by
  simp only [encodeIssuanceDescriptor, bind_eq_ok, pure_eq_ok, exists_unit]

theorem deriveAssetId_eq_ok (id : Hash) :
    deriveAssetId C d = .ok id ↔ validateIssuanceDescriptor C d = .ok () ∧
      C.cnFastHash (issuanceDomain ++ descriptorFields d) = id := by
  simp only [deriveAssetId, bind_eq_ok, pure_eq_ok, encodeIssuanceDescriptor_eq_ok]
  constructor
  · rintro ⟨_, ⟨hvalid, rfl⟩, hid⟩
    exact ⟨hvalid, hid⟩
  · rintro ⟨hvalid, hid⟩
    exact ⟨_, ⟨hvalid, rfl⟩, hid⟩

private theorem descriptorFields_length : (issuanceDomain ++ descriptorFields d).length =
      descriptorFixedSize + d.metadataReference.length := by
  simp only [descriptorFields, descriptorFixedSize, length_append, length_cons,
    Blob.size_eq, leBytes_length]
  omega

theorem descriptor_length_le (h : encodeIssuanceDescriptor C d = .ok bytes) :
    bytes.length ≤ 435 := by
  obtain ⟨hvalid, rfl⟩ := (encodeIssuanceDescriptor_eq_ok C d bytes).mp h
  obtain ⟨-, -, href, -⟩ := validate_facts C d hvalid
  have hfix : descriptorFixedSize = 179 := rfl
  rw [descriptorFields_length, hfix]
  simp only [maxMetadataReferenceBytes] at href
  omega

theorem decode_encode_descriptor (h : encodeIssuanceDescriptor C d = .ok bytes) :
    decodeIssuanceDescriptor C bytes = .ok d := by
  obtain ⟨hvalid, rfl⟩ := (encodeIssuanceDescriptor_eq_ok C d bytes).mp h
  obtain ⟨hnet, htype, href, -⟩ := validate_facts C d hvalid
  have hsize : ¬(issuanceDomain ++ descriptorFields d).length < descriptorFixedSize := by
    rw [descriptorFields_length]
    omega
  have href16 : d.metadataReference.length % 256 ^ 2 = d.metadataReference.length :=
    Nat.mod_eq_of_lt (by simp only [maxMetadataReferenceBytes] at href; omega)
  have hsupply : UInt64.ofNat (d.atomicSupply.toNat % 256 ^ 8) = d.atomicSupply := by
    rw [Nat.mod_eq_of_lt (by simpa using d.atomicSupply.toNat_lt)]
    simp
  simp only [decodeIssuanceDescriptor, failIf_of_not _ hsize, ok_bind, take_left,
    drop_left, ne_eq, not_true_eq_false, not_false_eq_true, failIf_of_not]
  simp only [descriptorFields, readByte_cons, readPod_append, readUInt_append, ok_bind, href16,
    hsupply, networkOfId_networkId hnet, AssetClass.ofByte_toByte htype]
  rw [failIf_of_not _ (not_lt.mpr href), ok_bind, failIf_of_not _ (by simp), ok_bind]
  -- Structure eta: the parsed record is `d` itself.
  change (validateIssuanceDescriptor C d >>= fun _ =>
    ((encodeIssuanceDescriptor C d).mapError fun _ => _) >>= _) = _
  rw [hvalid, h, ok_bind]
  simp [Except.mapError, descriptorFields, failIf, pure, Except.pure]

theorem encode_of_decode_descriptor (h : decodeIssuanceDescriptor C bytes = .ok d) :
    encodeIssuanceDescriptor C d = .ok bytes := by
  simp only [decodeIssuanceDescriptor, bind_eq_ok, failIf_eq_ok, pure_eq_ok, mapError_eq_ok,
    exists_unit, Prod.exists, not_not, ne_eq] at h
  obtain ⟨-, -, _, _, -, _, _, -, _, _, -, _, _, -, _, _, -, _, _, -, _, _, -, _, _, -, _, _, -,
    _, _, -, -, -, -, canonical, henc, rfl, rfl⟩ := h
  exact henc

structure IssuancePayload where
  version : UInt8
  descriptor : IssuanceDescriptor
  issuerSignature : Signature
  collectionSignature : Option Signature
deriving DecidableEq

def issuancePayloadVersion : UInt8 := 1

def claimsCollection (d : IssuanceDescriptor) : Bool := d.collectionId ≠ nullHash

/-- The flag byte and, when it is set, the collection controller's signature. -/
def collectionSignatureBytes : Option Signature → List UInt8
  | none => [0]
  | some signature => 1 :: signature.bytes

/-- The bytes `encode_issuance_payload` writes after the domain. -/
def payloadFields (p : IssuancePayload) (descriptor : List UInt8) : List UInt8 :=
  p.version :: (leBytes 2 descriptor.length ++ (descriptor ++ (p.issuerSignature.bytes ++
    collectionSignatureBytes p.collectionSignature)))

def encodeIssuancePayload (C : Crypto K) (p : IssuancePayload) : Except String (List UInt8) := do
  failIf (p.version ≠ issuancePayloadVersion) "unsupported issuance payload version"
  let descriptor ← encodeIssuanceDescriptor C p.descriptor
  failIf (descriptor.length > 65535) "issuance descriptor does not fit its bounded payload"
  verifyIssuanceAuthorization C p.descriptor p.issuerSignature
  failIf (claimsCollection p.descriptor ≠ p.collectionSignature.isSome)
    (if claimsCollection p.descriptor then "collection membership signature is missing"
      else "unexpected collection signature for an uncollected asset")
  return issuancePayloadDomain ++ payloadFields p descriptor

/-- The end of `decode_issuance_payload`: the flag and the signature it announces. -/
def readCollectionSignature (s : List UInt8) :
    Except String (Option Signature × List UInt8) := do
  let (flag, s) ← readByte "truncated collection signature flag" s
  failIf (flag > 1) "invalid collection signature flag"
  if flag = 0 then
    return (none, s)
  else
    let (signature, s) ← readPod 64 "truncated collection authorization signature" s
    return (some signature, s)

def decodeIssuancePayload (C : Crypto K) (encoded : List UInt8) :
    Except String IssuancePayload := do
  failIf (encoded.length < issuancePayloadDomain.length + 1 + 2 + 64 + 1)
    "truncated issuance payload"
  failIf (encoded.take issuancePayloadDomain.length ≠ issuancePayloadDomain)
    "invalid issuance payload domain"
  let (version, s) ← readByte "truncated issuance payload"
    (encoded.drop issuancePayloadDomain.length)
  failIf (version ≠ issuancePayloadVersion) "unsupported issuance payload version"
  let (size, s) ← readUInt 2 "invalid issuance payload descriptor length" s
  failIf (size > s.length) "invalid issuance payload descriptor length"
  let descriptor ← decodeIssuanceDescriptor C (s.take size)
  let (issuerSignature, s) ← readPod 64 "truncated issuer authorization signature" (s.drop size)
  let (collectionSignature, s) ← readCollectionSignature s
  failIf (s ≠ []) "issuance payload has trailing bytes"
  let parsed : IssuancePayload := { version, descriptor, issuerSignature, collectionSignature }
  let canonical ← (encodeIssuancePayload C parsed).mapError
    fun _ => "issuance payload encoding is not canonical"
  failIf (canonical ≠ encoded) "issuance payload encoding is not canonical"
  return parsed

/-- What a successful encoding established: the descriptor encodes, its issuer signed it,
and the collection signature is there exactly when a collection is claimed. -/
theorem encodeIssuancePayload_eq_ok : encodeIssuancePayload C p = .ok bytes ↔
      ∃ desc, p.version = issuancePayloadVersion ∧
        encodeIssuanceDescriptor C p.descriptor = .ok desc ∧ desc.length ≤ 65535 ∧
        verifyIssuanceAuthorization C p.descriptor p.issuerSignature = .ok () ∧
        claimsCollection p.descriptor = p.collectionSignature.isSome ∧
        issuancePayloadDomain ++ payloadFields p desc = bytes := by
  simp only [encodeIssuancePayload, bind_eq_ok, failIf_eq_ok, pure_eq_ok, exists_unit, not_not,
    not_lt, ne_eq]
  constructor
  · rintro ⟨hver, desc, hd, hsize, hauth, hclaims, hbs⟩
    exact ⟨desc, hver, hd, hsize, hauth, hclaims, hbs⟩
  · rintro ⟨desc, hver, hd, hsize, hauth, hclaims, hbs⟩
    exact ⟨hver, desc, hd, hsize, hauth, hclaims, hbs⟩

@[simp] theorem readCollectionSignature_bytes (signature : Option Signature) :
    readCollectionSignature (collectionSignatureBytes signature) = .ok (signature, []) := by
  cases signature with
  | none => rfl
  | some signature =>
    have hread := readPod_append "truncated collection authorization signature" signature []
    rw [append_nil] at hread
    have hflag : ¬(1 : UInt8) > 1 := by decide
    simp only [readCollectionSignature, collectionSignatureBytes, readByte_cons, ok_bind,
      failIf_of_not _ hflag, hread]
    rfl

private theorem payload_size (desc : List UInt8) : issuancePayloadDomain.length + 1 + 2 + 64 + 1 ≤
      (issuancePayloadDomain ++ payloadFields p desc).length := by
  have hflag : 1 ≤ (collectionSignatureBytes p.collectionSignature).length := by
    cases p.collectionSignature <;> simp [collectionSignatureBytes]
  simp only [payloadFields, length_append, length_cons, leBytes_length, Blob.size_eq]
  omega

theorem payload_length_le (h : encodeIssuancePayload C p = .ok bytes) : bytes.length ≤ 596 := by
  obtain ⟨desc, -, hd, -, -, -, rfl⟩ := (encodeIssuancePayload_eq_ok C p bytes).mp h
  have hdesc := descriptor_length_le C p.descriptor desc hd
  have hdom : issuancePayloadDomain.length = 29 := rfl
  have hflag : (collectionSignatureBytes p.collectionSignature).length ≤ 65 := by
    cases p.collectionSignature <;> simp [collectionSignatureBytes]
  simp only [payloadFields, length_append, length_cons, leBytes_length, Blob.size_eq]
  omega

theorem decode_encode_payload (h : encodeIssuancePayload C p = .ok bytes) :
    decodeIssuancePayload C bytes = .ok p := by
  obtain ⟨desc, hver, hd, hsize, -, -, rfl⟩ :=
    (encodeIssuancePayload_eq_ok C p bytes).mp h
  have hlen := not_lt.mpr (payload_size p desc)
  have hsize16 : desc.length % 256 ^ 2 = desc.length :=
    Nat.mod_eq_of_lt (by omega)
  have hroom : ¬desc.length > (desc ++ (p.issuerSignature.bytes ++
      collectionSignatureBytes p.collectionSignature)).length := by simp
  simp only [decodeIssuancePayload, failIf_of_not _ hlen, ok_bind, take_left,
    drop_left, ne_eq, not_true_eq_false, not_false_eq_true, failIf_of_not]
  simp only [payloadFields, readByte_cons, readPod_append, readUInt_append, ok_bind, hsize16,
    take_left, drop_left, decode_encode_descriptor C _ _ hd, hver,
    not_true_eq_false, not_false_eq_true, failIf_of_not, failIf_of_not _ hroom,
    readCollectionSignature_bytes]
  rw [← hver]
  change (((encodeIssuancePayload C p).mapError fun _ => _) >>= _) = _
  rw [h]
  simp [Except.mapError, payloadFields, failIf, pure, Except.pure]

theorem encode_of_decode_payload (h : decodeIssuancePayload C bytes = .ok p) :
    encodeIssuancePayload C p = .ok bytes := by
  simp only [decodeIssuancePayload, bind_eq_ok, failIf_eq_ok, pure_eq_ok, mapError_eq_ok,
    exists_unit, not_not, ne_eq] at h
  obtain ⟨-, -, ⟨_, _⟩, -, -, ⟨_, _⟩, -, -, _, -, ⟨_, _⟩, -, ⟨_, _⟩, -, -, canonical, henc, rfl,
    rfl⟩ := h
  exact henc

end Monzero.IssuanceCodec
