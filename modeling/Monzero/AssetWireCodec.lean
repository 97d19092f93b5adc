import Monzero.AssetWire

/-!
The byte format of an asset transaction payload, as it travels in the extra field
of its carrier. Counts are single bytes with limits, keys are copied as they are,
and the issuance is nested with a two-byte length. A decoded payload has passed the
shape check, and its issuance was itself decoded canonically.
-/
namespace Monzero.AssetWireCodec

open Bytes Checked Primitives IssuanceCodec AssetConfidential AssetWire

def maxAssetWireBytes : ℕ := 256 * 1024

/-- `static_cast<uint8_t>(network)`. -/
def networkByte : NetworkType → UInt8
  | .mainnet => 0
  | .testnet => 1
  | .stagenet => 2
  | .fakechain => 3
  | .undefined => 255

/-- `static_cast<network_type>(byte)`. A byte that names no network is as little public as
`UNDEFINED`, and the shape check rejects both alike. -/
def networkOfByte (b : UInt8) : NetworkType :=
  if b = 0 then .mainnet
  else if b = 1 then .testnet
  else if b = 2 then .stagenet
  else if b = 3 then .fakechain
  else .undefined

def writeKeys (keys : List Key) : List UInt8 :=
  UInt8.ofNat keys.length :: keys.flatMap Blob.bytes

def writeRangeProof (proof : BulletproofPlus Key) : List UInt8 :=
  writeKeys proof.V ++ (proof.A.bytes ++ (proof.A1.bytes ++ (proof.B.bytes ++ (proof.r1.bytes ++
    (proof.s1.bytes ++ (proof.d1.bytes ++ (writeKeys proof.L ++ writeKeys proof.R)))))))

def writePseudoInput (input : ConfidentialPseudoInput Key) : List UInt8 :=
  input.sourceAssetId.bytes ++ input.commitment.bytes

/-- One output of a group: the recipient's data around the commitment. -/
def writeOutput (output : AssetRecipientData Key × Key) : List UInt8 :=
  output.1.destination.bytes ++ (output.2.bytes ++ (output.1.txPublicKey.bytes ++
    (output.1.encryptedAmount.mask.bytes ++ (output.1.encryptedAmount.amount.bytes ++
    [output.1.viewTag]))))

def writeGroup (group : ConfidentialAssetBalance Key × List (AssetRecipientData Key)) :
    List UInt8 :=
  group.1.assetId.bytes ++ (UInt8.ofNat group.1.pseudoInputs.length ::
    (group.1.pseudoInputs.flatMap writePseudoInput ++ (UInt8.ofNat group.1.outputs.length ::
    ((group.2.zip group.1.outputs).flatMap writeOutput ++ (writeKeys group.1.burns ++
    (UInt8.ofNat group.1.rangeProofs.length :: group.1.rangeProofs.flatMap writeRangeProof))))))

def writeRingMember (member : AssetRingMember Key) : List UInt8 :=
  member.assetId.bytes ++ (member.outputId.bytes ++ (member.publicOutput.dest.bytes ++
    member.publicOutput.mask.bytes))

def writeOwnershipProof (proof : AssetOwnershipProof Key) : List UInt8 :=
  proof.assetId.bytes ++ (proof.pseudoInput.bytes ++ (proof.keyImage.bytes ++
    (proof.ring.flatMap writeRingMember ++ (proof.signature.c1.bytes ++
    (proof.signature.D.bytes ++ proof.signature.s.flatMap Blob.bytes)))))

/-- The issuance flag, and the issuance with its length when there is one. -/
def writeIssuance (C : Crypto Key) : Option IssuancePayload → Except String (List UInt8)
  | none => return [0]
  | some issuance => do
      let encoded ← encodeIssuancePayload C issuance
      failIf (encoded.length > 65535) "asset issuance payload is too large"
      return 1 :: (leBytes 2 encoded.length ++ encoded)

def encodeAssetTransactionPayload (C : Crypto Key) (p : AssetTransactionPayload Key) :
    Except String (List UInt8) := do
  validateAssetTransactionPayloadShape p
  let issuance ← writeIssuance C p.issuance
  let encoded := p.version :: networkByte p.network :: (p.carrierPrefixHash.bytes ++ (issuance ++
    (UInt8.ofNat p.balances.length :: ((p.balances.zip p.outputRecipients).flatMap writeGroup ++
    (UInt8.ofNat p.ownershipProofs.length :: p.ownershipProofs.flatMap writeOwnershipProof)))))
  failIf (encoded.length > maxAssetWireBytes) "asset transaction payload exceeds maximum size"
  return encoded

def readKeys (limit : ℕ) (message : String) (s : List UInt8) :
    Except String (List Key × List UInt8) := do
  let (count, s) ← readCount limit message s
  readMany (readPod 32 message) count s

/-- The message of a range proof that does not parse. -/
def badRangeProof : String := "truncated or noncanonical asset range proof"

def readRangeProof (s : List UInt8) : Except String (BulletproofPlus Key × List UInt8) := do
  let (V, s) ← readKeys maxConfidentialAssetOutputs badRangeProof s
  let (A, s) ← readPod 32 badRangeProof s
  let (A1, s) ← readPod 32 badRangeProof s
  let (B, s) ← readPod 32 badRangeProof s
  let (r1, s) ← readPod 32 badRangeProof s
  let (s1, s) ← readPod 32 badRangeProof s
  let (d1, s) ← readPod 32 badRangeProof s
  let (L, s) ← readKeys 16 badRangeProof s
  let (R, s) ← readKeys 16 badRangeProof s
  failIf (L = [] ∨ L.length ≠ R.length) badRangeProof
  return ({ V, A, A1, B, r1, s1, d1, L, R }, s)

def readPseudoInput (s : List UInt8) :
    Except String (ConfidentialPseudoInput Key × List UInt8) := do
  let (sourceAssetId, s) ← readPod 32 "truncated asset pseudo input" s
  let (commitment, s) ← readPod 32 "truncated asset pseudo input" s
  return ({ sourceAssetId, commitment }, s)

def readOutput (s : List UInt8) :
    Except String ((AssetRecipientData Key × Key) × List UInt8) := do
  let (destination, s) ← readPod 32 "truncated asset output" s
  let (commitment, s) ← readPod 32 "truncated asset output" s
  let (txPublicKey, s) ← readPod 32 "truncated asset output" s
  let (mask, s) ← readPod 32 "truncated asset output" s
  let (amount, s) ← readPod 32 "truncated asset output" s
  let (viewTag, s) ← readByte "truncated asset output" s
  return (({ destination, txPublicKey, encryptedAmount := { mask, amount }, viewTag },
    commitment), s)

def readGroup (s : List UInt8) :
    Except String ((ConfidentialAssetBalance Key × List (AssetRecipientData Key)) ×
      List UInt8) := do
  let (assetId, s) ← readPod 32 "truncated or invalid asset inputs" s
  let (inputs, s) ← readCount maxConfidentialAssetInputs "truncated or invalid asset inputs" s
  failIf (inputs = 0) "truncated or invalid asset inputs"
  let (pseudoInputs, s) ← readMany readPseudoInput inputs s
  let (count, s) ← readCount maxConfidentialAssetOutputs "invalid asset output count" s
  let (outputs, s) ← readMany readOutput count s
  let (burns, s) ← readKeys (maxConfidentialAssetOutputs - count)
    "invalid asset burn or range-proof count" s
  let (proofs, s) ← readCount maxAssetRangeProofs "invalid asset burn or range-proof count" s
  failIf (proofs = 0) "invalid asset burn or range-proof count"
  let (rangeProofs, s) ← readMany readRangeProof proofs s
  return (({ assetId, pseudoInputs, outputs := outputs.map Prod.snd, burns, rangeProofs },
    outputs.map Prod.fst), s)

def readRingMember (s : List UInt8) : Except String (AssetRingMember Key × List UInt8) := do
  let (assetId, s) ← readPod 32 "truncated asset ownership ring" s
  let (outputId, s) ← readPod 32 "truncated asset ownership ring" s
  let (dest, s) ← readPod 32 "truncated asset ownership ring" s
  let (mask, s) ← readPod 32 "truncated asset ownership ring" s
  return ({ assetId, outputId, publicOutput := { dest, mask } }, s)

/-- The signature's own key image is a copy of the proof's. -/
def readOwnershipProof (s : List UInt8) :
    Except String (AssetOwnershipProof Key × List UInt8) := do
  let (assetId, s) ← readPod 32 "truncated asset ownership proof" s
  let (pseudoInput, s) ← readPod 32 "truncated asset ownership proof" s
  let (keyImage, s) ← readPod 32 "truncated asset ownership proof" s
  let (ring, s) ← readMany readRingMember confidentialAssetRingSize s
  let (c1, s) ← readPod 32 "truncated asset CLSAG header" s
  let (D, s) ← readPod 32 "truncated asset CLSAG header" s
  let (responses, s) ← readMany (readPod 32 "truncated asset CLSAG responses")
    confidentialAssetRingSize s
  return ({ assetId, pseudoInput, keyImage, ring,
            signature := { s := responses, c1, I := keyImage, D } }, s)

def readIssuance (C : Crypto Key) (flag : UInt8) (s : List UInt8) :
    Except String (Option IssuancePayload × List UInt8) :=
  if flag = 0 then .ok (none, s)
  else do
    let (size, s) ← readUInt 2 "truncated asset issuance length" s
    let (encoded, s) ← readPod size "truncated asset issuance payload" s
    let issuance ← decodeIssuancePayload C encoded.bytes
    return (some issuance, s)

def decodeAssetTransactionPayload (C : Crypto Key) (encoded : List UInt8) :
    Except String (AssetTransactionPayload Key) := do
  failIf (encoded = [] ∨ encoded.length > maxAssetWireBytes)
    "asset transaction payload has an invalid size"
  let (version, s) ← readByte "truncated asset transaction header" encoded
  let (network, s) ← readByte "truncated asset transaction header" s
  let (carrierPrefixHash, s) ← readPod 32 "truncated asset transaction header" s
  let (flag, s) ← readByte "truncated asset transaction header" s
  failIf (flag > 1) "truncated asset transaction header"
  let (issuance, s) ← readIssuance C flag s
  let (count, s) ← readCount maxAssetBalanceGroups "invalid asset balance-group count" s
  failIf (count = 0) "invalid asset balance-group count"
  let (groups, s) ← readMany readGroup count s
  let (proofs, s) ← readCount maxAssetOwnershipProofs "invalid asset ownership-proof count" s
  let (ownershipProofs, s) ← readMany readOwnershipProof proofs s
  failIf (s ≠ []) "trailing asset transaction bytes"
  let candidate : AssetTransactionPayload Key :=
    { version, network := networkOfByte network, carrierPrefixHash, issuance,
      balances := groups.map Prod.fst, outputRecipients := groups.map Prod.snd,
      ownershipProofs }
  let _ ← (validateAssetTransactionPayloadShape candidate).mapError
    fun _ => "invalid asset transaction payload"
  return candidate

theorem readIssuance_some {C : Crypto Key} {flag : UInt8} {s rest : List UInt8}
    {iss : IssuancePayload} (h : readIssuance C flag s = .ok (some iss, rest)) :
    ∃ bytes, decodeIssuancePayload C bytes = .ok iss := by
  unfold readIssuance at h
  split at h
  · cases h
  · simp only [bind_eq_ok, pure_eq_ok, Prod.mk.injEq, Option.some.injEq] at h
    obtain ⟨⟨_, _⟩, -, ⟨enc, _⟩, -, _, hdec, rfl, -⟩ := h
    exact ⟨enc.bytes, hdec⟩

theorem decoded_facts {C : Crypto Key} {enc : List UInt8} {p : AssetTransactionPayload Key}
    (h : decodeAssetTransactionPayload C enc = .ok p) :
    validateAssetTransactionPayloadShape p = .ok () ∧ ∀ iss, p.issuance = some iss →
        ∃ bytes, encodeIssuancePayload C iss = .ok bytes := by
  simp only [decodeAssetTransactionPayload, bind_eq_ok, failIf_eq_ok, pure_eq_ok,
    mapError_eq_ok, exists_unit] at h
  obtain ⟨-, ⟨_, _⟩, -, ⟨_, _⟩, -, ⟨_, _⟩, -, ⟨_, _⟩, -, -, ⟨iss, _⟩, hiss, ⟨_, _⟩, -, -,
    ⟨_, _⟩, -, ⟨_, _⟩, -, ⟨_, _⟩, -, -, hshape, rfl⟩ := h
  refine ⟨hshape, ?_⟩
  rintro i rfl
  obtain ⟨bytes, hdec⟩ := readIssuance_some hiss
  exact ⟨bytes, encode_of_decode_payload C i bytes hdec⟩

end Monzero.AssetWireCodec
