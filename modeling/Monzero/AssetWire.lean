import Monzero.AssetConfidential

/-!
The payload of an asset transaction, its shape limits, its stateless validation,
and the ids of the outputs it creates. An output id hashes the network, the
carrier, the asset, the position of the output in the whole payload and the
output itself.
-/
namespace Monzero.AssetWire

open Bytes Checked Primitives AssetTypes IssuanceCodec AssetConfidential List

/-- `rct::ecdhTuple`. -/
structure EcdhTuple (K : Type) where
  mask : K
  amount : K
deriving DecidableEq

structure AssetRecipientData (K : Type) where
  destination : K
  txPublicKey : PublicKey
  encryptedAmount : EcdhTuple K
  viewTag : UInt8
deriving DecidableEq

structure AssetTransactionPayload (K : Type) where
  version : UInt8
  network : NetworkType
  carrierPrefixHash : Hash
  issuance : Option IssuancePayload
  balances : List (ConfidentialAssetBalance K)
  outputRecipients : List (List (AssetRecipientData K))
  ownershipProofs : List (AssetOwnershipProof K)
deriving DecidableEq

def assetTransactionWireVersion : UInt8 := 2

def maxAssetBalanceGroups : ℕ := 8

def maxAssetTotalInputs : ℕ := 64

def maxAssetTotalDestinations : ℕ := 64

def maxAssetOwnershipProofs : ℕ := 64

def maxAssetRangeProofs : ℕ := 16

variable {K : Type}

structure PayloadOutput (K : Type) where
  assetId : Hash
  recipient : AssetRecipientData K
  commitment : K
deriving DecidableEq

/-- The outputs of a payload in the order in which they are numbered: group by group. -/
def payloadOutputs (p : AssetTransactionPayload K) : List (PayloadOutput K) :=
  (p.balances.zip p.outputRecipients).flatMap fun group =>
    (group.2.zip group.1.outputs).map fun output =>
      { assetId := group.1.assetId, recipient := output.1, commitment := output.2 }

def outputIdDomain : List UInt8 := ascii "MonzeroAssetOutputIdV1"

/-- The string an output id hashes. -/
def outputIdBytes (C : Crypto K) (network : NetworkType) (carrierPrefixHash : Hash)
    (output : PayloadOutput K) (index : ℕ) : List UInt8 :=
  outputIdDomain ++ ((networkId network).bytes ++ (carrierPrefixHash.bytes ++
    (output.assetId.bytes ++ (leBytes 4 index ++
    ((C.keyBytes output.recipient.destination).bytes ++ (C.keyBytes output.commitment).bytes)))))

def deriveAssetOutputId (C : Crypto K) (network : NetworkType) (carrierPrefixHash : Hash)
    (output : PayloadOutput K) (index : ℕ) : Except String Hash := do
  failIf (network.isPublic = false) "asset output identity requires a public network"
  failIf (carrierPrefixHash = nullHash ∨ output.assetId = nullHash)
    "asset output identity has a zero carrier or asset id"
  failIf (C.isInMainSubgroup output.recipient.destination = false ∨
      C.isInMainSubgroup output.commitment = false)
    "asset output identity contains an invalid point"
  return C.cnFastHash (outputIdBytes C network carrierPrefixHash output index)

theorem deriveAssetOutputId_hash {C : Crypto K} {net : NetworkType} {car id : Hash}
    {out : PayloadOutput K} {index : ℕ} (h : deriveAssetOutputId C net car out index = .ok id) :
    id = C.cnFastHash (outputIdBytes C net car out index) := by
  simp only [deriveAssetOutputId, bind_eq_ok, failIf_eq_ok, pure_eq_ok, exists_unit] at h
  exact h.2.2.2.symm

theorem outputIdBytes_index {C : Crypto K} {net : NetworkType} {car : Hash}
    {o o' : PayloadOutput K} {i j : ℕ} (hi : i < 2 ^ 32) (hj : j < 2 ^ 32)
    (h : outputIdBytes C net car o i = outputIdBytes C net car o' j) : i = j := by
  have htail := append_cancel_left (append_cancel_left (append_cancel_left h))
  have hrest := (append_inj htail (by simp)).2
  have hidx := (append_inj hrest (by simp)).1
  exact leBytes_injOn (by simpa using hi) (by simpa using hj) hidx

variable [DecidableEq K]

/-- One turn of the loop over the groups; the state is the two running totals. -/
def checkGroupShape (totals : ℕ × ℕ)
    (group : ConfidentialAssetBalance K × List (AssetRecipientData K)) :
    Except String (ℕ × ℕ) := do
  let (b, recipients) := group
  failIf (b.pseudoInputs = [] ∨ b.pseudoInputs.length > maxConfidentialAssetInputs ∨
      b.outputs.length + b.burns.length > maxConfidentialAssetOutputs ∨
      b.rangeProofs = [] ∨ b.rangeProofs.length > maxAssetRangeProofs)
    "asset balance group exceeds canonical limits"
  failIf (recipients.length ≠ b.outputs.length)
    "asset output recipient count does not match commitments"
  let inputs := totals.1 + b.pseudoInputs.length
  let destinations := totals.2 + (b.outputs.length + b.burns.length)
  failIf (inputs > maxAssetTotalInputs ∨ destinations > maxAssetTotalDestinations)
    "asset transaction exceeds aggregate input or destination limits"
  return (inputs, destinations)

def validateAssetTransactionPayloadShape (p : AssetTransactionPayload K) :
    Except String Unit := do
  failIf (p.version ≠ assetTransactionWireVersion) "unsupported asset transaction wire version"
  failIf (p.network.isPublic = false) "asset transaction requires a public network"
  failIf (p.carrierPrefixHash = nullHash) "asset transaction has a zero carrier hash"
  failIf (p.balances = [] ∨ p.balances.length > maxAssetBalanceGroups)
    "asset transaction has an invalid balance-group count"
  failIf (p.outputRecipients.length ≠ p.balances.length)
    "asset transaction output recipients do not match balance groups"
  failIf (p.ownershipProofs.length > maxAssetOwnershipProofs)
    "asset transaction has too many ownership proofs"
  let _ ← loop checkGroupShape (p.balances.zip p.outputRecipients) (0, 0)
  failIf (¬∀ proof ∈ p.ownershipProofs, proof.ring.length = confidentialAssetRingSize ∧
      proof.signature.s.length = confidentialAssetRingSize)
    "asset ownership proof has a noncanonical ring size"

omit [DecidableEq K] in
/-- Every group has one recipient per output; the output counts add up to the running total,
which stays within the limit. -/
theorem loop_checkGroupShape
    (groups : List (ConfidentialAssetBalance K × List (AssetRecipientData K)))
    (tots tots' : ℕ × ℕ) (h : loop checkGroupShape groups tots = .ok tots')
    (hstart : tots.2 ≤ maxAssetTotalDestinations) :
    (∀ g ∈ groups, g.2.length = g.1.outputs.length) ∧
      tots.2 + (groups.map fun g => g.1.outputs.length).sum ≤ tots'.2 ∧
      tots'.2 ≤ maxAssetTotalDestinations := by
  induction groups generalizing tots with
  | nil =>
    cases h
    exact ⟨by simp, by simp, hstart⟩
  | cons g rest ih =>
    obtain ⟨next, hstep, hrest⟩ := loop_cons_eq_ok.mp h
    obtain ⟨b, recipients⟩ := g
    simp only [checkGroupShape, bind_eq_ok, failIf_eq_ok, pure_eq_ok, exists_unit, not_or,
      not_not, not_lt, ne_eq] at hstep
    obtain ⟨-, hcnt, ⟨-, hlim⟩, rfl⟩ := hstep
    obtain ⟨hall, hsum, hbound⟩ := ih _ hrest hlim
    refine ⟨?_, ?_, hbound⟩
    · intro g hg
      rcases mem_cons.mp hg with rfl | hg
      · exact hcnt
      · exact hall g hg
    · simp only [map_cons, sum_cons] at hsum ⊢
      omega

omit [DecidableEq K] in
/-- What a valid shape says about the outputs: recipients and commitments correspond, and
there are at most 64. -/
theorem shape_facts {p : AssetTransactionPayload K} {u : Unit}
    (h : validateAssetTransactionPayloadShape p = .ok u) :
    p.outputRecipients.length = p.balances.length ∧
      (∀ g ∈ p.balances.zip p.outputRecipients, g.2.length = g.1.outputs.length) ∧
      (payloadOutputs p).length ≤ maxAssetTotalDestinations := by
  simp only [validateAssetTransactionPayloadShape, bind_eq_ok, failIf_eq_ok, exists_unit, ne_eq,
    not_not] at h
  obtain ⟨-, -, -, -, hgroups, -, tots, hloop, -⟩ := h
  obtain ⟨hcounts, hsum, hbound⟩ := loop_checkGroupShape _ _ _ hloop (Nat.zero_le _)
  refine ⟨hgroups, hcounts, ?_⟩
  have hlen : (payloadOutputs p).length =
      ((p.balances.zip p.outputRecipients).map fun g => g.1.outputs.length).sum := by
    simp only [payloadOutputs, length_flatMap, length_map, length_zip]
    refine congrArg List.sum (map_congr_left fun g hg => ?_)
    rw [hcounts g hg, min_self]
  omega

/-- The checks `verify_asset_transaction_payload` makes on one recipient. -/
def checkRecipient (C : Crypto K) (recipient : AssetRecipientData K) : Except String Unit :=
  failIf (C.isInMainSubgroup recipient.destination = false ∨
      recipient.destination = C.identity ∨ recipient.txPublicKey = Blob.zero 32 ∨
      C.checkKey recipient.txPublicKey = false)
    "asset transaction contains invalid recipient data"

/-- The issuer's authorization, when the payload issues an asset. -/
def checkIssuance (C : Crypto K) : Option IssuancePayload → Except String Unit
  | none => .ok ()
  | some p => verifyIssuanceAuthorization C p.descriptor p.issuerSignature

def verifyAssetTransactionPayload (C : Crypto K) (p : AssetTransactionPayload K)
    (knownAssets : List Hash) (expectedNetwork : NetworkType)
    (expectedCarrierPrefixHash : Hash) : Except String Unit := do
  validateAssetTransactionPayloadShape p
  failIf (p.network ≠ expectedNetwork) "asset transaction belongs to a different network"
  failIf (p.carrierPrefixHash ≠ expectedCarrierPrefixHash)
    "asset transaction carrier hash mismatch"
  checkIssuance C p.issuance
  checkAll (checkAll (checkRecipient C)) p.outputRecipients
  verifyConfidentialAssetTransactionWithOwnership C p.balances p.ownershipProofs knownAssets
    (p.issuance.map IssuancePayload.descriptor) expectedNetwork expectedCarrierPrefixHash

end Monzero.AssetWire

/-!
An executable instance of the primitives, small enough to evaluate. Amounts are visible in
commitments, a signature is the signed digest followed by the signer's key, and the hash is
a polynomial in the bytes.
-/
namespace Monzero.ToyCrypto

open Bytes Primitives AssetTypes IssuanceCodec AssetConfidential AssetWire

/-- The 32 low bytes of a number. -/
def keyOfNat (n : ℕ) : Blob 32 := ⟨leBytes 32 n, by simp⟩

theorem leValue_keyOfNat {n : ℕ} (h : n < 256 ^ 32) : leValue (keyOfNat n).bytes = n := by
  rw [keyOfNat, leValue_leBytes, Nat.mod_eq_of_lt h]

def polynomialHash (s : List UInt8) : Hash :=
  keyOfNat (s.foldl (fun acc b => (acc * 65599 + b.toNat + 1) % 2 ^ 256) 7)

/-- The signature that `toy` accepts for a digest and a key. -/
def sign (digest : Hash) (key : PublicKey) : Signature :=
  ⟨digest.bytes ++ key.bytes, by simp⟩

def toy : Crypto Key where
  cnFastHash := polynomialHash
  checkKey _ := true
  checkSignature digest key signature := signature = sign digest key
  keyBytes key := key
  hashToKey digest := digest
  identity := keyOfNat 1
  zero := keyOfNat 0
  isInMainSubgroup _ := true
  commit amount _ := keyOfNat amount.toNat
  addKeys keys := keyOfNat (keys.map fun key => leValue key.bytes).sum
  scalarmult8 key := key
  bulletproofPlusVerify _ := some true
  verRctCLSAGSimple _ _ _ _ := true

/-- A descriptor of one indivisible unit on a network. -/
def unitDescriptor (network : NetworkType) (type : AssetClass) (nonce : ℕ)
    (metadataHash collectionId : Hash) : IssuanceDescriptor where
  version := issuanceDescriptorVersion
  network := network
  type := type
  issuerKey := keyOfNat 5
  issuanceNonce := keyOfNat nonce
  atomicSupply := 1
  displayDecimals := 0
  metadataHash := metadataHash
  collectionId := collectionId
  metadataReference := []

/-- The id `derive_asset_id` gives a valid descriptor. -/
def idOf (d : IssuanceDescriptor) : Hash := toy.cnFastHash (issuanceDomain ++ descriptorFields d)

/-- The issuance of a descriptor, signed by its issuer and, if it names a collection, by the
same key as the collection's controller. -/
def signedIssuance (d : IssuanceDescriptor) : IssuancePayload where
  version := issuancePayloadVersion
  descriptor := d
  issuerSignature := sign (toy.cnFastHash
    (issuanceAuthorizationDomain ++ (issuanceDomain ++ descriptorFields d))) d.issuerKey
  collectionSignature :=
    if claimsCollection d then
      some (sign (toy.cnFastHash (collectionMembershipDomain ++
        (d.collectionId.bytes ++ (idOf d).bytes))) d.issuerKey)
    else none

def rangeProof (commitments : List Key) : BulletproofPlus Key where
  V := commitments
  A := toy.zero
  A1 := toy.zero
  B := toy.zero
  r1 := toy.zero
  s1 := toy.zero
  d1 := toy.zero
  L := [toy.zero]
  R := [toy.zero]

def recipient (destination : ℕ) : AssetRecipientData Key where
  destination := keyOfNat destination
  txPublicKey := keyOfNat 9
  encryptedAmount := { mask := toy.zero, amount := toy.zero }
  viewTag := 0

/-- The issuance of a unit to the first of some destinations; the others get outputs without an
amount. -/
def issueTo (network : NetworkType) (carrier : Hash) (d : IssuanceDescriptor)
    (destinations : List ℕ) : AssetTransactionPayload Key :=
  let commitments := (List.range destinations.length).map fun i =>
    toy.commit (if i = 0 then 1 else 0) toy.zero
  { version := assetTransactionWireVersion
    network := network
    carrierPrefixHash := carrier
    issuance := some (signedIssuance d)
    balances := [
      { assetId := idOf d,
        pseudoInputs := [{ sourceAssetId := idOf d, commitment := toy.commit 1 toy.zero }],
        outputs := commitments,
        burns := [],
        rangeProofs := [rangeProof commitments] }]
    outputRecipients := [destinations.map recipient]
    ownershipProofs := [] }

def issue (network : NetworkType) (carrier : Hash) (d : IssuanceDescriptor)
    (destination : ℕ) : AssetTransactionPayload Key :=
  issueTo network carrier d [destination]

/-- The ring of all outputs of a payload. -/
def ringOf (C : Crypto K) (p : AssetTransactionPayload K) : List (AssetRingMember K) :=
  (payloadOutputs p).zipIdx.map fun e =>
    { assetId := e.1.assetId,
      outputId := C.cnFastHash (outputIdBytes C p.network p.carrierPrefixHash e.1 e.2),
      publicOutput := { dest := e.1.recipient.destination, mask := e.1.commitment } }

def sampleCollection : IssuanceDescriptor :=
  unitDescriptor .mainnet .collection 1 nullHash nullHash

/-- A member of `sampleCollection`. With nonce 0 its id sorts after the collection's, with
nonce 1 before it. -/
def sampleMember (nonce : ℕ) : IssuanceDescriptor :=
  unitDescriptor .mainnet .nonFungible nonce (keyOfNat 3) (idOf sampleCollection)

end Monzero.ToyCrypto
