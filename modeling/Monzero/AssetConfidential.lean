import Monzero.AssetRegistry

/-!
Confidential balances and ownership proofs. A transaction has one balance group
per asset: pseudo inputs, outputs and burns as commitments, with range proofs over
the outputs and burns. Every pseudo input except the one an issuance creates has
to be matched by its own ownership proof.
-/
namespace Monzero.AssetConfidential

open Bytes Checked Primitives AssetTypes

structure ConfidentialPseudoInput (K : Type) where
  sourceAssetId : Hash
  commitment : K
deriving DecidableEq

structure AssetRingMember (K : Type) where
  assetId : Hash
  outputId : Hash
  publicOutput : CtKey K
deriving DecidableEq

structure AssetOwnershipProof (K : Type) where
  assetId : Hash
  pseudoInput : K
  keyImage : K
  ring : List (AssetRingMember K)
  signature : Clsag K
deriving DecidableEq

structure ConfidentialAssetBalance (K : Type) where
  assetId : Hash
  pseudoInputs : List (ConfidentialPseudoInput K)
  outputs : List K
  burns : List K
  rangeProofs : List (BulletproofPlus K)
deriving DecidableEq

def maxConfidentialAssetInputs : ℕ := 16

def maxConfidentialAssetOutputs : ℕ := 16

def confidentialAssetRingSize : ℕ := 16

def ownershipDomain : List UInt8 := ascii "MonzeroAssetOwnershipCLSAGV1"

variable {K : Type} [DecidableEq K]

/-- One turn of the loop over the ring; the state is the set of output ids seen so far. -/
def checkRingMember (C : Crypto K) (assetId : Hash) (seen : List Hash)
    (member : AssetRingMember K) : Except String (List Hash) := do
  failIf (member.assetId ≠ assetId) "ownership ring crosses asset domains"
  failIf (member.outputId = nullHash ∨ member.outputId ∈ seen)
    "ownership ring has a zero or duplicate output id"
  failIf (C.isInMainSubgroup member.publicOutput.dest = false ∨
      C.isInMainSubgroup member.publicOutput.mask = false)
    "ownership ring contains an invalid curve point"
  return member.outputId :: seen

/-- The string an ownership signature signs. -/
def ownershipMessageBytes (C : Crypto K) (proof : AssetOwnershipProof K) (network : NetworkType)
    (carrierPrefixHash : Hash) : List UInt8 :=
  ownershipDomain ++ ((networkId network).bytes ++ (carrierPrefixHash.bytes ++
    (proof.assetId.bytes ++ ((C.keyBytes proof.pseudoInput).bytes ++
    proof.ring.flatMap fun member => member.outputId.bytes ++
      ((C.keyBytes member.publicOutput.dest).bytes ++
        (C.keyBytes member.publicOutput.mask).bytes)))))

def deriveAssetOwnershipMessage (C : Crypto K) (proof : AssetOwnershipProof K)
    (network : NetworkType) (carrierPrefixHash : Hash) : Except String K := do
  failIf (network.isPublic = false) "ownership proof requires a public network"
  failIf (proof.assetId = nullHash ∨ carrierPrefixHash = nullHash)
    "ownership proof has a zero asset or carrier id"
  failIf (proof.ring.length ≠ confidentialAssetRingSize)
    "ownership proof has the wrong ring size"
  let _ ← loop (checkRingMember C proof.assetId) proof.ring []
  return C.hashToKey (C.cnFastHash (ownershipMessageBytes C proof network carrierPrefixHash))

/-- The signature is checked with the proof's key image in place of its own. The verifier
returns false on every exception, so the message for a thrown one is never used. -/
def verifyAssetOwnershipProof (C : Crypto K) (proof : AssetOwnershipProof K)
    (network : NetworkType) (carrierPrefixHash : Hash) : Except String Unit := do
  let message ← deriveAssetOwnershipMessage C proof network carrierPrefixHash
  failIf (proof.signature.s.length ≠ proof.ring.length)
    "ownership CLSAG response count does not match its ring"
  failIf (C.verRctCLSAGSimple message { proof.signature with I := proof.keyImage }
      (proof.ring.map AssetRingMember.publicOutput) proof.pseudoInput = false)
    "invalid asset ownership CLSAG"

/-- `commitment_count - proof.V.size()` in `size_t` arithmetic. -/
def sizeSub (a b : ℕ) : ℕ := (a + 2 ^ 64 - b) % 2 ^ 64

/-- One turn of the loop over the range proofs. The state is `proven_commitments`, whose
size is `proof_commitments`. -/
def checkRangeProof (C : Crypto K) (commitmentCount : ℕ) (proven : List K)
    (proof : BulletproofPlus K) : Except String (List K) := do
  failIf (proof.V = [] ∨ proven.length > sizeSub commitmentCount proof.V.length)
    "range proofs do not cover the declared commitments exactly"
  match C.bulletproofPlusVerify proof with
  | none => .error "malformed asset Bulletproof+"
  | some false => .error "invalid asset Bulletproof+"
  | some true => return proven ++ proof.V.map C.scalarmult8

def verifyConfidentialAssetBalance (C : Crypto K) (b : ConfidentialAssetBalance K) :
    Except String Unit := do
  failIf (b.assetId = nullHash) "confidential balance has a zero asset id"
  failIf (b.pseudoInputs = []) "confidential balance has no pseudo inputs"
  failIf (b.outputs = [] ∧ b.burns = []) "confidential balance has no outputs or burns"
  failIf (b.pseudoInputs.length > maxConfidentialAssetInputs ∨
      b.outputs.length + b.burns.length > maxConfidentialAssetOutputs)
    "confidential balance exceeds input or output limits"
  failIf (¬∀ input ∈ b.pseudoInputs, input.sourceAssetId = b.assetId)
    "pseudo input crosses asset balance domains"
  failIf (¬((b.pseudoInputs.map ConfidentialPseudoInput.commitment).all C.isInMainSubgroup ∧
      b.outputs.all C.isInMainSubgroup ∧ b.burns.all C.isInMainSubgroup))
    "confidential balance contains an invalid curve point"
  let proven ← loop (checkRangeProof C (b.outputs.length + b.burns.length)) b.rangeProofs []
  failIf (proven.length ≠ b.outputs.length + b.burns.length)
    "range proofs do not cover every output and burn"
  failIf (proven.take b.outputs.length ≠ b.outputs) "range proof output commitment mismatch"
  failIf (proven.drop b.outputs.length ≠ b.burns) "range proof burn commitment mismatch"
  failIf (C.addKeys (b.pseudoInputs.map ConfidentialPseudoInput.commitment) ≠
      C.addKeys (b.outputs ++ b.burns))
    "asset commitments do not conserve value"

def deriveIssuedId (C : Crypto K) : Option IssuanceDescriptor → Except String (Option Hash)
  | none => return none
  | some d => do
      let id ← deriveAssetId C d
      return some id

/-- `is_issuance`, with the checks made when it holds: the asset is new, and the only
pseudo input of its group commits to the fixed supply with mask zero. -/
def checkIssuanceGroup (C : Crypto K) (knownAssets : List Hash)
    (issuance : Option IssuanceDescriptor) (issuedId : Option Hash)
    (b : ConfidentialAssetBalance K) : Except String Bool :=
  match issuance with
  | none => .ok false
  | some d =>
      if issuedId = some b.assetId then do
        failIf (b.assetId ∈ knownAssets) "confidential issuance duplicates an existing asset"
        failIf (b.pseudoInputs ≠
            [{ sourceAssetId := b.assetId, commitment := C.commit d.atomicSupply C.zero }])
          "issuance pseudo input does not commit to the fixed supply"
        return true
      else .ok false

/-- One turn of the loop over the groups; the state is `seen` and `found_issuance`. -/
def checkGroup (C : Crypto K) (knownAssets : List Hash) (issuance : Option IssuanceDescriptor)
    (issuedId : Option Hash) (state : List Hash × Bool) (b : ConfidentialAssetBalance K) :
    Except String (List Hash × Bool) := do
  failIf (b.assetId ∈ state.1) "asset appears in more than one balance group"
  failIf (issuedId ≠ some b.assetId ∧ b.assetId ∉ knownAssets)
    "confidential balance references an unknown asset"
  let isIssuance ← checkIssuanceGroup C knownAssets issuance issuedId b
  verifyConfidentialAssetBalance C b
  return (b.assetId :: state.1, state.2 || isIssuance)

def verifyConfidentialAssetTransaction (C : Crypto K)
    (balances : List (ConfidentialAssetBalance K)) (knownAssets : List Hash)
    (issuance : Option IssuanceDescriptor) : Except String Unit := do
  failIf (balances = []) "confidential asset transaction is empty"
  let issuedId ← deriveIssuedId C issuance
  let (_, found) ← loop (checkGroup C knownAssets issuance issuedId) balances ([], false)
  failIf (issuance.isSome = true ∧ found = false)
    "issuance has no matching confidential balance group"

/-- The pseudo inputs that need an ownership proof, in the order they are visited: all
but the first of the group an issuance creates. -/
def inputsToProve (issuedId : Option Hash) (balances : List (ConfidentialAssetBalance K)) :
    List (ConfidentialPseudoInput K) :=
  balances.flatMap fun b =>
    if issuedId = some b.assetId then b.pseudoInputs.drop 1 else b.pseudoInputs

/-- An ownership proof answers for a pseudo input when asset and commitment agree. -/
def Matches (proof : AssetOwnershipProof K) (input : ConfidentialPseudoInput K) : Prop :=
  proof.assetId = input.sourceAssetId ∧ proof.pseudoInput = input.commitment

instance (proof : AssetOwnershipProof K) (input : ConfidentialPseudoInput K) :
    Decidable (Matches proof input) := inferInstanceAs (Decidable (_ ∧ _))

/-- The inner loop that looks for the one unmatched proof of an input. `matched` holds
the indexes whose flag is set. -/
def findMatch (proofs : List (AssetOwnershipProof K)) (matched : List ℕ)
    (input : ConfidentialPseudoInput K) : Except String (AssetOwnershipProof K × ℕ) :=
  match proofs.zipIdx.filter fun e => e.2 ∉ matched ∧ Matches e.1 input with
  | [] => .error "pseudo input has no ownership proof"
  | [found] => .ok found
  | _ => .error "multiple ownership proofs match one pseudo input"

/-- One turn of the loop over the inputs; the state is `matched` and `key_images`. -/
def proveInput (C : Crypto K) (proofs : List (AssetOwnershipProof K)) (network : NetworkType)
    (carrierPrefixHash : Hash) (state : List ℕ × List K) (input : ConfidentialPseudoInput K) :
    Except String (List ℕ × List K) := do
  let (proof, index) ← findMatch proofs state.1 input
  failIf (proof.keyImage ∈ state.2) "duplicate asset key image in transaction"
  verifyAssetOwnershipProof C proof network carrierPrefixHash
  return (state.1 ++ [index], state.2 ++ [proof.keyImage])

def verifyConfidentialAssetTransactionWithOwnership (C : Crypto K)
    (balances : List (ConfidentialAssetBalance K)) (ownershipProofs : List (AssetOwnershipProof K))
    (knownAssets : List Hash) (issuance : Option IssuanceDescriptor) (network : NetworkType)
    (carrierPrefixHash : Hash) : Except String Unit := do
  verifyConfidentialAssetTransaction C balances knownAssets issuance
  let issuedId ← deriveIssuedId C issuance
  let (matched, _) ← loop (proveInput C ownershipProofs network carrierPrefixHash)
    (inputsToProve issuedId balances) ([], [])
  failIf (¬∀ index < ownershipProofs.length, index ∈ matched)
    "ownership proof does not match a pseudo input"

end Monzero.AssetConfidential
