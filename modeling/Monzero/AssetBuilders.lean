import Monzero.AssetRecipient
import Monzero.TxExtra

/-!
How asset payloads are built and attached. An issuance and a transfer both fill one balance
group up to the size of a ring: the outputs that are asked for come first, then outputs of
amount zero. Every output has a transaction key of its own; the masks are drawn, up to the
last one, which makes the commitments balance. What is built has to pass the checks that the
node makes, and is then written into the extra field of a native transaction.
-/
namespace Monzero.AssetBuilders

open Bytes Checked Primitives AssetTypes IssuanceCodec AssetConfidential AssetWire AssetWireCodec
  AssetRecipient TxExtra

structure AccountPublicAddress where
  spendPublicKey : PublicKey
  viewPublicKey : PublicKey
deriving DecidableEq

structure SenderPrimitives where
  /-- `sc_check(k) == 0`. -/
  scCheck : Key → Bool
  scAdd : Key → Key → Key
  scSub : Key → Key → Key
  /-- `crypto::secret_key_to_public_key`; `none` when it fails. -/
  secretKeyToPublicKey : SecretKey → Option PublicKey
  /-- `rct::scalarmultKey`, with what it throws. -/
  scalarmultKey : PublicKey → SecretKey → Except String PublicKey
  scalarmultBase : Key → Key
  /-- `rct::d2h`. -/
  d2h : UInt64 → Key
  /-- `rct::ecdhEncode` in the form that carries the mask. -/
  ecdhEncode : EcdhTuple Key → Key → EcdhTuple Key
  /-- `rct::bulletproof_plus_PROVE`, with what it throws. -/
  bulletproofPlusProve : List UInt64 → List Key → Except String (BulletproofPlus Key)
  /-- `rct::proveRctCLSAGSimple`, with what it throws. It draws random values, so it is given
  the number of the input as well. -/
  proveRctCLSAGSimple : ℕ → Key → List (CtKey Key) → CtKey Key → Key → Key → ℕ →
    Except String (Clsag Key)

/-- What `rct::skGen` and `crypto::generate_keys` return to a builder. -/
structure Coins where
  mask : ℕ → Key
  pseudoMask : ℕ → Key
  txSecret : ℕ → SecretKey

/-- One output that a builder makes: the arguments of `make_asset_recipient_data_with_mask`
other than the position. -/
structure OutputOrder where
  address : AccountPublicAddress
  isSubaddress : Bool
  txSecretKey : SecretKey
  amount : UInt64
  mask : Key

structure AssetTransferInput where
  ring : List (AssetRingMember Key)
  realOutputIndex : ℕ
  spendSecret : Key
  amount : UInt64
  mask : Key

structure AssetTransferDestination where
  address : AccountPublicAddress
  isSubaddress : Bool
  amount : UInt64

variable (C : Crypto Key) (D : Derivations) (S : SenderPrimitives) (coins : Coins)

/-- The transaction public key of an output. For a subaddress its spend key takes the place of
the base point. -/
def txPublicKeyOf (recipient : AccountPublicAddress) (isSubaddress : Bool)
    (txSecretKey : SecretKey) : Except String PublicKey :=
  match S.secretKeyToPublicKey txSecretKey with
  | none => .error "invalid asset output transaction secret key"
  | some base =>
      if isSubaddress then S.scalarmultKey recipient.spendPublicKey txSecretKey else .ok base

def makeAssetRecipientDataWithMask (order : OutputOrder) (outputIndex : ℕ) :
    Except String (AssetRecipientData Key × Key) := do
  failIf (S.scCheck order.mask = false) "asset output mask is not a reduced scalar"
  let txPublicKey ← txPublicKeyOf S order.address order.isSubaddress order.txSecretKey
  match D.generateKeyDerivation order.address.viewPublicKey order.txSecretKey with
  | none => .error "failed to derive asset output shared secret"
  | some derivation =>
      match D.derivePublicKey derivation outputIndex order.address.spendPublicKey with
      | none => .error "failed to derive asset output destination"
      | some destination =>
          .ok ({ destination, txPublicKey,
                 encryptedAmount := S.ecdhEncode
                   { mask := order.mask, amount := S.d2h order.amount }
                   (D.derivationToScalar derivation outputIndex),
                 viewTag := D.deriveViewTag derivation outputIndex },
            C.commit order.amount order.mask)

/-- The loop that makes the outputs of a group, each at its position. -/
def makeOutputs (orders : List OutputOrder) : Except String (List (AssetRecipientData Key × Key)) :=
  mapAll (fun e => makeAssetRecipientDataWithMask C D S e.1 e.2) orders.zipIdx

/-- Masks for `count` commitments that add up to `total`: all but the last are drawn. -/
def coordinatedMasks (total : Key) (count : ℕ) : List Key :=
  (List.range (count - 1)).map coins.mask ++
    [S.scSub total (((List.range (count - 1)).map coins.mask).foldl S.scAdd C.zero)]

/-- The amounts of an issuance: the supply, and zero for the rest of the ring. -/
def issuanceAmounts (issuance : IssuancePayload) : List UInt64 :=
  issuance.descriptor.atomicSupply :: List.replicate (confidentialAssetRingSize - 1) 0

def issuanceMasks : List Key := coordinatedMasks C S coins C.zero confidentialAssetRingSize

def issuanceOutputs (issuance : IssuancePayload) (recipient : AccountPublicAddress)
    (isSubaddress : Bool) : List OutputOrder :=
  ((issuanceAmounts issuance).zip (issuanceMasks C S coins)).zipIdx.map fun e =>
    { address := recipient, isSubaddress, txSecretKey := coins.txSecret e.2, amount := e.1.1,
      mask := e.1.2 }

/-- The payload of an issuance, before it is checked. -/
def issuancePayloadOf (issuance : IssuancePayload) (carrierPrefixHash assetId : Hash)
    (made : List (AssetRecipientData Key × Key)) (proof : BulletproofPlus Key) :
    AssetTransactionPayload Key where
  version := assetTransactionWireVersion
  network := issuance.descriptor.network
  carrierPrefixHash := carrierPrefixHash
  issuance := some issuance
  balances := [
    { assetId,
      pseudoInputs := [{ sourceAssetId := assetId,
                         commitment := C.commit issuance.descriptor.atomicSupply C.zero }],
      outputs := made.map Prod.snd,
      burns := [],
      rangeProofs := [proof] }]
  outputRecipients := [made.map Prod.fst]
  ownershipProofs := []

def createIssuanceTransactionPayload (issuance : IssuancePayload)
    (recipient : AccountPublicAddress) (isSubaddress : Bool) (carrierPrefixHash : Hash) :
    Except String (AssetTransactionPayload Key) := do
  failIf (carrierPrefixHash = nullHash) "issuance transaction requires a non-zero carrier hash"
  let _ ← encodeIssuancePayload C issuance
  let assetId ← deriveAssetId C issuance.descriptor
  let made ← makeOutputs C D S (issuanceOutputs C S coins issuance recipient isSubaddress)
  let proof ← (S.bulletproofPlusProve (issuanceAmounts issuance) (issuanceMasks C S coins)).mapError
    ("failed to construct issuance range proof: " ++ ·)
  let created := issuancePayloadOf C issuance carrierPrefixHash assetId made proof
  verifyAssetTransactionPayload C created [] created.network carrierPrefixHash
  return created

/-- One turn of the loop over the inputs; the state is their total. -/
def checkTransferInput (assetId : Hash) (total : UInt64) (input : AssetTransferInput) :
    Except String UInt64 := do
  failIf (input.ring.length ≠ confidentialAssetRingSize ∨ input.realOutputIndex ≥ input.ring.length)
    "asset transfer requires complete 16-member rings"
  failIf (S.scCheck input.spendSecret = false ∨ S.scCheck input.mask = false)
    "asset transfer input contains an invalid secret scalar"
  failIf (input.amount > 18446744073709551615 - total) "asset transfer input amount overflows"
  let real := input.ring[input.realOutputIndex]?.map AssetRingMember.publicOutput
  failIf (real.map CtKey.mask ≠ some (C.commit input.amount input.mask))
    "asset transfer opening does not match the real ring member"
  failIf (real.map CtKey.dest ≠ some (S.scalarmultBase input.spendSecret))
    "asset transfer spend secret does not match the real ring member"
  failIf (¬∀ member ∈ input.ring, member.assetId = assetId)
    "asset transfer ring crosses asset domains"
  return total + input.amount

/-- One turn of the loop over the destinations; the state is their total. -/
def addDestination (total : UInt64) (destination : AssetTransferDestination) :
    Except String UInt64 := do
  failIf (destination.amount > 18446744073709551615 - total)
    "asset transfer destination amount overflows"
  return total + destination.amount

/-- A burn takes the place of one output. -/
def burnOutputs (burnAmount : UInt64) : ℕ := if burnAmount = 0 then 0 else 1

/-- The destinations, filled up with zero amounts to the last one. -/
def padDestinations (count : ℕ) (destinations : List AssetTransferDestination) :
    List AssetTransferDestination :=
  match destinations.getLast? with
  | none => destinations
  | some last =>
      destinations ++ List.replicate (count - destinations.length) { last with amount := 0 }

/-- The masks of a transfer's commitments, which add up to those of the pseudo inputs. -/
def transferMasks (inputs : ℕ) : List Key :=
  coordinatedMasks C S coins (((List.range inputs).map coins.pseudoMask).foldl S.scAdd C.zero)
    maxConfidentialAssetOutputs

def transferOutputs (inputs : ℕ) (destinations : List AssetTransferDestination)
    (burnAmount : UInt64) : List OutputOrder :=
  ((padDestinations (maxConfidentialAssetOutputs - burnOutputs burnAmount) destinations).zip
    (transferMasks C S coins inputs)).zipIdx.map fun e =>
      { address := e.1.1.address, isSubaddress := e.1.1.isSubaddress,
        txSecretKey := coins.txSecret e.2, amount := e.1.1.amount, mask := e.1.2 }

def burnCommitments (inputs : ℕ) (burnAmount : UInt64) : List Key :=
  if burnAmount = 0 then []
  else [C.commit burnAmount ((transferMasks C S coins inputs).getLastD C.zero)]

/-- The amounts that the range proof of a transfer is about. -/
def proofAmounts (orders : List OutputOrder) (burnAmount : UInt64) : List UInt64 :=
  orders.map OutputOrder.amount ++ if burnAmount = 0 then [] else [burnAmount]

def transferPseudoInputs (assetId : Hash) (inputs : List AssetTransferInput) :
    List (ConfidentialPseudoInput Key) :=
  inputs.zipIdx.map fun e =>
    { sourceAssetId := assetId, commitment := C.commit e.1.amount (coins.pseudoMask e.2) }

def proveOwnership (network : NetworkType) (assetId carrierPrefixHash : Hash)
    (e : AssetTransferInput × ℕ) : Except String (AssetOwnershipProof Key) := do
  let (input, index) := e
  let pseudoInput := C.commit input.amount (coins.pseudoMask index)
  let ownership : AssetOwnershipProof Key :=
    { assetId, pseudoInput, keyImage := Blob.zero 32, ring := input.ring,
      signature := { s := [], c1 := Blob.zero 32, I := Blob.zero 32, D := Blob.zero 32 } }
  let message ← deriveAssetOwnershipMessage C ownership network carrierPrefixHash
  let signature ← (S.proveRctCLSAGSimple index message
    (input.ring.map AssetRingMember.publicOutput) { dest := input.spendSecret, mask := input.mask }
    (coins.pseudoMask index) pseudoInput input.realOutputIndex).mapError
    ("failed to construct asset ownership proof: " ++ ·)
  return { ownership with keyImage := signature.I, signature }

/-- The payload of a transfer, before it is checked. -/
def transferPayloadOf (network : NetworkType) (carrierPrefixHash assetId : Hash)
    (inputs : List AssetTransferInput) (burnAmount : UInt64)
    (made : List (AssetRecipientData Key × Key)) (proof : BulletproofPlus Key)
    (owned : List (AssetOwnershipProof Key)) : AssetTransactionPayload Key where
  version := assetTransactionWireVersion
  network := network
  carrierPrefixHash := carrierPrefixHash
  issuance := none
  balances := [
    { assetId,
      pseudoInputs := transferPseudoInputs C coins assetId inputs,
      outputs := made.map Prod.snd,
      burns := burnCommitments C S coins inputs.length burnAmount,
      rangeProofs := [proof] }]
  outputRecipients := [made.map Prod.fst]
  ownershipProofs := owned

def createAssetTransferTransactionPayload (network : NetworkType) (assetId : Hash)
    (inputs : List AssetTransferInput) (destinations : List AssetTransferDestination)
    (burnAmount : UInt64) (carrierPrefixHash : Hash) :
    Except String (AssetTransactionPayload Key) := do
  failIf (network.isPublic = false) "asset transfer requires a public network"
  failIf (assetId = nullHash ∨ carrierPrefixHash = nullHash)
    "asset transfer has a zero asset or carrier id"
  failIf (inputs.length = 0 ∨ inputs.length > maxConfidentialAssetInputs)
    "asset transfer has an invalid input count"
  failIf (destinations.length = 0 ∨ destinations.length > maxConfidentialAssetOutputs)
    "asset transfer has an invalid destination count"
  let inputTotal ← loop (checkTransferInput C S assetId) inputs 0
  let destinationTotal ← loop addDestination destinations 0
  failIf (burnAmount > 18446744073709551615 - destinationTotal ∨
      destinationTotal + burnAmount ≠ inputTotal)
    "asset transfer amounts do not consume the inputs exactly"
  failIf (destinations.length > maxConfidentialAssetOutputs - burnOutputs burnAmount)
    "asset transfer has too many recipients for its burn"
  let orders := transferOutputs C S coins inputs.length destinations burnAmount
  let made ← makeOutputs C D S orders
  let masks := transferMasks C S coins inputs.length
  let proof ← (S.bulletproofPlusProve (proofAmounts orders burnAmount) masks).mapError
    ("failed to construct asset range proof: " ++ ·)
  let owned ← mapAll (proveOwnership C S coins network assetId carrierPrefixHash) inputs.zipIdx
  let created := transferPayloadOf C S coins network carrierPrefixHash assetId inputs burnAmount
    made proof owned
  verifyAssetTransactionPayload C created [assetId] network carrierPrefixHash
  return created

def addMonzeroAssetTxExtra (extra payload : List UInt8) : Except String (List UInt8) := do
  failIf (payload = [] ∨ payload.length > txExtraMonzeroAssetMaxCount)
    "Monzero asset envelope has an invalid size"
  match ← getMonzeroAssetTxExtra extra with
  | some _ => .error "transaction already contains a Monzero asset envelope"
  | none => return extra ++ writeField (.monzeroAsset payload)

/-- A payload is encoded and written into the extra field. -/
def attachPayload (tx : TransactionPrefix) (p : AssetTransactionPayload Key) :
    Except String TransactionPrefix := do
  let encoded ← encodeAssetTransactionPayload C p
  let extra ← addMonzeroAssetTxExtra tx.extra encoded
  return { tx with extra }

def attachIssuanceToNativeTransaction (H : TransactionHashes) (tx : TransactionPrefix)
    (issuance : IssuancePayload) (recipient : AccountPublicAddress) (isSubaddress : Bool) :
    Except String (TransactionPrefix × AssetTransactionPayload Key) := do
  match ← getMonzeroAssetTxExtra tx.extra with
  | some _ => .error "native transaction already contains an asset envelope"
  | none => do
      let carrier ← getTransactionAssetCarrierHash H tx
      let created ← createIssuanceTransactionPayload C D S coins issuance recipient isSubaddress
        carrier
      let attached ← attachPayload C tx created
      match parseNativeAssetTransaction C H attached hfVersionMonzeroAssets
          issuance.descriptor.network with
      | .ok (some _) => return (attached, created)
      | _ => .error "attached issuance envelope did not round trip"

/-- The same call with what it does to the transaction: the envelope is written before the last
check, and stays when that fails. -/
def attachIssuanceInPlace (H : TransactionHashes) (tx : TransactionPrefix)
    (issuance : IssuancePayload) (recipient : AccountPublicAddress) (isSubaddress : Bool) :
    Except String (AssetTransactionPayload Key) × TransactionPrefix :=
  let written : Except String (AssetTransactionPayload Key × TransactionPrefix) := do
    match ← getMonzeroAssetTxExtra tx.extra with
    | some _ => .error "native transaction already contains an asset envelope"
    | none => do
        let carrier ← getTransactionAssetCarrierHash H tx
        let created ← createIssuanceTransactionPayload C D S coins issuance recipient isSubaddress
          carrier
        let attached ← attachPayload C tx created
        return (created, attached)
  match written with
  | .error message => (.error message, tx)
  | .ok (created, attached) =>
      match parseNativeAssetTransaction C H attached hfVersionMonzeroAssets
          issuance.descriptor.network with
      | .ok (some _) => (.ok created, attached)
      | _ => (.error "attached issuance envelope did not round trip", attached)

end Monzero.AssetBuilders
