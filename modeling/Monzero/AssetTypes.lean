import Monzero.Primitives

/-!
Issuance descriptors and issuance payloads: their validation, their canonical
byte encodings, the asset id, and the two signatures an issuance carries.
Decoders end by encoding what they parsed and comparing it with the input, so a
decoded value is one that encodes to the bytes it came from.
-/
namespace Monzero.AssetTypes

open Bytes Checked Primitives

variable {K : Type}

/-- `asset_class`. A byte read off the wire may name none of the four classes. -/
inductive AssetClass
  | fungible
  | nonFungible
  | collection
  | edition
  | unnamed (value : UInt8)
deriving DecidableEq

namespace AssetClass

def toByte : AssetClass → UInt8
  | fungible => 1
  | nonFungible => 2
  | collection => 3
  | edition => 4
  | unnamed value => value

/-- `static_cast<asset_class>(byte)`. -/
def ofByte (value : UInt8) : AssetClass :=
  if value = 1 then fungible
  else if value = 2 then nonFungible
  else if value = 3 then collection
  else if value = 4 then edition
  else unnamed value

/-- One of the four classes the enumeration names. -/
def isNamed : AssetClass → Bool
  | unnamed _ => false
  | _ => true

theorem ofByte_toByte {type : AssetClass} (h : type.isNamed = true) :
    ofByte type.toByte = type := by
  cases type <;> first | rfl | cases h

end AssetClass

structure IssuanceDescriptor where
  version : UInt8
  network : NetworkType
  type : AssetClass
  issuerKey : PublicKey
  issuanceNonce : Hash
  atomicSupply : UInt64
  displayDecimals : UInt8
  metadataHash : Hash
  collectionId : Hash
  metadataReference : List UInt8
deriving DecidableEq

def issuanceDescriptorVersion : UInt8 := 2

/-- `MAX_DISPLAY_DECIMALS`, the display precision of the native coin. -/
def maxDisplayDecimals : UInt8 := 11

def maxMetadataReferenceBytes : ℕ := 256

def issuanceDomain : List UInt8 := ascii "MonzeroAssetIssuanceV2"

def issuanceAuthorizationDomain : List UInt8 := ascii "MonzeroAssetIssuanceAuthorizationV1"

def collectionMembershipDomain : List UInt8 := ascii "MonzeroCollectionMembershipV1"

def issuancePayloadDomain : List UInt8 := ascii "MonzeroAssetIssuancePayloadV1"

def isAsciiControl (c : UInt8) : Bool := c < 0x20 || c == 0x7f

def validateIssuanceDescriptor (C : Crypto K) (d : IssuanceDescriptor) : Except String Unit := do
  failIf (d.version ≠ issuanceDescriptorVersion) "unsupported issuance descriptor version"
  failIf (d.network.isPublic = false)
    "issuance descriptor requires an explicit public network"
  failIf (d.type.isNamed = false) "unsupported asset class"
  failIf (C.checkKey d.issuerKey = false) "invalid issuer public key"
  failIf (d.atomicSupply = 0) "asset supply must be greater than zero"
  failIf (d.displayDecimals > maxDisplayDecimals) "asset display precision exceeds XMZ precision"
  failIf ((d.type = .nonFungible ∨ d.type = .collection) ∧
      (d.atomicSupply ≠ 1 ∨ d.displayDecimals ≠ 0))
    "NFT and collection supply must be exactly one indivisible unit"
  failIf (d.type = .edition ∧ d.displayDecimals ≠ 0) "edition supply must be indivisible"
  failIf ((d.type = .fungible ∨ d.type = .collection) ∧ d.collectionId ≠ nullHash)
    "this asset class cannot reference a collection"
  failIf ((d.type = .nonFungible ∨ d.type = .edition) ∧ d.metadataHash = nullHash)
    "NFT and edition metadata must have a content hash"
  failIf (d.metadataReference.length > maxMetadataReferenceBytes)
    "metadata reference is too long"
  failIf (d.metadataReference.any isAsciiControl)
    "metadata reference contains an ASCII control byte"

/-- The bytes `encode_issuance_descriptor` writes after the domain. -/
def descriptorFields (d : IssuanceDescriptor) : List UInt8 :=
  d.version :: ((networkId d.network).bytes ++ (d.type.toByte :: (d.issuerKey.bytes ++
    (d.issuanceNonce.bytes ++ (leBytes 8 d.atomicSupply.toNat ++ (d.displayDecimals ::
    (d.metadataHash.bytes ++ (d.collectionId.bytes ++
    (leBytes 2 d.metadataReference.length ++ d.metadataReference)))))))))

def encodeIssuanceDescriptor (C : Crypto K) (d : IssuanceDescriptor) :
    Except String (List UInt8) := do
  validateIssuanceDescriptor C d
  return issuanceDomain ++ descriptorFields d

/-- `fixed_size` of the decoder: everything but the metadata reference. -/
def descriptorFixedSize : ℕ :=
  issuanceDomain.length + 1 + 16 + 1 + 32 + 32 + 8 + 1 + 32 + 32 + 2

def decodeIssuanceDescriptor (C : Crypto K) (encoded : List UInt8) :
    Except String IssuanceDescriptor := do
  failIf (encoded.length < descriptorFixedSize) "truncated issuance descriptor"
  failIf (encoded.take issuanceDomain.length ≠ issuanceDomain)
    "invalid issuance descriptor domain"
  let (version, s) ← readByte "truncated issuance descriptor"
    (encoded.drop issuanceDomain.length)
  let (id, s) ← readPod 16 "truncated issuance descriptor network" s
  let (type, s) ← readByte "truncated issuance descriptor" s
  let (issuerKey, s) ← readPod 32 "truncated issuance descriptor identity" s
  let (issuanceNonce, s) ← readPod 32 "truncated issuance descriptor identity" s
  let (atomicSupply, s) ← readUInt 8 "truncated issuance descriptor identity" s
  let (displayDecimals, s) ← readByte "truncated issuance descriptor" s
  let (metadataHash, s) ← readPod 32 "truncated issuance descriptor metadata" s
  let (collectionId, s) ← readPod 32 "truncated issuance descriptor metadata" s
  let (referenceSize, s) ← readUInt 2 "truncated issuance descriptor metadata length" s
  failIf (referenceSize > maxMetadataReferenceBytes) "metadata reference is too long"
  failIf (referenceSize ≠ s.length) "issuance descriptor length is not canonical"
  let parsed : IssuanceDescriptor :=
    { version, network := networkOfId id, type := .ofByte type, issuerKey, issuanceNonce,
      atomicSupply := UInt64.ofNat atomicSupply, displayDecimals, metadataHash, collectionId,
      metadataReference := s }
  validateIssuanceDescriptor C parsed
  let canonical ← (encodeIssuanceDescriptor C parsed).mapError
    fun _ => "issuance descriptor encoding is not canonical"
  failIf (canonical ≠ encoded) "issuance descriptor encoding is not canonical"
  return parsed

def deriveAssetId (C : Crypto K) (d : IssuanceDescriptor) : Except String Hash := do
  let encoded ← encodeIssuanceDescriptor C d
  return C.cnFastHash encoded

def deriveIssuanceAuthorizationHash (C : Crypto K) (d : IssuanceDescriptor) :
    Except String Hash := do
  let encoded ← encodeIssuanceDescriptor C d
  return C.cnFastHash (issuanceAuthorizationDomain ++ encoded)

def verifyIssuanceAuthorization (C : Crypto K) (d : IssuanceDescriptor) (signature : Signature) :
    Except String Unit := do
  let message ← deriveIssuanceAuthorizationHash C d
  failIf (C.checkSignature message d.issuerKey signature = false)
    "invalid asset issuer authorization signature"

def deriveCollectionMembershipHash (C : Crypto K) (collectionId memberAssetId : Hash) :
    Except String Hash := do
  failIf (collectionId = nullHash ∨ memberAssetId = nullHash)
    "collection and member asset IDs must be non-zero"
  return C.cnFastHash (collectionMembershipDomain ++ (collectionId.bytes ++ memberAssetId.bytes))

def verifyCollectionMembership (C : Crypto K) (collectionId memberAssetId : Hash)
    (collectionController : PublicKey) (signature : Signature) : Except String Unit := do
  failIf (C.checkKey collectionController = false) "invalid collection controller public key"
  let message ← deriveCollectionMembershipHash C collectionId memberAssetId
  failIf (C.checkSignature message collectionController signature = false)
    "invalid collection membership signature"

end Monzero.AssetTypes
