import Monzero.AssetWire
import Monzero.IndexedTable
import Mathlib.Data.List.Sort

/-!
The asset tables of the block chain database and the functions that read and
write them: rebuilding the registry from the stored issuances, validating an
asset transaction for the transaction pool, and applying one for a block. All
checks of an application come before its first write; a write that fails throws,
and what was written before it stays until the caller aborts its transaction.
-/
namespace Monzero.AssetDb

open Bytes Checked IndexedTable Primitives IssuanceCodec AssetRegistry AssetConfidential AssetWire

/-- `asset_output_data_t`; its `height` is the height of the row. -/
structure AssetOutputData (K : Type) where
  assetId : Hash
  destination : K
  commitment : K
  txPublicKey : PublicKey
  encryptedAmount : EcdhTuple K
  viewTag : UInt8
  outputIndex : ℕ
deriving DecidableEq

/-- The tables `m_asset_records`, `m_asset_outputs` and `m_asset_key_images`, each with its
index by height. -/
@[ext]
structure AssetTables (K : Type) where
  records : Table Hash (List UInt8)
  outputs : Table Hash (AssetOutputData K)
  keyImages : Table K Unit
deriving DecidableEq

namespace AssetTables

variable {K : Type}

def empty : AssetTables K := ⟨.empty, .empty, .empty⟩

/-- The three `remove_asset_*_from_height` calls of `pop_block`. -/
def removeFromHeight [DecidableEq K] (t : AssetTables K) (height : ℕ) : AssetTables K :=
  ⟨t.records.removeFromHeight height, t.outputs.removeFromHeight height,
    t.keyImages.removeFromHeight height⟩

/-- Every row lies below a height. -/
structure Below (t : AssetTables K) (height : ℕ) : Prop where
  records : ∀ r ∈ t.records.rows, r.height < height
  outputs : ∀ r ∈ t.outputs.rows, r.height < height
  keyImages : ∀ r ∈ t.keyImages.rows, r.height < height

end AssetTables

/-- The database as asset code sees it: the blocks, newest first, and the asset tables. -/
@[ext]
structure BlockchainDb (B K : Type) where
  blocks : List B
  assets : AssetTables K

namespace BlockchainDb

variable {B K : Type}

def height (db : BlockchainDb B K) : ℕ := db.blocks.length

/-- The asset side of `add_block`: the height grows, the tables stay. -/
def addBlock (db : BlockchainDb B K) (block : B) : BlockchainDb B K :=
  { db with blocks := block :: db.blocks }

/-- `pop_block`: the top block goes, with the rows from its height on. -/
def popBlock [DecidableEq K] (db : BlockchainDb B K) : BlockchainDb B K :=
  { blocks := db.blocks.tail, assets := db.assets.removeFromHeight (db.height - 1) }

end BlockchainDb

/-- The order in which stored issuances are replayed: by height, then by
`std::memcmp` of the ids. -/
def storedBefore (left right : Row Hash (List UInt8)) : Bool :=
  if left.height ≠ right.height then left.height < right.height
  else memcmpLt left.key.bytes right.key.bytes

/-- `std::sort` of the stored issuances. -/
def sortRecords (rows : List (Row Hash (List UInt8))) : List (Row Hash (List UInt8)) :=
  rows.insertionSort fun left right => storedBefore right left = false

variable {B K : Type} [DecidableEq K]

/-- One turn of the loop that replays the stored issuances. -/
def replayRecord (C : Crypto K) (expectedNetwork : NetworkType) (registry : Registry)
    (stored : Row Hash (List UInt8)) : Except String Registry := do
  let payload ← decodeIssuancePayload C stored.value
  failIf (payload.descriptor.network ≠ expectedNetwork)
    "stored asset belongs to a different network"
  let (registry', derived) ← registry.applyIssuance C payload stored.height
  failIf (derived ≠ stored.key) "stored asset id does not match its authenticated payload"
  return registry'

def loadRegistryFromDb (C : Crypto K) (t : AssetTables K) (expectedNetwork : NetworkType) :
    Except String Registry :=
  loop (replayRecord C expectedNetwork) (sortRecords t.records.rows) .empty

/-- The comparison of one claimed ring member with consensus storage. -/
def checkRingMemberAgainstDb (t : AssetTables K) (proof : AssetOwnershipProof K)
    (member : AssetRingMember K) : Except String Unit :=
  match t.outputs.get member.outputId with
  | none => .error "asset ownership ring references an unknown output"
  | some stored => do
      failIf (stored.value.assetId ≠ member.assetId ∨ member.assetId ≠ proof.assetId)
        "asset ownership ring member has the wrong asset id"
      failIf (stored.value.destination ≠ member.publicOutput.dest)
        "asset ownership ring destination does not match consensus state"
      failIf (stored.value.commitment ≠ member.publicOutput.mask)
        "asset ownership ring commitment does not match consensus state"

def verifyAssetOwnershipAgainstDb (C : Crypto K) (t : AssetTables K)
    (proof : AssetOwnershipProof K) (expectedNetwork : NetworkType) (carrierPrefixHash : Hash) :
    Except String Unit := do
  failIf (t.keyImages.contains proof.keyImage = true) "asset key image is already spent"
  checkAll (checkRingMemberAgainstDb t proof) proof.ring
  verifyAssetOwnershipProof C proof expectedNetwork carrierPrefixHash

/-- The id of the output at a position of a payload, which must not be stored yet. -/
def candidateId (C : Crypto K) (t : AssetTables K) (expectedNetwork : NetworkType)
    (carrierPrefixHash : Hash) (output : PayloadOutput K × ℕ) : Except String Hash := do
  let id ← deriveAssetOutputId C expectedNetwork carrierPrefixHash output.1 output.2
  failIf (t.outputs.contains id = true) "asset output identity already exists"
  return id

/-- The loop that derives the output ids of a payload. -/
def candidateIds (C : Crypto K) (t : AssetTables K) (p : AssetTransactionPayload K)
    (expectedNetwork : NetworkType) (carrierPrefixHash : Hash) : Except String (List Hash) :=
  mapAll (candidateId C t expectedNetwork carrierPrefixHash) (payloadOutputs p).zipIdx

/-- The registry check of the issuance a payload carries, if it carries one. -/
def checkIssuanceAgainst (C : Crypto K) (registry : Registry) (height : ℕ) :
    Option IssuancePayload → Except String Unit
  | none => .ok ()
  | some issuance => do
      let _ ← registry.applyIssuance C issuance height
      return ()

def verifyAssetTransactionAgainstDb (C : Crypto K) (db : BlockchainDb B K)
    (p : AssetTransactionPayload K) (expectedNetwork : NetworkType)
    (expectedCarrierPrefixHash : Hash) : Except String Unit := do
  let registry ← loadRegistryFromDb C db.assets expectedNetwork
  verifyAssetTransactionPayload C p registry.knownAssets expectedNetwork
    expectedCarrierPrefixHash
  checkAll (fun proof => verifyAssetOwnershipAgainstDb C db.assets proof expectedNetwork
    expectedCarrierPrefixHash) p.ownershipProofs
  checkIssuanceAgainst C registry db.height p.issuance
  let _ ← candidateIds C db.assets p expectedNetwork expectedCarrierPrefixHash
  return ()

/-- `issued_id` and `encoded_issuance` of `apply_asset_transaction_to_db`. -/
def prepareIssuance (C : Crypto K) (registry : Registry) (height : ℕ) :
    Option IssuancePayload → Except String (Option (Hash × List UInt8))
  | none => .ok none
  | some issuance => do
      let (_, id) ← registry.applyIssuance C issuance height
      let encoded ← encodeIssuancePayload C issuance
      return some (id, encoded)

/-- The part of `apply_asset_transaction_to_db` that comes before its first write. -/
def prepareAssetTransaction (C : Crypto K) (t : AssetTables K) (p : AssetTransactionPayload K)
    (expectedNetwork : NetworkType) (expectedCarrierPrefixHash : Hash) (height : ℕ) :
    Except String (Option (Hash × List UInt8) × List Hash) := do
  let registry ← loadRegistryFromDb C t expectedNetwork
  verifyAssetTransactionPayload C p registry.knownAssets expectedNetwork
    expectedCarrierPrefixHash
  checkAll (fun proof => verifyAssetOwnershipAgainstDb C t proof expectedNetwork
    expectedCarrierPrefixHash) p.ownershipProofs
  let issued ← prepareIssuance C registry height p.issuance
  let ids ← candidateIds C t p expectedNetwork expectedCarrierPrefixHash
  return (issued, ids)

/-- One write of an application. -/
inductive AssetWrite (K : Type)
  | record (row : Row Hash (List UInt8))
  | keyImage (row : Row K Unit)
  | output (row : Row Hash (AssetOutputData K))

/-- `add_asset_record`, `add_asset_key_image` and `add_asset_output`. -/
def writeAsset (t : AssetTables K) : AssetWrite K → Except String (AssetTables K)
  | .record row => do
      let records ← t.records.add row "Attempting to add an asset record that already exists"
      return { t with records }
  | .keyImage row => do
      let keyImages ← t.keyImages.add row
        "Attempting to spend an asset key image that already exists"
      return { t with keyImages }
  | .output row => do
      let outputs ← t.outputs.add row "Attempting to add an asset output that already exists"
      return { t with outputs }

def recordRows (height : ℕ) : Option (Hash × List UInt8) → List (Row Hash (List UInt8))
  | none => []
  | some (id, encoded) => [{ key := id, height, value := encoded }]

def keyImageRows (p : AssetTransactionPayload K) (height : ℕ) : List (Row K Unit) :=
  p.ownershipProofs.map fun proof => { key := proof.keyImage, height, value := () }

/-- The rows the outputs of a payload become, in the order of their ids. -/
def outputRows (p : AssetTransactionPayload K) (height : ℕ) (ids : List Hash) :
    List (Row Hash (AssetOutputData K)) :=
  (ids.zip (payloadOutputs p).zipIdx).map fun entry =>
    let (id, output, index) := entry
    { key := id, height, value :=
      { assetId := output.assetId, destination := output.recipient.destination,
        commitment := output.commitment, txPublicKey := output.recipient.txPublicKey,
        encryptedAmount := output.recipient.encryptedAmount,
        viewTag := output.recipient.viewTag, outputIndex := index } }

/-- The writes in the order in which they are made. -/
def assetWrites (p : AssetTransactionPayload K) (height : ℕ)
    (issued : Option (Hash × List UInt8)) (ids : List Hash) : List (AssetWrite K) :=
  (recordRows height issued).map .record ++ ((keyImageRows p height).map .keyImage ++
    (outputRows p height ids).map .output)

/-- How a call fails: it returns false with a message, or it throws. -/
inductive Failure
  | rejected (message : String)
  | thrown (message : String)
deriving DecidableEq

/-- `apply_asset_transaction_to_db`: the output ids or the failure, and the tables as the
call leaves them. -/
def applyAssetTransactionToDb (C : Crypto K) (t : AssetTables K) (p : AssetTransactionPayload K)
    (expectedNetwork : NetworkType) (expectedCarrierPrefixHash : Hash) (height : ℕ) :
    Except Failure (List Hash) × AssetTables K :=
  match prepareAssetTransaction C t p expectedNetwork expectedCarrierPrefixHash height with
  | .error message => (.error (.rejected message), t)
  | .ok (issued, ids) =>
      match performAll writeAsset (assetWrites p height issued ids) t with
      | (.error message, t') => (.error (.thrown message), t')
      | (.ok _, t') => (.ok ids, t')

end Monzero.AssetDb
