import Monzero.AssetRegistry
import Monzero.ComparatorSort
import Monzero.TransactionExtension

/-!
The calls that change a registry as a whole: batches of issuances, batches of extensions,
removal from a height, and snapshots. A batch works on a copy and a snapshot is restored
into a new registry, which replace the registry only when everything succeeded. A
snapshot lists the records by height, collections before other assets, then by id; it is
restored by registering its records again in that order.
-/
namespace Monzero.RegistrySnapshot

open Bytes Checked Primitives AssetTypes IssuanceCodec AssetRegistry TransactionExtension
  ComparatorSort

variable {K : Type}

/-- `detach`: the records issued at the height or above are erased. -/
def detach (r : Registry) (height : ℕ) : Registry where
  records := r.records.filter fun e => ¬e.2.issuanceHeight ≥ height
  ids_nodup := r.ids_nodup.sublist (List.filter_sublist.map _)

/-- A turn of the loop of `apply_block_issuances`: `candidate` and `candidate_ids`. -/
def applyNext (C : Crypto K) (height : ℕ) (candidate : Registry × List Hash)
    (payload : IssuancePayload) : Except String (Registry × List Hash) := do
  let (registry, assetId) ← candidate.1.applyIssuance C payload height
  return (registry, candidate.2 ++ [assetId])

def applyBlockIssuances (C : Crypto K) (r : Registry) (payloads : List IssuancePayload)
    (height : ℕ) : Except String (List Hash) × Registry :=
  match loop (applyNext C height) payloads (r, []) with
  | .error e => (.error e, r)
  | .ok (candidate, ids) => (.ok ids, candidate)

/-- A turn of the loop of `apply_block_extensions`. -/
def extensionIssuance (C : Crypto K) (expectedNetwork : NetworkType) (e : Extension × Hash) :
    Except String IssuancePayload := do
  validateTransactionExtensionCarrier C e.1 expectedNetwork e.2
  failIf (e.1.operation ≠ .issuance) "unsupported asset block operation"
  return e.1.issuance

def applyBlockExtensions (C : Crypto K) (r : Registry) (extensions : List Extension)
    (carrierPrefixHashes : List Hash) (expectedNetwork : NetworkType) (height : ℕ) :
    Except String (List Hash) × Registry :=
  if extensions.length ≠ carrierPrefixHashes.length then
    (.error "asset extension and carrier commitment counts differ", r)
  else
    match mapAll (extensionIssuance C expectedNetwork) (extensions.zip carrierPrefixHashes) with
    | .error e => (.error e, r)
    | .ok issuances => applyBlockIssuances C r issuances height

def registrySnapshotDomain : List UInt8 := ascii "MonzeroAssetRegistrySnapshotV1"

def registrySnapshotVersion : UInt8 := 1

def maxRegistrySnapshotRecords : ℕ := 100000

def snapshotClassPriority (type : AssetClass) : ℕ := if type = .collection then 0 else 1

abbrev Entry := Hash × AssetRecord

/-- The comparator `encode_snapshot` sorts with. -/
def snapshotBefore (left right : Entry) : Bool :=
  if left.2.issuanceHeight ≠ right.2.issuanceHeight then
    left.2.issuanceHeight < right.2.issuanceHeight
  else if snapshotClassPriority left.2.descriptor.type ≠
      snapshotClassPriority right.2.descriptor.type then
    snapshotClassPriority left.2.descriptor.type < snapshotClassPriority right.2.descriptor.type
  else memcmpLt left.1.bytes right.1.bytes

/-- The payload a record is written as. -/
def payloadOf (record : AssetRecord) : IssuancePayload where
  version := issuancePayloadVersion
  descriptor := record.descriptor
  issuerSignature := record.issuerSignature
  collectionSignature := record.collectionSignature

def recordBytes (C : Crypto K) (entry : Entry) : Except String (List UInt8) := do
  let payload ← encodeIssuancePayload C (payloadOf entry.2)
  failIf (payload.length > 65535) "issuance payload is too large for a registry snapshot"
  return leBytes 8 entry.2.issuanceHeight ++ (leBytes 2 payload.length ++ payload)

def snapshotHeader (network : NetworkType) (count : ℕ) : List UInt8 :=
  registrySnapshotDomain ++ (registrySnapshotVersion :: ((networkId network).bytes ++
    leBytes 4 count))

def encodeSnapshot (C : Crypto K) (r : Registry) (network : NetworkType) :
    Except String (List UInt8) := do
  failIf (network.isPublic = false)
    "asset registry snapshot requires an explicit public network"
  failIf (r.records.length > maxRegistrySnapshotRecords)
    "asset registry snapshot has too many records"
  failIf (r.records.any fun e => e.2.descriptor.network ≠ network)
    "asset registry contains a record from another network"
  let ordered := sortBy snapshotBefore r.records
  let parts ← mapAll (recordBytes C) ordered
  return snapshotHeader network ordered.length ++ parts.flatten

/-- `previous_height`, `previous_priority` and `previous_id`. -/
structure Position where
  height : ℕ
  priority : ℕ
  id : Hash

/-- The state of the loop of `decode_snapshot`; there is no position before the first record. -/
structure Restoring where
  restored : Registry
  previous : Option Position
  rest : List UInt8

/-- The order check of `decode_snapshot`. -/
def outOfOrder (previous : Option Position) (height priority : ℕ) (assetId : Hash) : Bool :=
  match previous with
  | none => false
  | some p => height < p.height ∨ (height = p.height ∧ (priority < p.priority ∨
      (priority = p.priority ∧ memcmpLt p.id.bytes assetId.bytes = false)))

def restoreRecord (C : Crypto K) (expectedNetwork : NetworkType) (s : Restoring) :
    Except String Restoring := do
  let (height, rest) ← readUInt 8 "truncated asset registry snapshot record" s.rest
  let (size, rest) ← readUInt 2 "truncated asset registry snapshot record" rest
  failIf (size > rest.length) "truncated asset registry snapshot record"
  let payload ← decodeIssuancePayload C (rest.take size)
  failIf (payload.descriptor.network ≠ expectedNetwork) "asset registry record network mismatch"
  let assetId ← deriveAssetId C payload.descriptor
  let priority := snapshotClassPriority payload.descriptor.type
  failIf (outOfOrder s.previous height priority assetId)
    "asset registry snapshot records are not in canonical order"
  let (restored, assetId) ← s.restored.applyIssuance C payload height
  return { restored, previous := some { height, priority, id := assetId },
           rest := rest.drop size }

/-- `header_size` of the decoder. -/
def snapshotHeaderSize : ℕ := registrySnapshotDomain.length + 1 + 16 + 4

/-- The registry `decode_snapshot` builds before it replaces the current one. -/
def restoreSnapshot (C : Crypto K) (encoded : List UInt8) (expectedNetwork : NetworkType) :
    Except String Registry := do
  failIf (expectedNetwork.isPublic = false)
    "asset registry snapshot requires an explicit expected network"
  failIf (encoded.length < snapshotHeaderSize) "truncated asset registry snapshot"
  failIf (encoded.take registrySnapshotDomain.length ≠ registrySnapshotDomain)
    "invalid asset registry snapshot domain"
  let (version, s) ← readByte "truncated asset registry snapshot"
    (encoded.drop registrySnapshotDomain.length)
  failIf (version ≠ registrySnapshotVersion) "unsupported asset registry snapshot version"
  let (id, s) ← readPod 16 "asset registry snapshot network mismatch" s
  failIf (id ≠ networkId expectedNetwork) "asset registry snapshot network mismatch"
  let (count, s) ← readUInt 4 "invalid asset registry snapshot record count" s
  failIf (count > maxRegistrySnapshotRecords) "invalid asset registry snapshot record count"
  let final ← loop (fun state _ => restoreRecord C expectedNetwork state) (List.range count)
    { restored := .empty, previous := none, rest := s }
  failIf (final.rest ≠ []) "asset registry snapshot has trailing bytes"
  return final.restored

def decodeSnapshot (C : Crypto K) (r : Registry) (encoded : List UInt8)
    (expectedNetwork : NetworkType) : Except String Unit × Registry :=
  match restoreSnapshot C encoded expectedNetwork with
  | .error e => (.error e, r)
  | .ok restored => (.ok (), restored)

def deriveSnapshotHash (C : Crypto K) (r : Registry) (network : NetworkType) :
    Except String Hash := do
  let snapshot ← encodeSnapshot C r network
  return C.cnFastHash snapshot

end Monzero.RegistrySnapshot
