import Monzero.AssetDb
import Monzero.ComparatorSort
import Monzero.Paging
import Monzero.TxExtra

/-!
The two requests that enumerate asset tables, `get_assets` and `get_asset_outputs`. Each
collects the rows, sorts them by height and id, and answers with one page of them; outputs
can also be asked for by index or by id. Ids and keys are written as hexadecimal text.
-/
namespace Monzero.AssetRpc

open Bytes Checked IndexedTable Primitives IssuanceCodec AssetDb ComparatorSort Paging TxExtra

/-! ### Hexadecimal text -/

/-- `misc_utils::parse::isx`; `none` for the entries `0xff`. -/
def hexDigit (c : UInt8) : Option UInt8 :=
  if 0x30 ≤ c ∧ c ≤ 0x39 then some (c - 0x30)
  else if 0x41 ≤ c ∧ c ≤ 0x46 then some (c - 0x37)
  else if 0x61 ≤ c ∧ c ≤ 0x66 then some (c - 0x57)
  else none

/-- `from_hex::to_buffer_unchecked`. -/
def readHex : List UInt8 → Option (List UInt8)
  | [] => some []
  | [_] => none
  | high :: low :: rest => do
      let h ← hexDigit high
      let l ← hexDigit low
      let bytes ← readHex rest
      return (h <<< 4 ||| l) :: bytes

/-- `string_tools::hex_to_pod`. -/
def hexToPod (n : ℕ) (text : List UInt8) : Option (Blob n) :=
  if text.length / 2 ≠ n then none
  else
    match readHex text with
    | none => none
    | some bytes => if h : bytes.length = n then some ⟨bytes, h⟩ else none

/-- The character of a digit. -/
def hexChar (digit : UInt8) : UInt8 := if digit < 10 then 0x30 + digit else 0x57 + digit

/-- `string_tools::pod_to_hex`. -/
def podToHex (bytes : List UInt8) : List UInt8 :=
  bytes.flatMap fun (byte : UInt8) => [hexChar (byte >>> 4), hexChar (byte &&& 15)]

/-! ### Answers -/

inductive RpcErrorCode
  | wrongParam
  | internalError
deriving DecidableEq

structure RpcError where
  code : RpcErrorCode
  message : String
deriving DecidableEq

/-- The order of both enumerations: by height, then by `memcmp` of the ids. -/
def enumeratedBefore {ν : Type} (left right : Row Hash ν) : Bool :=
  if left.height ≠ right.height then left.height < right.height
  else memcmpLt left.key.bytes right.key.bytes

/-- `COMMAND_RPC_GET_ASSETS::request`. -/
structure AssetsRequest where
  offset : UInt64
  count : UInt64

/-- `COMMAND_RPC_GET_ASSETS::entry`. -/
structure AssetEntry where
  assetId : List UInt8
  height : ℕ
  assetClass : UInt8
  issuerKey : List UInt8
  atomicSupply : UInt64
  displayDecimals : UInt8
  metadataContentHash : List UInt8
  metadataReference : List UInt8
  collectionId : List UInt8
deriving DecidableEq

/-- `COMMAND_RPC_GET_ASSETS::response`. -/
structure AssetsResponse where
  active : Bool
  total : ℕ
  assets : List AssetEntry
deriving DecidableEq

def assetEntry (record : Row Hash IssuancePayload) : AssetEntry where
  assetId := podToHex record.key.bytes
  height := record.height
  assetClass := record.value.descriptor.type.toByte
  issuerKey := podToHex record.value.descriptor.issuerKey.bytes
  atomicSupply := record.value.descriptor.atomicSupply
  displayDecimals := record.value.descriptor.displayDecimals
  metadataContentHash := podToHex record.value.descriptor.metadataHash.bytes
  metadataReference := record.value.descriptor.metadataReference
  collectionId :=
    if record.value.descriptor.collectionId ≠ nullHash then
      podToHex record.value.descriptor.collectionId.bytes
    else []

/-- The callback that collects one stored asset. -/
def readRecord (C : Crypto Key) (row : Row Hash (List UInt8)) :
    Except RpcError (Row Hash IssuancePayload) :=
  match decodeIssuancePayload C row.value with
  | .error e => .error ⟨.internalError, "Failed to enumerate assets: invalid stored asset: " ++ e⟩
  | .ok payload => .ok { key := row.key, height := row.height, value := payload }

def onGetAssets (C : Crypto Key) (version : ℕ) (t : AssetTables Key) (req : AssetsRequest) :
    Except RpcError AssetsResponse := do
  failIf (req.count = 0 ∨ req.count > 1000)
    (⟨.wrongParam, "Asset result count must be between 1 and 1000"⟩ : RpcError)
  let collected ← mapAll (readRecord C) t.records.rows
  let records := sortBy enumeratedBefore collected
  return {
    active := hfVersionMonzeroAssets ≤ version
    total := records.length
    assets := (pick records (pageIndices records.length req.offset req.count)).map assetEntry }

/-- `COMMAND_RPC_GET_ASSET_OUTPUTS::request`. -/
structure AssetOutputsRequest where
  assetId : List UInt8
  offset : UInt64
  count : UInt64
  indices : List UInt64
  outputIds : List (List UInt8)

/-- `COMMAND_RPC_GET_ASSET_OUTPUTS::entry`. -/
structure AssetOutputEntry where
  outputId : List UInt8
  assetId : List UInt8
  destination : List UInt8
  commitment : List UInt8
  txPublicKey : List UInt8
  encryptedMask : List UInt8
  encryptedAmount : List UInt8
  viewTag : List UInt8
  outputIndex : ℕ
  height : ℕ
deriving DecidableEq

/-- `COMMAND_RPC_GET_ASSET_OUTPUTS::response`. -/
structure AssetOutputsResponse where
  active : Bool
  total : ℕ
  outputs : List AssetOutputEntry
deriving DecidableEq

def assetOutputEntry (record : Row Hash (AssetOutputData Key)) : AssetOutputEntry where
  outputId := podToHex record.key.bytes
  assetId := podToHex record.value.assetId.bytes
  destination := podToHex record.value.destination.bytes
  commitment := podToHex record.value.commitment.bytes
  txPublicKey := podToHex record.value.txPublicKey.bytes
  encryptedMask := podToHex record.value.encryptedAmount.mask.bytes
  encryptedAmount := podToHex record.value.encryptedAmount.amount.bytes
  viewTag := podToHex [record.value.viewTag]
  outputIndex := record.value.outputIndex
  height := record.height

/-- `filter`, or `none` when the request is not filtered. -/
def readFilter (assetId : List UInt8) : Except RpcError (Option Hash) :=
  if assetId = [] then .ok none
  else
    match hexToPod 32 assetId with
    | none => .error ⟨.wrongParam, "Asset id must be a 32-byte hexadecimal value"⟩
    | some filter => .ok (some filter)

/-- The stored outputs that pass the filter, in order. -/
def enumeratedOutputs (t : AssetTables Key) (filter : Option Hash) :
    List (Row Hash (AssetOutputData Key)) :=
  sortBy enumeratedBefore
    (t.outputs.rows.filter fun row => filter.all fun id => row.value.assetId = id)

/-- One turn of the loop over the requested indexes. -/
def selectIndex (records : List (Row Hash (AssetOutputData Key))) (index : UInt64) :
    Except RpcError ℕ := do
  failIf (index.toNat ≥ records.length)
    (⟨.wrongParam, "Asset output index is out of range"⟩ : RpcError)
  return index.toNat

/-- One turn of the loop over the requested ids. -/
def selectId (records : List (Row Hash (AssetOutputData Key))) (text : List UInt8) :
    Except RpcError ℕ :=
  match hexToPod 32 text with
  | none => .error ⟨.wrongParam, "Asset output id must be a 32-byte hexadecimal value"⟩
  | some id =>
      match records.findIdx? fun record => record.key = id with
      | none => .error ⟨.wrongParam, "Requested asset output id was not found"⟩
      | some index => .ok index

/-- `selected`: the request names indexes or ids. -/
def AssetOutputsRequest.isSelected (req : AssetOutputsRequest) : Bool :=
  req.indices ≠ [] ∨ req.outputIds ≠ []

def selectedIndices (records : List (Row Hash (AssetOutputData Key)))
    (req : AssetOutputsRequest) : Except RpcError (List ℕ) :=
  if req.isSelected then do
    let byIndex ← mapAll (selectIndex records) req.indices
    let byId ← mapAll (selectId records) req.outputIds
    return orderedSet (byIndex ++ byId)
  else .ok (orderedSet (pageIndices records.length req.offset req.count))

def onGetAssetOutputs (version : ℕ) (t : AssetTables Key) (req : AssetOutputsRequest) :
    Except RpcError AssetOutputsResponse := do
  failIf ((req.isSelected = false ∧ (req.count = 0 ∨ req.count > 1000)) ∨
      req.indices.length + req.outputIds.length > 1000)
    (⟨.wrongParam, "Asset output result count must be between 1 and 1000"⟩ : RpcError)
  let filter ← readFilter req.assetId
  let records := enumeratedOutputs t filter
  let indices ← selectedIndices records req
  return {
    active := hfVersionMonzeroAssets ≤ version
    total := records.length
    outputs := (pick records indices).map assetOutputEntry }

end Monzero.AssetRpc
