import Monzero.AssetRecipient
import Monzero.TxMemoryPool

/-!
The asset side of the wallet. A confirmed transaction with an asset envelope marks the
transfers it spends and appends the outputs it sends to the wallet; both happen in
`scan_asset_outputs`, which every driver reaches through `process_new_transaction`.
Detaching takes back what was received and spent from a height on.
-/
namespace Monzero.WalletAssets

open Bytes Checked Primitives AssetConfidential AssetWire AssetRecipient TxExtra TxMemoryPool

structure SubaddressIndex where
  major : ℕ
  minor : ℕ
deriving DecidableEq

structure AssetTransferDetails where
  assetId : Hash
  outputId : Hash
  txid : Hash
  blockHeight : ℕ
  outputIndex : ℕ
  amount : UInt64
  mask : Key
  subaddrIndex : SubaddressIndex
  destination : Key
  txPublicKey : PublicKey
  keyImage : Key
  keyImageKnown : Bool
  spent : Bool
  spentHeight : ℕ
deriving DecidableEq

/-- What scanning reads of a wallet. -/
structure Wallet where
  nettype : NetworkType
  viewSecretKey : SecretKey
  /-- `m_subaddresses` in the order of its iteration. -/
  subaddresses : List (PublicKey × SubaddressIndex)
  watchOnly : Bool
  multisig : Bool
  backgroundSyncing : Bool
  /-- `generate_key_image_helper_precomp` with the wallet's keys; `none` when it fails. -/
  keyImageOf : Key → KeyDerivation → ℕ → SubaddressIndex → Option Key
  /-- `should_skip_block`. -/
  shouldSkipBlock : Block → ℕ → Bool
  /-- `m_refresh_type == RefreshNoCoinbase`. -/
  refreshNoCoinbase : Bool
  /-- The major version in the header of a block. -/
  majorVersion : Block → ℕ

variable (C : Crypto Key) (H : TransactionHashes) (D : Derivations) (W : Wallet)

/-- One turn of the loop over the ownership proofs: the first transfer with the key image is
spent. -/
def markSpent (height : ℕ) (keyImage : Key) :
    List AssetTransferDetails → List AssetTransferDetails
  | [] => []
  | td :: rest =>
      if td.keyImageKnown ∧ td.keyImage = keyImage then
        { td with spent := true, spentHeight := height } :: rest
      else td :: markSpent height keyImage rest

/-- The key image of a received output, if the wallet can compute it. -/
def receivedKeyImage (recipient : AssetRecipientData Key) (index : ℕ)
    (subaddress : SubaddressIndex) : Option Key :=
  if W.watchOnly = false ∧ W.multisig = false ∧ W.backgroundSyncing = false then do
    let derivation ← D.generateKeyDerivation recipient.txPublicKey W.viewSecretKey
    W.keyImageOf recipient.destination derivation index subaddress
  else none

def receivedDetails (txid : Hash) (height : ℕ) (output : PayloadOutput Key) (index : ℕ)
    (id : Hash) (decoded : DecodedAssetRecipient) (subaddress : SubaddressIndex) :
    AssetTransferDetails where
  assetId := output.assetId
  outputId := id
  txid := txid
  blockHeight := height
  outputIndex := index
  amount := decoded.amount
  mask := decoded.mask
  subaddrIndex := subaddress
  destination := output.recipient.destination
  txPublicKey := output.recipient.txPublicKey
  keyImage := (receivedKeyImage D W output.recipient index subaddress).getD (Blob.zero 32)
  keyImageKnown := (receivedKeyImage D W output.recipient index subaddress).isSome
  spent := false
  spentHeight := 0

/-- The loop over the subaddresses for one output. It ends at the first one that decodes the
output; an amount of zero is a decoy. -/
def receiveOutput (txid : Hash) (height : ℕ) (carrierPrefixHash : Hash)
    (output : PayloadOutput Key) (index : ℕ) :
    List (PublicKey × SubaddressIndex) → List AssetTransferDetails → List AssetTransferDetails
  | [], transfers => transfers
  | (spendPublicKey, subaddress) :: rest, transfers =>
      match decodeAssetRecipientData C D output.recipient spendPublicKey W.viewSecretKey index
          output.commitment with
      | .error _ => receiveOutput txid height carrierPrefixHash output index rest transfers
      | .ok decoded =>
          if decoded.amount = 0 then transfers
          else
            match deriveAssetOutputId C W.nettype carrierPrefixHash output index with
            | .error _ => transfers
            | .ok id =>
                if transfers.any fun td => td.outputId = id then transfers
                else transfers ++
                  [receivedDetails D W txid height output index id decoded subaddress]

/-- What a confirmed payload does to the transfers. -/
def scanPayload (txid : Hash) (height : ℕ) (p : AssetTransactionPayload Key)
    (transfers : List AssetTransferDetails) : List AssetTransferDetails :=
  (payloadOutputs p).zipIdx.foldl
    (fun transfers output => receiveOutput C D W txid height p.carrierPrefixHash output.1 output.2
      W.subaddresses transfers)
    (p.ownershipProofs.foldl (fun transfers proof => markSpent height proof.keyImage transfers)
      transfers)

def scanAssetOutputs (txid : Hash) (tx : Transaction) (height blockVersion : ℕ) (pool : Bool)
    (transfers : List AssetTransferDetails) : List AssetTransferDetails :=
  if pool = true ∨ blockVersion < hfVersionMonzeroAssets then transfers
  else
    match parseNativeAssetTransaction C H tx.toTransactionPrefix blockVersion W.nettype with
    | .error _ => transfers
    | .ok none => transfers
    | .ok (some p) => scanPayload C D W txid height p transfers

/-- `process_new_transaction`, which changes the asset transfers by scanning only. -/
def processNewTransaction (txid : Hash) (tx : Transaction) (height blockVersion : ℕ)
    (pool : Bool) (transfers : List AssetTransferDetails) : List AssetTransferDetails :=
  scanAssetOutputs C H D W txid tx height blockVersion pool transfers

/-- `process_new_blockchain_entry`: the miner transaction, then the others in block order. -/
def processNewBlockchainEntry (b : StoredBlock) (height : ℕ)
    (transfers : List AssetTransferDetails) : List AssetTransferDetails :=
  if W.shouldSkipBlock b.block height then transfers
  else
    let transfers :=
      if W.refreshNoCoinbase then transfers
      else processNewTransaction C H D W (H.txHash b.block.minerTx) b.block.minerTx height
        (W.majorVersion b.block) false transfers
    (b.block.txHashes.zip b.txs).foldl
      (fun transfers entry => processNewTransaction C H D W entry.1 entry.2 height
        (W.majorVersion b.block) false transfers)
      transfers

/-- A plain scan of a chain, given newest block first. -/
def scanChain : List StoredBlock → List AssetTransferDetails
  | [] => []
  | b :: below => processNewBlockchainEntry C H D W b below.length (scanChain below)

def detachAssetTransfers (height : ℕ) (transfers : List AssetTransferDetails) :
    List AssetTransferDetails :=
  (transfers.map fun td =>
    if td.spent = true ∧ td.spentHeight ≥ height then
      { td with spent := false, spentHeight := 0 }
    else td).filter fun td => ¬td.blockHeight ≥ height

/-- A transaction that is processed again, with what the wallet knows about it. -/
structure ProcessTxEntry where
  txHash : Hash
  tx : Transaction
  blockHeight : ℕ
  inPool : Bool

/-- The loop of `process_scan_txs`, over entries in the order of the chain. -/
def processScanTxs (entries : List ProcessTxEntry) (transfers : List AssetTransferDetails) :
    List AssetTransferDetails :=
  entries.foldl
    (fun transfers entry => processNewTransaction C H D W entry.txHash entry.tx entry.blockHeight
      0 entry.inPool transfers)
    transfers

/-- `process_background_cache`: everything from the start height is detached, and the
transactions of the cache are processed again in order. -/
def processBackgroundCache (startHeight : ℕ) (cache : List ProcessTxEntry)
    (transfers : List AssetTransferDetails) : List AssetTransferDetails :=
  cache.foldl
    (fun transfers entry => processNewTransaction C H D W entry.txHash entry.tx entry.blockHeight
      0 false transfers)
    (detachAssetTransfers startHeight transfers)

/-- What `create_asset_transfer_transaction` is asked for, and what it reads besides the scanned
wallet. -/
structure AssetTransferRequest where
  assetId : Hash
  transferAmount : UInt64
  burnAmount : UInt64
  subaddrAccount : ℕ
  subaddrIndices : List ℕ
  lightWallet : Bool
  isBackgroundWallet : Bool
  softwareDevice : Bool
  /-- `use_fork_rules(HF_VERSION_MONZERO_ASSETS, 0)`; `none` when it throws. -/
  assetsActive : Option Bool

/-- A transfer that can be an input of the request. -/
def isEligible (request : AssetTransferRequest) (td : AssetTransferDetails) : Bool :=
  td.assetId = request.assetId ∧ td.spent = false ∧ td.keyImageKnown = true ∧ td.amount ≠ 0 ∧
    td.txPublicKey ≠ Blob.zero 32 ∧ td.subaddrIndex.major = request.subaddrAccount ∧
    (request.subaddrIndices = [] ∨ td.subaddrIndex.minor ∈ request.subaddrIndices)

/-- The order of the candidates: greatest amount first, then by `memcmp` of the output ids. -/
def spentBefore (a b : AssetTransferDetails) : Bool :=
  if a.amount ≠ b.amount then a.amount > b.amount
  else memcmpLt a.outputId.bytes b.outputId.bytes

/-- The spend key of a transfer is derived again, with the key image it was stored with. -/
def regenerates (td : AssetTransferDetails) : Bool :=
  match D.generateKeyDerivation td.txPublicKey W.viewSecretKey with
  | none => false
  | some derivation =>
      W.keyImageOf td.destination derivation td.outputIndex td.subaddrIndex = some td.keyImage

/-- The loop that selects inputs until the amount is reached. -/
def selectLoop (required : UInt64) : List AssetTransferDetails → List AssetTransferDetails →
    UInt64 → Except String (List AssetTransferDetails × UInt64)
  | [], selected, total => .ok (selected, total)
  | td :: rest, selected, total => do
      if selected.length = maxConfidentialAssetInputs then return (selected, total)
      failIf (regenerates D W td = false) "wallet could not regenerate a selected asset spend key"
      failIf (td.amount > 18446744073709551615 - total) "selected asset input amount overflows"
      if total + td.amount ≥ required then return (selected ++ [td], total + td.amount)
      selectLoop required rest (selected ++ [td]) (total + td.amount)

def selectAssetInputs (request : AssetTransferRequest) (transfers : List AssetTransferDetails) :
    Except String (List AssetTransferDetails × UInt64) := do
  failIf (request.lightWallet = true) "light wallets cannot verify asset hard-fork activation"
  failIf (W.watchOnly = true ∨ W.multisig = true ∨ W.backgroundSyncing = true ∨
      request.isBackgroundWallet = true)
    "asset transfers require a full, foreground, non-multisig wallet"
  failIf (request.softwareDevice = false) "asset transfers are not implemented for hardware wallets"
  failIf (request.transferAmount = 0 ∧ request.burnAmount = 0)
    "asset transfer and burn amounts cannot both be zero"
  failIf (request.transferAmount > 18446744073709551615 - request.burnAmount)
    "asset transfer amount overflows"
  match request.assetsActive with
  | none => .error "cannot determine asset activation from daemon"
  | some active => do
      failIf (active = false) "asset transfers are not active at the daemon's current hard fork"
      let required := request.transferAmount + request.burnAmount
      let eligible := (transfers.filter (isEligible request)).insertionSort fun a b =>
        spentBefore b a = false
      let (selected, total) ← selectLoop D W required eligible [] 0
      failIf (total < required)
        "wallet has insufficient spendable asset outputs for this operation"
      return (selected, total)

end Monzero.WalletAssets
