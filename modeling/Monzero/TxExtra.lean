import Monzero.AssetWireCodec

/-!
The extra field of a transaction as a sequence of tagged fields, and the asset
envelope among them. Reading follows the binary archive: a count is a varint, and a
varint that ends with the input is taken for what was read of it. The carrier of an
envelope is the transaction prefix whose extra is written again without it.
-/
namespace Monzero.TxExtra

open Bytes Checked Primitives AssetWire AssetWireCodec

/-- `tools::read_varint` for 64 bits, from a shift and the value so far. At the end of the
input it returns what it has, unless nothing was read. -/
def readVarintFrom (shift value : ℕ) : List UInt8 → Option (ℕ × List UInt8)
  | [] => if shift = 0 then none else some (value, [])
  | b :: rest =>
      if shift + 7 ≥ 64 ∧ b.toNat ≥ 2 ^ (64 - shift) then none
      else if b = 0 ∧ shift ≠ 0 then none
      else if b.toNat < 128 then some (value + b.toNat * 2 ^ shift, rest)
      else readVarintFrom (shift + 7) (value + (b.toNat - 128) * 2 ^ shift) rest

def readVarint (s : List UInt8) : Option (ℕ × List UInt8) := readVarintFrom 0 0 s

/-- The loop of `tools::write_varint`, which writes at most ten bytes of a 64-bit value. -/
def writeVarintBytes : ℕ → ℕ → List UInt8
  | 0, _ => []
  | fuel + 1, n =>
      if n < 128 then [UInt8.ofNat n]
      else UInt8.ofNat (n % 128 + 128) :: writeVarintBytes fuel (n / 128)

def writeVarint (n : ℕ) : List UInt8 := writeVarintBytes 10 n

/-- A string: its length and its bytes. -/
def readString (s : List UInt8) : Option (List UInt8 × List UInt8) := do
  let (size, rest) ← readVarint s
  if rest.length < size then none else some (rest.take size, rest.drop size)

def writeString (data : List UInt8) : List UInt8 := writeVarint data.length ++ data

/-- A fixed-size value copied from the input. -/
def readBlob (n : ℕ) (s : List UInt8) : Option (Blob n × List UInt8) :=
  (readPod n () s).toOption

inductive TxExtraField
  | padding (size : ℕ)
  | pubKey (key : PublicKey)
  | nonce (data : List UInt8)
  | mergeMiningTag (depth : ℕ) (merkleRoot : Hash)
  | additionalPubKeys (keys : List PublicKey)
  | monzeroAsset (data : List UInt8)
  | mysteriousMinergate (data : List UInt8)
deriving DecidableEq

def txExtraPaddingMaxCount : ℕ := 255

def txExtraNonceMaxCount : ℕ := 255

def txExtraMonzeroAssetMaxCount : ℕ := 256 * 1024

def maxTxExtraSize : ℕ := 1060

def hfVersionMonzeroAssets : ℕ := 17

/-- Elements of a vector read one after the other. -/
def readBlobs (n : ℕ) : ℕ → List UInt8 → Option (List (Blob n) × List UInt8)
  | 0, s => some ([], s)
  | count + 1, s => do
      let (x, rest) ← readBlob n s
      let (xs, rest) ← readBlobs n count rest
      return (x :: xs, rest)

/-- The merge-mining tag is a string that holds the depth and the root and nothing else. -/
def readMergeMiningTag (s : List UInt8) : Option (TxExtraField × List UInt8) := do
  let (field, rest) ← readString s
  let (depth, inner) ← readVarint field
  let (root, inner) ← readBlob 32 inner
  if inner = [] then some (.mergeMiningTag depth root, rest) else none

/-- A string of limited length under a tag. -/
def readLimited (limit : ℕ) (field : List UInt8 → TxExtraField) (s : List UInt8) :
    Option (TxExtraField × List UInt8) := do
  let (data, rest) ← readString s
  if data.length > limit then none else some (field data, rest)

/-- One field: the tag and what it announces. Padding runs to the end of the input. -/
def readField : List UInt8 → Option (TxExtraField × List UInt8)
  | [] => none
  | tag :: rest =>
      if tag = 0x00 then
        if rest.all (· = 0) ∧ rest.length + 1 ≤ txExtraPaddingMaxCount then
          some (.padding (rest.length + 1), [])
        else none
      else if tag = 0x01 then do
        let (key, rest) ← readBlob 32 rest
        return (.pubKey key, rest)
      else if tag = 0x02 then readLimited txExtraNonceMaxCount .nonce rest
      else if tag = 0x03 then readMergeMiningTag rest
      else if tag = 0x04 then do
        let (count, rest) ← readVarint rest
        if rest.length < count then none
        else
          let (keys, rest) ← readBlobs 32 count rest
          return (.additionalPubKeys keys, rest)
      else if tag = 0x7A then readLimited txExtraMonzeroAssetMaxCount .monzeroAsset rest
      else if tag = 0xDE then do
        let (data, rest) ← readString rest
        return (.mysteriousMinergate data, rest)
      else none

/-- The loop of `parse_tx_extra`; every field takes at least its tag. -/
def readFields : ℕ → List UInt8 → Option (List TxExtraField)
  | _, [] => some []
  | 0, _ :: _ => none
  | fuel + 1, s => do
      let (field, rest) ← readField s
      let fields ← readFields fuel rest
      return field :: fields

def parseTxExtra (extra : List UInt8) : Option (List TxExtraField) :=
  readFields extra.length extra

def writeField : TxExtraField → List UInt8
  | .padding size => 0x00 :: List.replicate (size - 1) 0
  | .pubKey key => 0x01 :: key.bytes
  | .nonce data => 0x02 :: writeString data
  | .mergeMiningTag depth root => 0x03 :: writeString (writeVarint depth ++ root.bytes)
  | .additionalPubKeys keys => 0x04 :: (writeVarint keys.length ++ keys.flatMap Blob.bytes)
  | .monzeroAsset data => 0x7A :: writeString data
  | .mysteriousMinergate data => 0xDE :: writeString data

def envelopes (fields : List TxExtraField) : List (List UInt8) :=
  fields.filterMap fun
    | .monzeroAsset data => some data
    | _ => none

def isEnvelope : TxExtraField → Bool
  | .monzeroAsset _ => true
  | _ => false

def getMonzeroAssetTxExtra (extra : List UInt8) : Except String (Option (List UInt8)) :=
  match parseTxExtra extra with
  | none => .error "failed to parse transaction extra"
  | some fields =>
      match envelopes fields with
      | [] => .ok none
      | [data] => .ok (some data)
      | _ => .error "transaction contains multiple Monzero asset envelopes"

/-- An extra field written again without its envelope. -/
def normalizedExtra (extra : List UInt8) (parseError : String) : Except String (List UInt8) :=
  match parseTxExtra extra with
  | none => .error parseError
  | some fields => do
      failIf ((envelopes fields).length > 1)
        "transaction contains multiple Monzero asset envelopes"
      return (fields.filter fun field => !isEnvelope field).flatMap writeField

/-- One input of a transaction: a coinbase or the spending of a key image. -/
inductive TxIn
  | gen (height : ℕ)
  | toKey (keyImage : Key)
deriving DecidableEq

/-- `transaction_prefix`. The version, the amounts, the ring offsets and the outputs are the
bytes `other`: no asset code reads them. -/
structure TransactionPrefix where
  unlockTime : ℕ
  vin : List TxIn
  extra : List UInt8
  other : List UInt8
deriving DecidableEq

structure Transaction extends TransactionPrefix where
  signatures : List UInt8
deriving DecidableEq

/-- The hashes of transactions, `get_transaction_prefix_hash` and `get_transaction_hash`. -/
structure TransactionHashes where
  prefixHash : TransactionPrefix → Hash
  txHash : Transaction → Hash

def getTransactionAssetCarrierHash (H : TransactionHashes) (tx : TransactionPrefix) :
    Except String Hash := do
  let normalized ← normalizedExtra tx.extra "failed to parse transaction extra for asset carrier"
  return H.prefixHash { tx with extra := normalized }

def getMonzeroAssetNormalizedExtraSize (tx : TransactionPrefix) : Except String ℕ := do
  let normalized ← normalizedExtra tx.extra "failed to parse transaction extra for asset policy"
  return normalized.length

def parseNativeAssetTransaction (C : Crypto Key) (H : TransactionHashes)
    (tx : TransactionPrefix) (hardForkVersion : ℕ) (expectedNetwork : NetworkType) :
    Except String (Option (AssetTransactionPayload Key)) := do
  match ← getMonzeroAssetTxExtra tx.extra with
  | none => return none
  | some encoded =>
      failIf (hardForkVersion < hfVersionMonzeroAssets)
        "Monzero asset envelope appears before activation"
      let size ← getMonzeroAssetNormalizedExtraSize tx
      failIf (size > maxTxExtraSize) "non-asset transaction extra exceeds the standard limit"
      let carrier ← getTransactionAssetCarrierHash H tx
      let decoded ← decodeAssetTransactionPayload C encoded
      failIf (decoded.network ≠ expectedNetwork)
        "native asset envelope belongs to a different network"
      failIf (decoded.carrierPrefixHash ≠ carrier)
        "native asset envelope has the wrong carrier hash"
      return some decoded

end Monzero.TxExtra
