import Monzero.TxMemoryPool

/-!
Merge mining. A request names auxiliary chains by id, with a hash for each. A nonce is
searched for which the ids fall into different slots, the hashes become the leaves of a
Merkle tree, and the root goes into the extra field of the miner transaction of a block
template, in place of the tag that was there.
-/
namespace Monzero.MergeMining

open Bytes Checked Primitives TxExtra TxMemoryPool

/-- The functions that are not modelled: two hashes, and the parser of blocks. -/
structure AuxEnv where
  sha256 : List UInt8 → Hash
  /-- `cn_fast_hash`. -/
  fastHash : List UInt8 → Hash
  /-- `parse_and_validate_block_from_blob`. -/
  parseBlock : List UInt8 → Option Block

variable (E : AuxEnv)

def getAuxSlot (id : Hash) (nonce nAuxChains : UInt32) : Option UInt32 :=
  if nAuxChains = 0 then none
  else
    let res := E.sha256 (id.bytes ++ leBytes 4 nonce.toNat ++ [0x6d])
    some (UInt32.ofNat (leValue (res.bytes.take 4)) % nAuxChains)

/-- The loop of `encode_mm_depth` for the bits of the number of chains. -/
def countBits (nAuxChains : UInt32) : ℕ → UInt32 → UInt32
  | 0, nBits => nBits
  | rounds + 1, nBits =>
      if (1 : UInt32) <<< nBits < nAuxChains ∧ nBits < 16 then
        countBits nAuxChains rounds (nBits + 1)
      else nBits

def encodeMmDepth (nAuxChains nonce : UInt32) : Option UInt32 :=
  if nAuxChains = 0 then none
  else
    let nBits : UInt32 := countBits nAuxChains 16 1
    let low : UInt32 := (nBits - 1) ||| ((nAuxChains - 1) <<< (3 : UInt32))
    some (low ||| (nonce <<< ((3 : UInt32) + nBits)))

/-- `decode_mm_depth`: the number of chains and the nonce. -/
def decodeMmDepth (depth : UInt32) : UInt32 × UInt32 :=
  let nBits : UInt32 := 1 + (depth &&& 7)
  let mask : UInt32 := ((1 : UInt32) <<< nBits) - 1
  (1 + ((depth >>> (3 : UInt32)) &&& mask), depth >>> ((3 : UInt32) + nBits))

/-- The loop of `tree_hash_cnt`. -/
def growPow (count : ℕ) : ℕ → ℕ → ℕ
  | 0, pow => pow
  | rounds + 1, pow => if pow < count then growPow count rounds (2 * pow) else pow

def treeHashCnt (count : ℕ) : ℕ := growPow count count 2 / 2

def hashPair (a b : Hash) : Hash := E.fastHash (a.bytes ++ b.bytes)

/-- Hashes taken two by two. -/
def hashPairs : List Hash → List Hash
  | a :: b :: rest => hashPair E a b :: hashPairs rest
  | _ => []

/-- The levels of a tree, down to the two hashes under the root. -/
def hashLevels : ℕ → List Hash → List Hash
  | 0, hashes => hashes
  | rounds + 1, hashes =>
      if hashes.length > 2 then hashLevels rounds (hashPairs E hashes) else hashes

/-- `tree_hash`. Above two leaves, the last ones are hashed in pairs first, so that a power of two
is left. -/
def treeHash : List Hash → Hash
  | [] => nullHash
  | [a] => a
  | hashes =>
      let count := hashes.length
      if count = 2 then (hashPairs E hashes).getD 0 nullHash
      else
        let cnt := treeHashCnt count
        let ints := hashes.take (2 * cnt - count) ++ hashPairs E (hashes.drop (2 * cnt - count))
        (hashPairs E (hashLevels E cnt ints)).getD 0 nullHash

/-- One pair of a level in `tree_path`: the index goes to the level above when it is in the
pair. -/
def pathStep (i j : ℕ) (state : ℕ × UInt32) : ℕ × UInt32 :=
  if state.1 = i then (j, state.2 <<< 1)
  else if state.1 = i + 1 then (j, (state.2 <<< 1) ||| 1)
  else state

/-- The pairs of a level, from the index `i` on; their places above start at `j`. -/
def pathLevel (i j cnt : ℕ) (state : ℕ × UInt32) : ℕ × UInt32 :=
  (List.range (cnt - j)).foldl (fun state k => pathStep (i + 2 * k) (j + k) state) state

/-- The levels of `tree_path`, from a level of `cnt` hashes up. -/
def pathLevels : ℕ → ℕ → ℕ × UInt32 → ℕ × UInt32
  | 0, _, state => state
  | rounds + 1, cnt, state =>
      if cnt > 2 then pathLevels rounds (cnt / 2) (pathLevel 0 0 (cnt / 2) state) else state

/-- `tree_path`; `none` when it fails. -/
def treePath (count idx : ℕ) : Option UInt32 :=
  if count = 0 then none
  else if count = 1 then some 0
  else if count = 2 then some (if idx = 0 then 0 else 1)
  else
    let cnt := treeHashCnt count
    let start := 2 * cnt - count
    let state := pathLevels cnt cnt (pathLevel start start cnt (idx, 0))
    some (if state.1 = 0 then state.2 <<< 1
      else if state.1 = 1 then (state.2 <<< 1) ||| 1 else state.2)

def getPathFromAuxSlot (slot nAuxChains : UInt32) : Option UInt32 :=
  if nAuxChains = 0 ∨ slot ≥ nAuxChains then none else treePath nAuxChains.toNat slot.toNat

/-- `tree_branch_hash`, with a branch of the given depth. -/
def treeBranchHash (hash : Hash) (branch : List Hash) (path : UInt32) : Hash :=
  branch.zipIdx.foldl (fun part step =>
    if path.toNat / 2 ^ (branch.length - step.2 - 1) % 2 = 1 then hashPair E step.1 part
    else hashPair E part step.1) hash

/-- The value of a hexadecimal digit. -/
def hexDigit (c : Char) : Option UInt8 :=
  if '0' ≤ c ∧ c ≤ '9' then some (UInt8.ofNat (c.toNat - 48))
  else if 'a' ≤ c ∧ c ≤ 'f' then some (UInt8.ofNat (c.toNat - 87))
  else if 'A' ≤ c ∧ c ≤ 'F' then some (UInt8.ofNat (c.toNat - 55))
  else none

/-- `from_hex::to_buffer_unchecked`. -/
def fromHex : List Char → Option (List UInt8)
  | [] => some []
  | [_] => none
  | a :: b :: rest => do
      let high ← hexDigit a
      let low ← hexDigit b
      let bytes ← fromHex rest
      return (high <<< 4 ||| low) :: bytes

/-- `hex_to_pod` for a hash. -/
def hexToHash (s : List Char) : Option Hash := do
  let bytes ← fromHex s
  if h : bytes.length = 32 then some ⟨bytes, h⟩ else none

/-- `COMMAND_RPC_ADD_AUX_POW::request`, and whether the server is restricted. Strings are lists of
characters. -/
structure AddAuxPowRequest where
  /-- The ids and hashes. -/
  auxPow : List (List Char × List Char)
  blocktemplateBlob : List Char
  restricted : Bool

/-- What the response is made from: the block is returned as a blob. -/
structure AddAuxPowResponse where
  merkleRoot : Hash
  merkleTreeDepth : UInt32
  block : Block
deriving DecidableEq

/-- The loop over the entries of a request. -/
def parseAuxPow : List (List Char × List Char) → Except String (List (Hash × Hash))
  | [] => .ok []
  | (id, hash) :: rest =>
      match hexToHash id with
      | none => .error "Invalid aux pow id"
      | some id =>
          match hexToHash hash with
          | none => .error "Invalid aux pow hash"
          | some hash => do return (id, hash) :: (← parseAuxPow rest)

/-- The loop over the ids for one nonce: whether two of them share a slot. -/
def slotsCollide (nonce : UInt32) (size : ℕ) : List Hash → List UInt32 → Except String Bool
  | [], _ => .ok false
  | id :: rest, slots =>
      match getAuxSlot E id nonce (UInt32.ofNat size) with
      | none => .error "n_aux_chains is 0"
      | some slot =>
          if slot.toNat ≥ size then .error "Computed slot is out of range"
          else if slot ∈ slots then .ok true
          else slotsCollide nonce size rest (slot :: slots)

/-- The loop over the nonces. -/
def findNonce (ids : List Hash) (maxNonce : ℕ) : ℕ → ℕ → Except String UInt32
  | 0, _ => .error "Failed to find a suitable nonce"
  | rounds + 1, nonce => do
      if nonce > maxNonce then .error "Failed to find a suitable nonce"
      else if ← slotsCollide E (UInt32.ofNat nonce) ids.length ids [] then
        findNonce ids maxNonce rounds (nonce + 1)
      else .ok (UInt32.ofNat nonce)

def isMergeMiningTag : TxExtraField → Bool
  | .mergeMiningTag _ _ => true
  | _ => false

/-- `remove_field_from_tx_extra` for merge-mining tags; `none` when the extra cannot be read. -/
def removeMergeMiningTags (extra : List UInt8) : Option (List UInt8) :=
  (parseTxExtra extra).map fun fields =>
    (fields.filter fun field => !isMergeMiningTag field).flatMap writeField

def addMmMerkleRootToTxExtra (extra : List UInt8) (root : Hash) (depth : ℕ) :
    Option (List UInt8) :=
  if depth < 32 then some (extra ++ 0x03 :: 33 :: UInt8.ofNat depth :: root.bytes) else none

/-- `on_add_aux_pow`. The variable `merkle_tree_depth` keeps its first value, and the leaves stand
in the order of the request. -/
def onAddAuxPow (req : AddAuxPowRequest) : Except String AddAuxPowResponse := do
  failIf (req.restricted ∧ req.auxPow.length > 10) "Too many aux pow hashes"
  failIf (req.auxPow = []) "Empty aux pow hash vector"
  let merkleTreeDepth := 0
  let auxPow ← parseAuxPow req.auxPow
  let maxNonce := if req.restricted then 16384 else 65535
  let nonce ← findNonce E (auxPow.map Prod.fst) maxNonce (maxNonce + 1) 0
  let merkleRoot := treeHash E (auxPow.map Prod.snd)
  match encodeMmDepth (UInt32.ofNat auxPow.length) nonce with
  | none => .error "n_aux_chains is 0"
  | some depth =>
      match fromHex req.blocktemplateBlob with
      | none => .error "Invalid blocktemplate_blob"
      | some blob =>
          match E.parseBlock blob with
          | none => .error "Wrong blocktemplate_blob"
          | some b =>
              match removeMergeMiningTags b.minerTx.extra with
              | none => .error "Error removing existing merkle root"
              | some extra =>
                  match addMmMerkleRootToTxExtra extra merkleRoot merkleTreeDepth with
                  | none => .error "Error adding merkle root"
                  | some extra =>
                      .ok { merkleRoot, merkleTreeDepth := depth,
                            block := { b with minerTx := { b.minerTx with extra := extra } } }

end Monzero.MergeMining
