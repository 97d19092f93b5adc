import Monzero.Bytes

/-!
The networks, the fixed-size values and the cryptographic primitives the asset
code calls. Keys, commitments and key images are values of a type `K`; the node
uses 32-byte strings for it, and results about the values that commitments hide
may use any type in which those values are visible. The primitives are fields of
a structure, so every result holds for every implementation of them unless it
states what it needs.
-/
namespace Monzero.Primitives

open Bytes

/-- `crypto::hash`. -/
abbrev Hash := Blob 32

instance : LawfulBEq Hash := inferInstance

/-- `crypto::public_key`. -/
abbrev PublicKey := Blob 32

/-- `crypto::signature`: the scalars `c` and `r`. -/
abbrev Signature := Blob 64

/-- `rct::key` and `crypto::key_image` as the node stores them. -/
abbrev Key := Blob 32

/-- `crypto::null_hash`. -/
def nullHash : Hash := Blob.zero 32

/-- `cryptonote::network_type`. -/
inductive NetworkType
  | mainnet
  | testnet
  | stagenet
  | fakechain
  | undefined
deriving DecidableEq

namespace NetworkType

def isPublic : NetworkType → Bool
  | mainnet | testnet | stagenet => true
  | fakechain | undefined => false

end NetworkType

/-- `get_config(network).NETWORK_ID`. The regression network runs on the main
configuration; `get_config` throws for `UNDEFINED`, which no caller passes. -/
def networkId : NetworkType → Blob 16
  | .mainnet | .fakechain =>
    ⟨[0x94, 0x83, 0x42, 0x64, 0xd0, 0xb2, 0x41, 0xdd, 0xb0, 0xf2, 0x0a, 0xda, 0x67, 0x5c, 0x77,
      0x10], rfl⟩
  | .testnet =>
    ⟨[0xad, 0xc2, 0xa2, 0x71, 0x55, 0x39, 0x43, 0xd9, 0xb3, 0xc2, 0x7a, 0xad, 0xaf, 0x6b, 0x93,
      0x8c], rfl⟩
  | .stagenet =>
    ⟨[0xb1, 0xdc, 0xac, 0x5a, 0x9d, 0x11, 0x46, 0x53, 0x81, 0x22, 0xe6, 0x7e, 0xec, 0x8b, 0x59,
      0xac], rfl⟩
  | .undefined => Blob.zero 16

/-- The loop over `{MAINNET, TESTNET, STAGENET}` that maps a network id back to its
network, with `UNDEFINED` when none matches. -/
def networkOfId (id : Blob 16) : NetworkType :=
  if id = networkId .mainnet then .mainnet
  else if id = networkId .testnet then .testnet
  else if id = networkId .stagenet then .stagenet
  else .undefined

theorem networkOfId_networkId {net : NetworkType} (h : net.isPublic = true) :
    networkOfId (networkId net) = net := by
  cases net <;> first | decide | cases h

theorem networkId_injOn {m n : NetworkType} (hm : m.isPublic = true) (hn : n.isPublic = true)
    (h : networkId m = networkId n) : m = n := by
  rw [← networkOfId_networkId hm, h, networkOfId_networkId hn]

/-- `rct::ctkey`: a one-time destination with the commitment to its amount. -/
structure CtKey (K : Type) where
  dest : K
  mask : K
deriving DecidableEq

/-- `rct::clsag`. -/
structure Clsag (K : Type) where
  s : List K
  c1 : K
  I : K
  D : K
deriving DecidableEq

/-- `rct::BulletproofPlus`. `V` holds the commitments it is about, scaled by 1/8. -/
structure BulletproofPlus (K : Type) where
  V : List K
  A : K
  A1 : K
  B : K
  r1 : K
  s1 : K
  d1 : K
  L : List K
  R : List K
deriving DecidableEq

/-- The primitives of `crypto::` and `rct::` that asset validation calls. -/
structure Crypto (K : Type) where
  /-- `crypto::cn_fast_hash`. -/
  cnFastHash : List UInt8 → Hash
  /-- `crypto::check_key`. -/
  checkKey : PublicKey → Bool
  /-- `crypto::check_signature`. -/
  checkSignature : Hash → PublicKey → Signature → Bool
  /-- The 32 bytes of a key, as `append_pod` copies them. -/
  keyBytes : K → Blob 32
  /-- `std::memcpy` of a digest into an `rct::key`. -/
  hashToKey : Hash → K
  /-- `rct::identity()`. -/
  identity : K
  /-- `rct::zero()`. -/
  zero : K
  /-- `rct::isInMainSubgroup`. -/
  isInMainSubgroup : K → Bool
  /-- `rct::commit(amount, mask)`. -/
  commit : UInt64 → K → K
  /-- `rct::addKeys` of a vector of points. -/
  addKeys : List K → K
  /-- `rct::scalarmult8`. -/
  scalarmult8 : K → K
  /-- `rct::bulletproof_plus_VERIFY`; `none` when it throws. -/
  bulletproofPlusVerify : BulletproofPlus K → Option Bool
  /-- `rct::verRctCLSAGSimple(message, sig, pubs, C_offset)`. -/
  verRctCLSAGSimple : K → Clsag K → List (CtKey K) → K → Bool

end Monzero.Primitives
