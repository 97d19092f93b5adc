import Monzero.AssetWire

/-!
What a recipient reads from an asset output. The view key gives a secret shared with the
sender; from it follow the view tag, the one-time destination and the opening of the
commitment, and the output is taken only if all three agree with what is on the wire.
-/
namespace Monzero.AssetRecipient

open Bytes Checked Primitives AssetWire

/-- `crypto::secret_key`. -/
abbrev SecretKey := Blob 32

/-- `crypto::key_derivation`. -/
abbrev KeyDerivation := Blob 32

/-- The primitives of `crypto::` and `rct::` that one-time outputs are made with. -/
structure Derivations where
  /-- `crypto::generate_key_derivation`; `none` when it fails. -/
  generateKeyDerivation : PublicKey → SecretKey → Option KeyDerivation
  /-- `crypto::derive_view_tag`. -/
  deriveViewTag : KeyDerivation → ℕ → UInt8
  /-- `crypto::derive_public_key`; `none` when it fails. -/
  derivePublicKey : KeyDerivation → ℕ → PublicKey → Option PublicKey
  /-- `crypto::derivation_to_scalar`. -/
  derivationToScalar : KeyDerivation → ℕ → Key
  /-- `rct::ecdhDecode` in the form that carries the mask. -/
  ecdhDecode : EcdhTuple Key → Key → EcdhTuple Key
  /-- `rct::h2d`. -/
  h2d : Key → UInt64

structure DecodedAssetRecipient where
  amount : UInt64
  mask : Key
deriving DecidableEq

def decodeAssetRecipientData (C : Crypto Key) (D : Derivations) (input : AssetRecipientData Key)
    (spendPublicKey : PublicKey) (viewSecretKey : SecretKey) (outputIndex : ℕ)
    (commitment : Key) : Except String DecodedAssetRecipient := do
  failIf (C.checkKey input.txPublicKey = false ∨ C.checkKey input.destination = false ∨
      C.isInMainSubgroup commitment = false)
    "asset recipient data contains an invalid point"
  match D.generateKeyDerivation input.txPublicKey viewSecretKey with
  | none => .error "failed to derive asset recipient shared secret"
  | some derivation => do
      failIf (D.deriveViewTag derivation outputIndex ≠ input.viewTag)
        "asset output view tag does not match wallet"
      match D.derivePublicKey derivation outputIndex spendPublicKey with
      | none => .error "failed to derive expected asset output destination"
      | some expectedDestination => do
          failIf (expectedDestination ≠ input.destination)
            "asset output does not belong to wallet"
          let amountKey := D.derivationToScalar derivation outputIndex
          let opening := D.ecdhDecode input.encryptedAmount amountKey
          let amount := D.h2d opening.amount
          failIf (C.commit amount opening.mask ≠ commitment)
            "asset output opening does not match commitment"
          return { amount := amount, mask := opening.mask }

end Monzero.AssetRecipient
