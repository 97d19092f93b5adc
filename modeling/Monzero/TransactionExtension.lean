import Monzero.IssuanceCodec

/-!
Transaction extensions: an issuance payload bound to a network and to the prefix of the
native transaction that carries it. This is the outermost of three nested issuance
formats; each decoder ends by encoding what it parsed and comparing.
-/
namespace Monzero.TransactionExtension

open Bytes Checked Primitives AssetTypes IssuanceCodec

variable {K : Type}

/-- `transaction_operation`. A byte read off the wire may name no operation. -/
inductive TransactionOperation
  | issuance
  | unnamed (value : UInt8)
deriving DecidableEq

namespace TransactionOperation

def toByte : TransactionOperation → UInt8
  | issuance => 1
  | unnamed value => value

/-- `static_cast<transaction_operation>(byte)`. -/
def ofByte (value : UInt8) : TransactionOperation :=
  if value = 1 then issuance else unnamed value

end TransactionOperation

structure Extension where
  version : UInt8
  network : NetworkType
  operation : TransactionOperation
  carrierPrefixHash : Hash
  issuance : IssuancePayload
deriving DecidableEq

def transactionExtensionVersion : UInt8 := 1

def transactionExtensionDomain : List UInt8 := ascii "MonzeroAssetTransactionExtensionV1"

/-- The bytes `encode_transaction_extension` writes after the domain. -/
def extensionFields (x : Extension) (operation : List UInt8) : List UInt8 :=
  x.version :: ((networkId x.network).bytes ++ (x.operation.toByte ::
    (x.carrierPrefixHash.bytes ++ (leBytes 2 operation.length ++ operation))))

def encodeTransactionExtension (C : Crypto K) (x : Extension) : Except String (List UInt8) := do
  failIf (x.version ≠ transactionExtensionVersion)
    "unsupported asset transaction extension version"
  failIf (x.network.isPublic = false)
    "asset transaction extension requires an explicit public network"
  failIf (x.operation ≠ .issuance) "unsupported asset transaction operation"
  failIf (x.carrierPrefixHash = nullHash)
    "asset transaction extension requires a carrier prefix commitment"
  failIf (x.issuance.descriptor.network ≠ x.network)
    "asset transaction extension network does not match its issuance"
  let operation ← encodeIssuancePayload C x.issuance
  failIf (operation.length > 65535) "asset transaction operation is too large"
  return transactionExtensionDomain ++ extensionFields x operation

/-- `header_size` of the decoder: everything but the operation. -/
def extensionHeaderSize : ℕ := transactionExtensionDomain.length + 1 + 16 + 1 + 32 + 2

def decodeTransactionExtension (C : Crypto K) (encoded : List UInt8) :
    Except String Extension := do
  failIf (encoded.length < extensionHeaderSize) "truncated asset transaction extension"
  failIf (encoded.take transactionExtensionDomain.length ≠ transactionExtensionDomain)
    "invalid asset transaction extension domain"
  let (version, s) ← readByte "truncated asset transaction extension"
    (encoded.drop transactionExtensionDomain.length)
  failIf (version ≠ transactionExtensionVersion)
    "unsupported asset transaction extension version"
  let (id, s) ← readPod 16 "truncated asset transaction extension network" s
  let (operationByte, s) ← readByte "truncated asset transaction extension" s
  let (carrierPrefixHash, s) ← readPod 32 "truncated asset transaction carrier commitment" s
  let (size, s) ← readUInt 2 "asset transaction operation length is not canonical" s
  failIf (size ≠ s.length) "asset transaction operation length is not canonical"
  let operation := TransactionOperation.ofByte operationByte
  failIf (operation ≠ .issuance) "unsupported asset transaction operation"
  let issuance ← decodeIssuancePayload C s
  let parsed : Extension :=
    { version, network := networkOfId id, operation, carrierPrefixHash, issuance }
  let canonical ← (encodeTransactionExtension C parsed).mapError
    fun _ => "asset transaction extension encoding is not canonical"
  failIf (canonical ≠ encoded) "asset transaction extension encoding is not canonical"
  return parsed

def deriveTransactionExtensionId (C : Crypto K) (x : Extension) : Except String Hash := do
  let encoded ← encodeTransactionExtension C x
  return C.cnFastHash encoded

def validateTransactionExtensionCarrier (C : Crypto K) (x : Extension)
    (expectedNetwork : NetworkType) (expectedPrefixHash : Hash) : Except String Unit := do
  failIf (expectedNetwork.isPublic = false)
    "asset transaction carrier validation requires an explicit network"
  failIf (expectedPrefixHash = nullHash) "expected native transaction prefix commitment is zero"
  failIf (x.network ≠ expectedNetwork) "asset transaction extension is for another network"
  failIf (x.carrierPrefixHash ≠ expectedPrefixHash)
    "asset transaction extension carrier commitment mismatch"
  let _ ← encodeTransactionExtension C x
  return ()

theorem encodeTransactionExtension_eq_ok (C : Crypto K) (x : Extension) (bytes : List UInt8) :
    encodeTransactionExtension C x = .ok bytes ↔
      ∃ op, x.version = transactionExtensionVersion ∧ x.network.isPublic = true ∧
        x.operation = .issuance ∧ x.carrierPrefixHash ≠ nullHash ∧
        x.issuance.descriptor.network = x.network ∧
        encodeIssuancePayload C x.issuance = .ok op ∧ op.length ≤ 65535 ∧
        transactionExtensionDomain ++ extensionFields x op = bytes := by
  simp only [encodeTransactionExtension, bind_eq_ok, failIf_eq_ok, pure_eq_ok, exists_unit,
    not_not, not_lt, ne_eq, Bool.not_eq_false]
  constructor
  · rintro ⟨hver, hpub, hop, hcar, hnet, op, henc, hsize, hbs⟩
    exact ⟨op, hver, hpub, hop, hcar, hnet, henc, hsize, hbs⟩
  · rintro ⟨op, hver, hpub, hop, hcar, hnet, henc, hsize, hbs⟩
    exact ⟨hver, hpub, hop, hcar, hnet, op, henc, hsize, hbs⟩

private theorem extension_size (x : Extension) (op : List UInt8) :
    extensionHeaderSize ≤ (transactionExtensionDomain ++ extensionFields x op).length := by
  simp only [extensionFields, extensionHeaderSize, List.length_append, List.length_cons,
    leBytes_length, Blob.size_eq]
  omega

theorem decode_encode_extension (C : Crypto K) (x : Extension) (bytes : List UInt8)
    (h : encodeTransactionExtension C x = .ok bytes) :
    decodeTransactionExtension C bytes = .ok x := by
  obtain ⟨op, hver, hpub, hop, -, -, henc, hsize, rfl⟩ :=
    (encodeTransactionExtension_eq_ok C x bytes).mp h
  have hlen := not_lt.mpr (extension_size x op)
  have hsize16 : op.length % 256 ^ 2 = op.length :=
    Nat.mod_eq_of_lt (by omega)
  have hbyte : TransactionOperation.ofByte TransactionOperation.issuance.toByte = .issuance := rfl
  simp only [decodeTransactionExtension, failIf_of_not _ hlen, ok_bind, List.take_left,
    List.drop_left, ne_eq, not_true_eq_false, not_false_eq_true, failIf_of_not]
  simp only [extensionFields, readByte_cons, readPod_append, readUInt_append, ok_bind, hsize16,
    networkOfId_networkId hpub, hbyte, decode_encode_payload C _ _ henc, hver, hop,
    not_true_eq_false, not_false_eq_true, failIf_of_not]
  rw [← hver, ← hop]
  change (((encodeTransactionExtension C x).mapError fun _ => _) >>= _) = _
  rw [h]
  simp [Except.mapError, extensionFields, failIf, pure, Except.pure]

theorem encode_of_decode_extension (C : Crypto K) (x : Extension) (bytes : List UInt8)
    (h : decodeTransactionExtension C bytes = .ok x) :
    encodeTransactionExtension C x = .ok bytes := by
  simp only [decodeTransactionExtension, bind_eq_ok, failIf_eq_ok, pure_eq_ok, mapError_eq_ok,
    exists_unit, Prod.exists, not_not, ne_eq] at h
  obtain ⟨-, -, _, _, -, -, _, _, -, _, _, -, _, _, -, _, _, -, -, -, _, -, canonical, henc, rfl,
    rfl⟩ := h
  exact henc

/-- In each of the three formats decoding and encoding are inverse to each other: a value is
decoded from exactly the bytes it encodes to. -/
theorem issuance_codecs_inverse (C : Crypto K) :
    (∀ d bytes, decodeIssuanceDescriptor C bytes = .ok d ↔
      encodeIssuanceDescriptor C d = .ok bytes) ∧
    (∀ p bytes, decodeIssuancePayload C bytes = .ok p ↔
      encodeIssuancePayload C p = .ok bytes) ∧
    ∀ x bytes, decodeTransactionExtension C bytes = .ok x ↔
      encodeTransactionExtension C x = .ok bytes := by
  refine ⟨?_, ?_, ?_⟩
  · intro d bytes
    exact ⟨encode_of_decode_descriptor C d bytes, decode_encode_descriptor C d bytes⟩
  · intro p bytes
    exact ⟨encode_of_decode_payload C p bytes, decode_encode_payload C p bytes⟩
  · intro x bytes
    exact ⟨encode_of_decode_extension C x bytes, decode_encode_extension C x bytes⟩

end Monzero.TransactionExtension
