import Monzero.SnapshotFidelity

/-!
The strings the asset code hashes, all seven kinds together. Each starts with the label of
its kind, no label begins another, and within a kind the fields can be read back from the
bytes. So a string tells which function hashed it and what the function was applied to.
An ownership message leaves out two fields of the proof it is derived from: the key image
and the signature.
-/
namespace Monzero.DomainSeparation

open Bytes Checked Codec Primitives AssetTypes IssuanceCodec AssetRegistry AssetConfidential List
  AssetWire TransactionExtension RegistrySnapshot RegistryCalls SnapshotFidelity Runs ToyCrypto

variable {K : Type}

/-- A registry as the calls on it can leave it. -/
structure ReachedRegistry (C : Crypto K) where
  registry : Registry
  reached : ∃ calls, Run (CallStep C) .empty calls registry

/-- A call of one of the seven `derive_` functions. -/
inductive HashCall (C : Crypto K)
  | assetId (descriptor : IssuanceDescriptor)
  | issuanceAuthorization (descriptor : IssuanceDescriptor)
  | collectionMembership (collectionId memberAssetId : Hash)
  | transactionExtension (extension : Extension)
  | snapshot (registry : ReachedRegistry C) (network : NetworkType)
  | outputId (network : NetworkType) (carrierPrefixHash : Hash) (output : PayloadOutput K)
      (index : UInt32)
  | ownershipMessage (proof : AssetOwnershipProof K) (network : NetworkType)
      (carrierPrefixHash : Hash)

/-- The string a call hashes, or the failure that keeps it from the hash. -/
def hashedBytes (C : Crypto K) : HashCall C → Except String (List UInt8)
  | .assetId descriptor => encodeIssuanceDescriptor C descriptor
  | .issuanceAuthorization descriptor => do
      let encoded ← encodeIssuanceDescriptor C descriptor
      return issuanceAuthorizationDomain ++ encoded
  | .collectionMembership collectionId memberAssetId => do
      failIf (collectionId = nullHash ∨ memberAssetId = nullHash)
        "collection and member asset IDs must be non-zero"
      return collectionMembershipDomain ++ (collectionId.bytes ++ memberAssetId.bytes)
  | .transactionExtension extension => encodeTransactionExtension C extension
  | .snapshot registry network => encodeSnapshot C registry.registry network
  | .outputId network carrierPrefixHash output index => do
      failIf (network.isPublic = false) "asset output identity requires a public network"
      failIf (carrierPrefixHash = nullHash ∨ output.assetId = nullHash)
        "asset output identity has a zero carrier or asset id"
      failIf (C.isInMainSubgroup output.recipient.destination = false ∨
          C.isInMainSubgroup output.commitment = false)
        "asset output identity contains an invalid point"
      return outputIdBytes C network carrierPrefixHash output index.toNat
  | .ownershipMessage proof network carrierPrefixHash => do
      failIf (network.isPublic = false) "ownership proof requires a public network"
      failIf (proof.assetId = nullHash ∨ carrierPrefixHash = nullHash)
        "ownership proof has a zero asset or carrier id"
      failIf (proof.ring.length ≠ confidentialAssetRingSize)
        "ownership proof has the wrong ring size"
      let _ ← loop (checkRingMember C proof.assetId) proof.ring []
      return ownershipMessageBytes C proof network carrierPrefixHash

variable (C : Crypto K)

theorem derive_eq_hashed : (∀ d, deriveAssetId C d = C.cnFastHash <$> hashedBytes C (.assetId d)) ∧
    (∀ d, deriveIssuanceAuthorizationHash C d =
      C.cnFastHash <$> hashedBytes C (.issuanceAuthorization d)) ∧
    (∀ cid memberAssetId, deriveCollectionMembershipHash C cid memberAssetId =
      C.cnFastHash <$> hashedBytes C (.collectionMembership cid memberAssetId)) ∧
    (∀ x, deriveTransactionExtensionId C x =
      C.cnFastHash <$> hashedBytes C (.transactionExtension x)) ∧
    (∀ r net, deriveSnapshotHash C r.registry net =
      C.cnFastHash <$> hashedBytes C (.snapshot r net)) ∧
    (∀ net car out index, deriveAssetOutputId C net car out index.toNat =
      C.cnFastHash <$> hashedBytes C (.outputId net car out index)) ∧
    ∀ pf net car, deriveAssetOwnershipMessage C pf net car =
      (fun bytes => C.hashToKey (C.cnFastHash bytes)) <$>
        hashedBytes C (.ownershipMessage pf net car) := by
  simp [deriveAssetId, deriveIssuanceAuthorizationHash, deriveCollectionMembershipHash,
    deriveTransactionExtensionId, deriveSnapshotHash, deriveAssetOutputId,
    deriveAssetOwnershipMessage, hashedBytes]

/-- The seven kinds of hashed strings. -/
inductive Kind
  | assetId
  | issuanceAuthorization
  | collectionMembership
  | transactionExtension
  | snapshot
  | outputId
  | ownershipMessage
deriving DecidableEq

def Kind.domain : Kind → List UInt8
  | assetId => issuanceDomain
  | issuanceAuthorization => issuanceAuthorizationDomain
  | collectionMembership => collectionMembershipDomain
  | transactionExtension => transactionExtensionDomain
  | snapshot => registrySnapshotDomain
  | outputId => outputIdDomain
  | ownershipMessage => ownershipDomain

def Kind.all : List Kind :=
  [assetId, issuanceAuthorization, collectionMembership, transactionExtension, snapshot, outputId,
    ownershipMessage]

theorem Kind.mem_all (k : Kind) : k ∈ Kind.all := by
  cases k <;> simp [Kind.all]

theorem Kind.eq_of_domain_isPrefix (k k' : Kind) (h : k.domain <+: k'.domain) : k = k' := by
  have hlabels : ∀ k ∈ Kind.all, ∀ k' ∈ Kind.all, k.domain <+: k'.domain → k = k' := by
    decide +kernel
  exact hlabels k k.mem_all k' k'.mem_all h

def kind {C : Crypto K} : HashCall C → Kind
  | .assetId _ => .assetId
  | .issuanceAuthorization _ => .issuanceAuthorization
  | .collectionMembership _ _ => .collectionMembership
  | .transactionExtension _ => .transactionExtension
  | .snapshot _ _ => .snapshot
  | .outputId _ _ _ _ => .outputId
  | .ownershipMessage _ _ _ => .ownershipMessage

variable {d : IssuanceDescriptor} {bytes : List UInt8} {network network' : NetworkType}
  {carrier : Hash} {proof : AssetOwnershipProof K} {m : AssetRingMember K}

theorem hashed_issuanceAuthorization (h : hashedBytes C (.issuanceAuthorization d) = .ok bytes) :
    ∃ enc, encodeIssuanceDescriptor C d = .ok enc ∧ issuanceAuthorizationDomain ++ enc = bytes := by
  simpa only [hashedBytes, bind_eq_ok, pure_eq_ok] using h

theorem hashed_collectionMembership {cid memberAssetId : Hash}
    (h : hashedBytes C (.collectionMembership cid memberAssetId) = .ok bytes) :
    collectionMembershipDomain ++ (cid.bytes ++ memberAssetId.bytes) = bytes := by
  simp only [hashedBytes, bind_eq_ok, failIf_eq_ok, pure_eq_ok, exists_unit] at h
  exact h.2

theorem hashed_outputId {out : PayloadOutput K} {index : UInt32}
    (h : hashedBytes C (.outputId network carrier out index) = .ok bytes) :
    network.isPublic = true ∧ outputIdBytes C network carrier out index.toNat = bytes := by
  simp only [hashedBytes, bind_eq_ok, failIf_eq_ok, pure_eq_ok, exists_unit, Bool.not_eq_false] at h
  exact ⟨h.1, h.2.2.2⟩

theorem hashed_ownershipMessage
    (h : hashedBytes C (.ownershipMessage proof network carrier) = .ok bytes) :
    network.isPublic = true ∧ proof.ring.length = confidentialAssetRingSize ∧
      (∃ seen, loop (checkRingMember C proof.assetId) proof.ring [] = .ok seen) ∧
      ownershipMessageBytes C proof network carrier = bytes := by
  simp only [hashedBytes, bind_eq_ok, failIf_eq_ok, pure_eq_ok, exists_unit, not_not, ne_eq,
    Bool.not_eq_false] at h
  obtain ⟨hpub, -, hring, seen, hseen, hbs⟩ := h
  exact ⟨hpub, hring, ⟨seen, hseen⟩, hbs⟩

theorem hashedBytes_domain {call : HashCall C}
    (h : hashedBytes C call = .ok bytes) : (kind call).domain <+: bytes := by
  cases call with
  | assetId descriptor =>
    obtain ⟨-, rfl⟩ := (encodeIssuanceDescriptor_eq_ok C descriptor bytes).mp h
    exact prefix_append ..
  | issuanceAuthorization descriptor =>
    obtain ⟨_, -, rfl⟩ := hashed_issuanceAuthorization C h
    exact prefix_append ..
  | collectionMembership collectionId memberAssetId =>
    rw [← hashed_collectionMembership C h]
    exact prefix_append ..
  | transactionExtension extension =>
    obtain ⟨_, -, -, -, -, -, -, -, rfl⟩ :=
      (encodeTransactionExtension_eq_ok C extension bytes).mp h
    exact prefix_append ..
  | snapshot registry network =>
    obtain ⟨-, -, -, _, -, rfl⟩ := (encodeSnapshot_eq_ok C _ network bytes).mp h
    rw [snapshotHeader, append_assoc]
    exact prefix_append ..
  | outputId network carrier output index =>
    obtain ⟨-, rfl⟩ := hashed_outputId C h
    exact prefix_append ..
  | ownershipMessage proof network carrier =>
    obtain ⟨-, -, -, rfl⟩ := hashed_ownershipMessage C h
    exact prefix_append ..

theorem kind_eq_of_hashed {a b : HashCall C} (ha : hashedBytes C a = .ok bytes)
    (hb : hashedBytes C b = .ok bytes) : kind a = kind b := by
  rcases prefix_or_prefix_of_prefix (hashedBytes_domain C ha)
    (hashedBytes_domain C hb) with hab | hba
  · exact Kind.eq_of_domain_isPrefix _ _ hab
  · exact (Kind.eq_of_domain_isPrefix _ _ hba).symm

/-- What a hashed string says: the function, and the arguments it was applied to. Of an
ownership proof that is all but the key image and the signature. -/
inductive Bound (K : Type)
  | assetId (descriptor : IssuanceDescriptor)
  | issuanceAuthorization (descriptor : IssuanceDescriptor)
  | collectionMembership (collectionId memberAssetId : Hash)
  | transactionExtension (extension : Extension)
  | snapshot (records : Hash → Option AssetRecord) (network : NetworkType)
  | outputId (network : NetworkType) (carrierPrefixHash assetId : Hash) (index : UInt32)
      (destination commitment : K)
  | ownershipMessage (network : NetworkType) (carrierPrefixHash assetId : Hash)
      (pseudoInput : K) (ring : List (AssetRingMember K))

def bound {C : Crypto K} : HashCall C → Bound K
  | .assetId descriptor => .assetId descriptor
  | .issuanceAuthorization descriptor => .issuanceAuthorization descriptor
  | .collectionMembership collectionId memberAssetId =>
      .collectionMembership collectionId memberAssetId
  | .transactionExtension extension => .transactionExtension extension
  | .snapshot registry network => .snapshot registry.registry.find network
  | .outputId network carrierPrefixHash output index =>
      .outputId network carrierPrefixHash output.assetId index output.recipient.destination
        output.commitment
  | .ownershipMessage proof network carrierPrefixHash =>
      .ownershipMessage network carrierPrefixHash proof.assetId proof.pseudoInput proof.ring

theorem descriptor_of_encoded {d' : IssuanceDescriptor}
    (h : encodeIssuanceDescriptor C d = .ok bytes)
    (h' : encodeIssuanceDescriptor C d' = .ok bytes) : d = d' := by
  have hd := decode_encode_descriptor C d bytes h
  rw [decode_encode_descriptor C d' bytes h'] at hd
  exact (Except.ok.inj hd).symm

variable {C} in
theorem outputIdBytes_inj (hkeys : Function.Injective C.keyBytes)
    {car car' : Hash} {o o' : PayloadOutput K} {i j : UInt32}
    (hpub : network.isPublic = true) (hpub' : network'.isPublic = true)
    (h : outputIdBytes C network car o i.toNat = outputIdBytes C network' car' o' j.toNat) :
    network = network' ∧ car = car' ∧ o.assetId = o'.assetId ∧ i = j ∧
      o.recipient.destination = o'.recipient.destination ∧ o.commitment = o'.commitment := by
  obtain ⟨hnet, h⟩ := blob_append_inj (append_cancel_left h)
  obtain ⟨hcar, h⟩ := blob_append_inj h
  obtain ⟨hasset, h⟩ := blob_append_inj h
  obtain ⟨hidx, h⟩ := append_inj h (by simp)
  obtain ⟨hdestination, hcom⟩ := append_inj h (by simp)
  have hi := i.toNat_lt
  have hj := j.toNat_lt
  refine ⟨networkId_injOn hpub hpub' hnet, hcar, hasset, ?_,
    hkeys (Blob.ext hdestination), hkeys (Blob.ext hcom)⟩
  exact UInt32.toNat_inj.mp (leBytes_injOn (by omega) (by omega) hidx)

theorem ringMember_inj (hkeys : Function.Injective C.keyBytes) {m' : AssetRingMember K}
    (hasset : m.assetId = m'.assetId)
    (h : m.outputId.bytes ++ ((C.keyBytes m.publicOutput.dest).bytes ++
        (C.keyBytes m.publicOutput.mask).bytes) =
      m'.outputId.bytes ++ ((C.keyBytes m'.publicOutput.dest).bytes ++
        (C.keyBytes m'.publicOutput.mask).bytes)) :
    m = m' := by
  obtain ⟨houtput, h⟩ := blob_append_inj h
  obtain ⟨hdest, hmask⟩ := append_inj h (by simp)
  have hdest := hkeys (Blob.ext hdest)
  have hmask := hkeys (Blob.ext hmask)
  obtain ⟨asset, out, dest, mask⟩ := m
  obtain ⟨asset', out', dest', mask'⟩ := m'
  simp_all

theorem ring_assetId {aid : Hash} {ring : List (AssetRingMember K)} {seen : List Hash}
    (h : loop (checkRingMember C aid) ring [] = .ok seen) (hm : m ∈ ring) : m.assetId = aid := by
  obtain ⟨s, t, hstep⟩ := loop_turn _ ring [] seen h m hm
  simp only [checkRingMember, bind_eq_ok, failIf_eq_ok, exists_unit, not_not, ne_eq] at hstep
  exact hstep.1

theorem ownershipMessage_inj (hkeys : Function.Injective C.keyBytes) {pf' : AssetOwnershipProof K}
    {car' : Hash} (h : hashedBytes C (.ownershipMessage proof network carrier) = .ok bytes)
    (h' : hashedBytes C (.ownershipMessage pf' network' car') = .ok bytes) :
    network = network' ∧ carrier = car' ∧ proof.assetId = pf'.assetId ∧
      proof.pseudoInput = pf'.pseudoInput ∧ proof.ring = pf'.ring := by
  obtain ⟨hpub, hsize, ⟨seen, hring⟩, hbs⟩ :=
    hashed_ownershipMessage C h
  obtain ⟨hpub', hsize', ⟨seen', hring'⟩, hbs'⟩ :=
    hashed_ownershipMessage C h'
  have heq := hbs.trans hbs'.symm
  obtain ⟨hnet, heq⟩ := blob_append_inj (append_cancel_left heq)
  obtain ⟨hcar, heq⟩ := blob_append_inj heq
  obtain ⟨hasset, heq⟩ := blob_append_inj heq
  obtain ⟨hpseudo, heq⟩ := blob_append_inj heq
  refine ⟨networkId_injOn hpub hpub' hnet, hcar, hasset, hkeys hpseudo, ?_⟩
  apply flatMap_injOn 96 (by simp) (hsize.trans hsize'.symm) ?_ heq
  intro m hm m' hm' hbs
  have hm := ring_assetId C hring hm
  have hm' := ring_assetId C hring' hm'
  exact ringMember_inj C hkeys (hm.trans (hasset.trans hm'.symm)) hbs

/-- Calls that hash the same string are calls of one function on the same arguments, an
ownership proof's key image and signature aside. -/
theorem hashed_strings_injective (C : Crypto K) (hkeys : Function.Injective C.keyBytes)
    (a b : HashCall C) (bytes : List UInt8) (ha : hashedBytes C a = .ok bytes)
    (hb : hashedBytes C b = .ok bytes) : bound a = bound b := by
  have hkind := kind_eq_of_hashed C ha hb
  cases a with
  | assetId d =>
    cases b with
    | assetId d' => rw [descriptor_of_encoded C ha hb]
    | _ => cases hkind
  | issuanceAuthorization d =>
    cases b with
    | issuanceAuthorization d' =>
      obtain ⟨encoded, hd, rfl⟩ := hashed_issuanceAuthorization C ha
      obtain ⟨encoded', hd', heq⟩ := hashed_issuanceAuthorization C hb
      rw [append_cancel_left heq] at hd'
      rw [descriptor_of_encoded C hd hd']
    | _ => cases hkind
  | collectionMembership collectionId memberAssetId =>
    cases b with
    | collectionMembership collectionId' memberAssetId' =>
      have heq := (hashed_collectionMembership C ha).trans (hashed_collectionMembership C hb).symm
      obtain ⟨hcollection, hmember⟩ := blob_append_inj (append_cancel_left heq)
      rw [hcollection, Blob.ext hmember]
    | _ => cases hkind
  | transactionExtension x =>
    cases b with
    | transactionExtension x' =>
      have hx := decode_encode_extension C x bytes ha
      rw [decode_encode_extension C x' bytes hb] at hx
      rw [Except.ok.inj hx]
    | _ => cases hkind
  | snapshot r network =>
    cases b with
    | snapshot r' network' =>
      obtain ⟨calls, run⟩ := r.reached
      obtain ⟨calls', run'⟩ := r'.reached
      obtain ⟨rfl, hsame⟩ := sameRecords_of_encode C run run' ha hb
      exact congrArg (Bound.snapshot · network) (funext hsame)
    | _ => cases hkind
  | outputId network carrier output index =>
    cases b with
    | outputId network' carrier' output' index' =>
      obtain ⟨hpublic, hbytes⟩ := hashed_outputId C ha
      obtain ⟨hpublic', hbytes'⟩ := hashed_outputId C hb
      obtain ⟨rfl, rfl, hasset, rfl, hdestination, hcommitment⟩ :=
        outputIdBytes_inj hkeys hpublic hpublic' (hbytes.trans hbytes'.symm)
      simp [bound, hasset, hdestination, hcommitment]
    | _ => cases hkind
  | ownershipMessage proof network carrier =>
    cases b with
    | ownershipMessage proof' network' carrier' =>
      obtain ⟨rfl, rfl, hasset, hpseudo, hring⟩ := ownershipMessage_inj C hkeys ha hb
      simp [bound, hasset, hpseudo, hring]
    | _ => cases hkind

/-- An ownership proof for a ring of sixteen outputs, with a key image of choice. -/
def sampleProof (keyImage : ℕ) : AssetOwnershipProof Key where
  assetId := keyOfNat 3
  pseudoInput := keyOfNat 4
  keyImage := keyOfNat keyImage
  ring := (List.range 16).map fun i =>
    { assetId := keyOfNat 3, outputId := keyOfNat (i + 1),
      publicOutput := { dest := keyOfNat 5, mask := keyOfNat 6 } }
  signature := { s := [], c1 := toy.zero, I := toy.zero, D := toy.zero }

def sampleCall (keyImage : ℕ) : HashCall toy :=
  .ownershipMessage (sampleProof keyImage) .mainnet (keyOfNat 1)

private theorem sampleCall_hashed : ∃ bytes, hashedBytes toy (sampleCall 1) = .ok bytes ∧
      hashedBytes toy (sampleCall 2) = .ok bytes := by
  have hsample : (hashedBytes toy (sampleCall 1)).isOk = true ∧
      (hashedBytes toy (sampleCall 1)).toOption = (hashedBytes toy (sampleCall 2)).toOption := by
    decide +kernel
  obtain ⟨bytes, hbs⟩ := exists_of_isOk hsample.1
  refine ⟨bytes, hbs, ?_⟩
  rw [hbs] at hsample
  cases h : hashedBytes toy (sampleCall 2) with
  | error e => simp [h, Except.toOption] at hsample
  | ok bytes' => simp_all [Except.toOption]

theorem hashed_strings_injective_sample :
    ∃ bytes, hashedBytes toy (sampleCall 1) = .ok bytes ∧
      hashedBytes toy (sampleCall 2) = .ok bytes ∧
      bound (sampleCall 1) = bound (sampleCall 2) := by
  obtain ⟨bytes, h, h'⟩ := sampleCall_hashed
  exact ⟨bytes, h, h', hashed_strings_injective toy (fun _ _ h => h) _ _ bytes h h'⟩

/-- Proofs with different key images give the same string. -/
theorem key_image_not_hashed :
    sampleProof 1 ≠ sampleProof 2 ∧
      ∃ bytes, hashedBytes toy (.ownershipMessage (sampleProof 1) .mainnet (keyOfNat 1)) =
          .ok bytes ∧
        hashedBytes toy (.ownershipMessage (sampleProof 2) .mainnet (keyOfNat 1)) =
          .ok bytes := by
  refine ⟨?_, sampleCall_hashed⟩
  intro h
  have hkey := congrArg AssetOwnershipProof.keyImage h
  revert hkey
  decide

end Monzero.DomainSeparation
