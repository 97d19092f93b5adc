import Monzero.OwnershipBijection
import Monzero.Tally
import Monzero.TransferCommitments
import Monzero.WireSizes

/-!
`create_asset_transfer_transaction_payload` succeeds on every request that its input checks
accept. The verifier is independent of the builder: it sees commitments, a range proof and
signatures only. The masks are coordinated so that the commitments balance, the padding is
of zero amounts, and a burn takes the last place.
-/
namespace Monzero.TransferBuilder

open Bytes Checked Primitives AssetConfidential AssetWire AssetWireCodec AssetRecipient List
  AssetBuilders OwnershipBijection WireParts WireRoundTrip SenderLaws Tally ToyCrypto
  TransferCommitments WireSizes

variable {C : Crypto Key} {D : Derivations} {S : SenderPrimitives} {coins : Coins} {order : ℕ}
  {network : NetworkType} {assetId carrier : Hash} {inputs : List AssetTransferInput}
  {destinations : List AssetTransferDestination} {burnAmount : UInt64} {keyImage : Key → Key}

/-- A ring that an ownership proof can be about: distinct outputs of one asset. -/
structure ValidRing (C : Crypto Key) (assetId : Hash) (ring : List (AssetRingMember Key)) :
    Prop where
  size : ring.length = confidentialAssetRingSize
  asset : ∀ member ∈ ring, member.assetId = assetId
  ids : ∀ member ∈ ring, member.outputId ≠ nullHash
  ids_nodup : (ring.map AssetRingMember.outputId).Nodup
  points : ∀ member ∈ ring, C.isInMainSubgroup member.publicOutput.dest = true ∧
    C.isInMainSubgroup member.publicOutput.mask = true

/-- A transfer within the limits of the builder: inputs whose rings are valid and whose secrets
open the real members, with distinct key images, and amounts that are consumed exactly. -/
structure Transfer (A : Arithmetic C D S order) (keyImage : Key → Key) (assetId : Hash)
    (inputs : List AssetTransferInput) (destinations : List AssetTransferDestination)
    (burnAmount : UInt64) : Prop where
  asset : assetId ≠ nullHash
  inputs_nonempty : inputs ≠ []
  inputs_limit : inputs.length ≤ maxConfidentialAssetInputs
  rings : ∀ input ∈ inputs, ValidRing C assetId input.ring
  openings : ∀ input ∈ inputs, Opens C S input
  keyImages : (inputs.map fun input => keyImage input.spendSecret).Nodup
  destinations_nonempty : destinations ≠ []
  destinations_limit : destinations.length ≤ maxConfidentialAssetOutputs - burnOutputs burnAmount
  addresses : ∀ destination ∈ destinations, ValidAddress A destination.address
  consumed : (inputs.map fun input => input.amount.toNat).sum =
    (destinations.map fun destination => destination.amount.toNat).sum + burnAmount.toNat
  bounded : (inputs.map fun input => input.amount.toNat).sum < 2 ^ 64

/-- The drawn scalars are reduced and do not collide: the pseudo inputs are distinct, and no
one-time key is the identity. -/
structure Drawn (C : Crypto Key) (D : Derivations) (S : SenderPrimitives) (coins : Coins)
    (assetId : Hash) (inputs : List AssetTransferInput)
    (destinations : List AssetTransferDestination) (burnAmount : UInt64) : Prop where
  reduced : Reduced S coins
  pseudoInputs : ((transferPseudoInputs C coins assetId inputs).map
    ConfidentialPseudoInput.commitment).Nodup
  destinations : ∀ e ∈ (transferOutputs C S coins inputs.length destinations burnAmount).zipIdx,
    destinationOf D e.1 e.2 ≠ some C.identity

/-! ### Inputs -/

theorem loop_checkRingMember_eq_ok_iff (C : Crypto Key) (aid : Hash)
    (ring : List (AssetRingMember Key)) (seen : List Hash) :
    (∃ seen', loop (checkRingMember C aid) ring seen = .ok seen') ↔
      (∀ member ∈ ring, member.assetId = aid ∧ member.outputId ≠ nullHash ∧
        member.outputId ∉ seen ∧ C.isInMainSubgroup member.publicOutput.dest = true ∧
        C.isInMainSubgroup member.publicOutput.mask = true) ∧
      (ring.map AssetRingMember.outputId).Nodup := by
  induction ring generalizing seen with
  | nil => simp
  | cons member rest ih =>
    have hstep : (∃ seen', loop (checkRingMember C aid) (member :: rest) seen = .ok seen') ↔
        (member.assetId = aid ∧ member.outputId ≠ nullHash ∧ member.outputId ∉ seen ∧
          C.isInMainSubgroup member.publicOutput.dest = true ∧
          C.isInMainSubgroup member.publicOutput.mask = true) ∧
        ∃ seen', loop (checkRingMember C aid) rest (member.outputId :: seen) = .ok seen' := by
      simp only [loop_cons_eq_ok, checkRingMember, bind_eq_ok, failIf_eq_ok, pure_eq_ok,
        exists_unit, not_or, not_not, ne_eq, Bool.not_eq_false]
      constructor
      · rintro ⟨seen', _, ⟨hasset, ⟨hid, hnew⟩, ⟨hdest, hmask⟩, rfl⟩, hrest⟩
        exact ⟨⟨hasset, hid, hnew, hdest, hmask⟩, seen', hrest⟩
      · rintro ⟨⟨hasset, hid, hnew, hdest, hmask⟩, seen', hrest⟩
        exact ⟨seen', _, ⟨hasset, ⟨hid, hnew⟩, ⟨hdest, hmask⟩, rfl⟩, hrest⟩
    rw [hstep, ih, forall_mem_cons]
    simp only [map_cons, nodup_cons, mem_cons, not_or, mem_map, not_exists, not_and]
    constructor
    · rintro ⟨hmem, hrest, hnd⟩
      refine ⟨⟨hmem, fun other hother => ?_⟩, fun other hother => (hrest other hother).2.2.1.1, hnd⟩
      obtain ⟨hasset, hid, ⟨-, hnew⟩, hpoints⟩ := hrest other hother
      exact ⟨hasset, hid, hnew, hpoints⟩
    · rintro ⟨⟨hmem, hrest⟩, hdis, hnd⟩
      refine ⟨hmem, fun other hother => ?_, hnd⟩
      obtain ⟨hasset, hid, hnew, hpoints⟩ := hrest other hother
      exact ⟨hasset, hid, ⟨hdis other hother, hnew⟩, hpoints⟩

theorem exists_message (hnet : network.isPublic = true) (hcar : carrier ≠ nullHash)
    (pf : AssetOwnershipProof Key) (hasset : pf.assetId ≠ nullHash)
    (hring : ValidRing C pf.assetId pf.ring) :
    ∃ msg, deriveAssetOwnershipMessage C pf network carrier = .ok msg := by
  obtain ⟨seen, hseen⟩ := (loop_checkRingMember_eq_ok_iff C pf.assetId pf.ring []).mpr
    ⟨fun member hmem => ⟨hring.asset member hmem, hring.ids member hmem,
      not_mem_nil, hring.points member hmem⟩, hring.ids_nodup⟩
  simp only [deriveAssetOwnershipMessage, bind_eq_ok, failIf_eq_ok, pure_eq_ok, exists_unit]
  exact ⟨_, by simp [hnet], by simp [hasset, hcar], by simp [hring.size], seen, hseen, rfl⟩

theorem checkTransferInput_eq_ok_iff (C : Crypto Key) (S : SenderPrimitives) (aid : Hash)
    (total : UInt64) (input : AssetTransferInput) (next : UInt64) :
    checkTransferInput C S aid total input = .ok next ↔
      (input.ring.length = confidentialAssetRingSize ∧ Opens C S input ∧
        ∀ member ∈ input.ring, member.assetId = aid) ∧
      ¬input.amount > 18446744073709551615 - total ∧ next = total + input.amount := by
  simp only [checkTransferInput, bind_eq_ok, failIf_eq_ok, pure_eq_ok, exists_unit, not_or,
    not_not, ne_eq, Bool.not_eq_false, ge_iff_le, not_le]
  constructor
  · rintro ⟨⟨hsize, hidx⟩, ⟨hsecret, hmask⟩, hfits, hopening, hkey, hassets, rfl⟩
    refine ⟨⟨hsize, ⟨hsecret, hmask, ?_⟩, hassets⟩, hfits, rfl⟩
    rw [getElem?_eq_getElem hidx] at hopening hkey ⊢
    simp only [Option.map_some, Option.some.injEq] at hopening hkey ⊢
    rw [← hopening, ← hkey]
  · rintro ⟨⟨hsize, ⟨hsecret, hmask, hreal⟩, hassets⟩, hfits, rfl⟩
    obtain ⟨member, hmem, -⟩ := Option.map_eq_some_iff.mp hreal
    obtain ⟨hidx, -⟩ := List.getElem?_eq_some_iff.mp hmem
    rw [hreal]
    exact ⟨⟨hsize, hidx⟩, ⟨hsecret, hmask⟩, hfits, rfl, rfl, hassets, rfl⟩

theorem addDestination_eq_ok_iff (total : UInt64) (destination : AssetTransferDestination)
    (next : UInt64) : addDestination total destination = .ok next ↔
      True ∧ ¬destination.amount > 18446744073709551615 - total ∧
        next = total + destination.amount := by
  simp only [addDestination, bind_eq_ok, failIf_eq_ok, pure_eq_ok, exists_unit, true_and,
    eq_comm (a := next)]

/-! ### The balance -/

theorem verifyBalance_of_proven {b : ConfidentialAssetBalance Key} {pf : BulletproofPlus Key}
    (hasset : b.assetId ≠ nullHash) (hsome : b.pseudoInputs ≠ [])
    (hlim : b.pseudoInputs.length ≤ maxConfidentialAssetInputs)
    (hins : ∀ input ∈ b.pseudoInputs, input.sourceAssetId = b.assetId ∧
      C.isInMainSubgroup input.commitment = true)
    (hcnt : (b.outputs ++ b.burns).length = maxConfidentialAssetOutputs)
    (hpoints : ∀ key ∈ b.outputs ++ b.burns, C.isInMainSubgroup key = true)
    (hpfs : b.rangeProofs = [pf]) (hverified : C.bulletproofPlusVerify pf = some true)
    (hproven : pf.V.map C.scalarmult8 = b.outputs ++ b.burns)
    (hsum : C.addKeys (b.pseudoInputs.map ConfidentialPseudoInput.commitment) =
      C.addKeys (b.outputs ++ b.burns)) :
    verifyConfidentialAssetBalance C b = .ok () := by
  rw [length_append] at hcnt
  have hlen : pf.V.length = maxConfidentialAssetOutputs := by
    rw [← length_map C.scalarmult8, hproven, length_append, hcnt]
  have hloop : loop (checkRangeProof C (b.outputs.length + b.burns.length)) b.rangeProofs [] =
      .ok (b.outputs ++ b.burns) := by
    have hcovers : ¬(pf.V = [] ∨
        ([] : List Key).length > sizeSub (b.outputs.length + b.burns.length) pf.V.length) := by
      rw [hcnt, hlen, ← length_eq_zero_iff, hlen]
      decide
    rw [hpfs, loop, checkRangeProof, failIf_of_not _ hcovers, ok_bind, hverified]
    simp only [hproven, nil_append]
    rfl
  simp only [verifyConfidentialAssetBalance, bind_eq_ok, failIf_eq_ok, exists_unit]
  refine ⟨hasset, hsome, ?_, ?_, not_not.mpr fun input hin => (hins input hin).1, ?_, _,
    hloop, ?_, ?_, ?_, not_not.mpr hsum⟩
  · rintro ⟨houts, hburns⟩
    rw [houts, hburns] at hcnt
    cases hcnt
  · rw [not_or, not_lt, not_lt]
    exact ⟨hlim, hcnt.le⟩
  · simp only [all_eq_true, mem_map, forall_exists_index, and_imp,
      forall_apply_eq_imp_iff₂, not_not]
    exact ⟨fun input hin => (hins input hin).2,
      fun key hkey => hpoints key (mem_append_left _ hkey),
      fun key hkey => hpoints key (mem_append_right _ hkey)⟩
  · simp
  · simp
  · simp

/-! ### Ownership -/

/-- The ownership proof that a builder makes for an input. -/
structure Owned (C : Crypto Key) (coins : Coins) (keyImage : Key → Key) (network : NetworkType)
    (assetId carrier : Hash) (e : AssetTransferInput × ℕ) (proof : AssetOwnershipProof Key) :
    Prop where
  asset : proof.assetId = assetId
  pseudoInput : proof.pseudoInput = C.commit e.1.amount (coins.pseudoMask e.2)
  keyImage : proof.keyImage = keyImage e.1.spendSecret
  image : proof.signature.I = proof.keyImage
  ring : proof.ring.length = confidentialAssetRingSize
  responses : proof.signature.s.length = confidentialAssetRingSize
  verified : verifyAssetOwnershipProof C proof network carrier = .ok ()

theorem exists_owned (hnet : network.isPublic = true) (hcar : carrier ≠ nullHash)
    (hasset : assetId ≠ nullHash) {e : AssetTransferInput × ℕ}
    (hring : ValidRing C assetId e.1.ring) (hopens : Opens C S e.1)
    (hcomp : SignatureComplete C S keyImage coins e) :
    ∃ proof, proveOwnership C S coins network assetId carrier e = .ok proof ∧
      Owned C coins keyImage network assetId carrier e proof := by
  obtain ⟨message, hmsg⟩ := exists_message hnet hcar
    { assetId, pseudoInput := C.commit e.1.amount (coins.pseudoMask e.2),
      keyImage := Blob.zero 32, ring := e.1.ring,
      signature := { s := [], c1 := Blob.zero 32, I := Blob.zero 32, D := Blob.zero 32 } }
    hasset hring
  obtain ⟨signature, hprove, hresponses, himg, hverify⟩ := hcomp hopens message
  refine ⟨{ assetId, pseudoInput := C.commit e.1.amount (coins.pseudoMask e.2),
            keyImage := signature.I, ring := e.1.ring, signature }, ?_, ?_⟩
  · simp only [proveOwnership, hmsg, ok_bind, hprove, Except.mapError]
    rfl
  · refine ⟨rfl, rfl, himg, rfl, hring.size, hresponses.trans hring.size, ?_⟩
    -- The message of the finished proof is the one that was signed.
    simp only [verifyAssetOwnershipProof, bind_eq_ok, failIf_eq_ok, exists_unit]
    exact ⟨message, hmsg, not_not.mpr hresponses, by simp [hverify]⟩

theorem answered_of_owned {owned : List (AssetOwnershipProof Key)}
    (hpseudo : ((transferPseudoInputs C coins assetId inputs).map
      ConfidentialPseudoInput.commitment).Nodup)
    (himages : (inputs.map fun input => keyImage input.spendSecret).Nodup)
    (h : List.Forall₂ (Owned C coins keyImage network assetId carrier) inputs.zipIdx owned) :
    Answered C (transferPseudoInputs C coins assetId inputs) owned network carrier := by
  have hkeys : owned.map proofKey = (transferPseudoInputs C coins assetId inputs).map inputKey := by
    rw [transferPseudoInputs, map_map]
    refine map_eq_of_forall₂ (fun e pf hpf => ?_) h
    rw [proofKey, hpf.asset, hpf.pseudoInput]
    rfl
  have hkeyImages : owned.map AssetOwnershipProof.keyImage =
      inputs.map fun input => keyImage input.spendSecret := by
    refine (map_eq_of_forall₂ (fun _ _ => Owned.keyImage) h).trans ?_
    exact map_zipIdx_fst (fun input : AssetTransferInput => keyImage input.spendSecret) inputs
  refine ⟨?_, ?_, ?_, ?_⟩
  · rw [hkeys]
    refine List.Nodup.of_map Prod.snd ?_
    rw [map_map]
    exact hpseudo
  · rw [hkeys]
  · intro pf hpf
    obtain ⟨e, -, he⟩ := (forall₂_partner h).2 pf hpf
    exact he.verified
  · rw [hkeyImages]
    exact himages

/-! ### The payload -/

theorem mem_transferOutputs {n : ℕ} {o : OutputOrder}
    (h : o ∈ transferOutputs C S coins n destinations burnAmount) :
    (∃ d ∈ padDestinations (maxConfidentialAssetOutputs - burnOutputs burnAmount) destinations,
      o.address = d.address) ∧ o.mask ∈ transferMasks C S coins n ∧
      ∃ i, o.txSecretKey = coins.txSecret i := by
  obtain ⟨⟨⟨d, mask⟩, i⟩, he, rfl⟩ := mem_map.mp h
  obtain ⟨hd, hmask⟩ := of_mem_zip (fst_mem_of_mem_zipIdx he)
  exact ⟨⟨d, hd, rfl⟩, hmask, i, rfl⟩

/-- What the builder has made for an order. -/
structure MadeFor (C : Crypto Key) (D : Derivations) (S : SenderPrimitives)
    (e : OutputOrder × ℕ) (m : AssetRecipientData Key × Key) : Prop where
  made : makeAssetRecipientDataWithMask C D S e.1 e.2 = .ok m
  commitment : m.2 = C.commit e.1.amount e.1.mask
  accepted : checkRecipient C m.1 = .ok ()

theorem exists_outputs {A : Arithmetic C D S order}
    (h : Transfer A keyImage assetId inputs destinations burnAmount)
    (hcoins : Drawn C D S coins assetId inputs destinations burnAmount) :
    ∃ made, List.Forall₂ (MadeFor C D S)
      (transferOutputs C S coins inputs.length destinations burnAmount).zipIdx made := by
  refine exists_forall₂ _ fun e he => ?_
  obtain ⟨⟨d, hd, haddress⟩, hmask, i, hsecret⟩ :=
    mem_transferOutputs (fst_mem_of_mem_zipIdx he)
  have hvalid := address_of_padded h.destinations_nonempty h.addresses d hd
  obtain ⟨m, hmade, hcom, hacc⟩ := exists_made A
    (transferMasks_reduced A hcoins.reduced inputs.length e.1.mask hmask)
    (by rw [hsecret]; exact hcoins.reduced.txSecret i) (by rw [haddress]; exact hvalid)
    (hcoins.destinations e he)
  exact ⟨m, hmade, hcom, hacc⟩

theorem exists_ownershipProofs {A : Arithmetic C D S order}
    (h : Transfer A keyImage assetId inputs destinations burnAmount)
    (hnet : network.isPublic = true) (hcar : carrier ≠ nullHash)
    (hcomp : ∀ e ∈ inputs.zipIdx, SignatureComplete C S keyImage coins e) :
    ∃ owned, mapAll (proveOwnership C S coins network assetId carrier) inputs.zipIdx = .ok owned ∧
      List.Forall₂ (Owned C coins keyImage network assetId carrier) inputs.zipIdx owned := by
  obtain ⟨owned, howned⟩ := exists_forall₂ inputs.zipIdx fun e he =>
    exists_owned hnet hcar h.asset
      (h.rings e.1 (fst_mem_of_mem_zipIdx he)) (h.openings e.1 (fst_mem_of_mem_zipIdx he))
      (hcomp e he)
  exact ⟨owned, (mapAll_eq_ok ..).mpr (howned.imp fun _ _ hpf => hpf.1),
    howned.imp fun _ _ hpf => hpf.2⟩

theorem amounts_accepted {A : Arithmetic C D S order}
    (h : Transfer A keyImage assetId inputs destinations burnAmount) :
    ∃ inputTotal destinationTotal, loop (checkTransferInput C S assetId) inputs 0 = .ok inputTotal ∧
      loop addDestination destinations 0 = .ok destinationTotal ∧
      ¬(burnAmount > 18446744073709551615 - destinationTotal ∨
        destinationTotal + burnAmount ≠ inputTotal) := by
  have hcon := h.consumed
  have hbounded := h.bounded
  obtain ⟨inputSum, hinputSum⟩ :
      ∃ n, (inputs.map fun input => input.amount.toNat).sum = n := ⟨_, rfl⟩
  obtain ⟨destinationSum, hdestinationSum⟩ :
      ∃ n, (destinations.map fun d => d.amount.toNat).sum = n := ⟨_, rfl⟩
  rw [hinputSum] at hcon hbounded
  rw [hdestinationSum] at hcon
  have htotal : ∀ n < 2 ^ 64, (UInt64.ofNat n).toNat = n := fun n hn => by
    rw [UInt64.toNat_ofNat', Nat.mod_eq_of_lt hn]
  refine ⟨UInt64.ofNat inputSum, UInt64.ofNat destinationSum, ?_, ?_, ?_⟩
  · rw [loop_guarded_sum_iff (checkTransferInput_eq_ok_iff C S assetId), hinputSum,
      htotal _ hbounded]
    exact ⟨fun input hin => ⟨(h.rings input hin).size, h.openings input hin,
      (h.rings input hin).asset⟩, (Nat.zero_add _).symm⟩
  · rw [loop_guarded_sum_iff addDestination_eq_ok_iff, hdestinationSum, htotal _ (by omega)]
    exact ⟨fun _ _ => trivial, (Nat.zero_add _).symm⟩
  · rw [gt_sub_iff, ne_eq, ← UInt64.toNat_inj, UInt64.toNat_add, htotal _ hbounded,
      htotal _ (by omega)]
    omega

section Payload

variable {A : Arithmetic C D S order} {made : List (AssetRecipientData Key × Key)}
  {proof : BulletproofPlus Key} {owned : List (AssetOwnershipProof Key)}
  {p : AssetTransactionPayload Key} (hnet : network.isPublic = true) (hcar : carrier ≠ nullHash)
  (howned : List.Forall₂ (Owned C coins keyImage network assetId carrier) inputs.zipIdx owned)
  (hp : transferPayloadOf C S coins network carrier assetId inputs burnAmount made proof owned = p)
  (h : Transfer A keyImage assetId inputs destinations burnAmount)
  (hmade : List.Forall₂ (MadeFor C D S)
    (transferOutputs C S coins inputs.length destinations burnAmount).zipIdx made)

include h hmade

theorem outputs_append_burns :
    made.map Prod.snd ++ burnCommitments C S coins inputs.length burnAmount = List.zipWith C.commit
        (proofAmounts (transferOutputs C S coins inputs.length destinations burnAmount) burnAmount)
        (transferMasks C S coins inputs.length) := by
  rw [← commitments_eq h.destinations_nonempty h.destinations_limit]
  congr 1
  have hmap : made.map Prod.snd = (transferOutputs C S coins inputs.length destinations
      burnAmount).zipIdx.map fun e => C.commit e.1.amount e.1.mask :=
    map_eq_of_forall₂ (fun _ _ he => he.commitment) hmade
  refine hmap.trans ?_
  exact map_zipIdx_fst (fun o : OutputOrder => C.commit o.amount o.mask) _

theorem length_outputs_append_burns :
    (made.map Prod.snd ++ burnCommitments C S coins inputs.length burnAmount).length =
      maxConfidentialAssetOutputs := by
  rw [outputs_append_burns h hmade, length_zipWith, length_transferMasks,
    length_proofAmounts h.destinations_nonempty h.destinations_limit, Nat.min_self]

omit hmade in
theorem length_transferPseudoInputs (coins : Coins) :
    transferPseudoInputs C coins assetId inputs ≠ [] ∧
      (transferPseudoInputs C coins assetId inputs).length ≤ maxConfidentialAssetInputs := by
  constructor
  · rw [transferPseudoInputs, ne_eq, map_eq_nil_iff, zipIdx_eq_nil_iff]
    exact h.inputs_nonempty
  · rw [transferPseudoInputs, length_map, length_zipIdx]
    exact h.inputs_limit

include hnet hcar howned hp

theorem transferPayload_shape : validateAssetTransactionPayloadShape p = .ok () := by
  subst hp
  obtain ⟨hsome, hlim⟩ := length_transferPseudoInputs h coins
  have hcnt := length_outputs_append_burns h hmade
  rw [length_append] at hcnt
  have hpfs : owned.length ≤ maxConfidentialAssetInputs := by
    rw [← howned.length_eq, length_zipIdx]
    exact h.inputs_limit
  have hgroup : checkGroupShape (0, 0)
      ({ assetId, pseudoInputs := transferPseudoInputs C coins assetId inputs,
         outputs := made.map Prod.snd, burns := burnCommitments C S coins inputs.length burnAmount,
         rangeProofs := [proof] }, made.map Prod.fst) =
      .ok (0 + (transferPseudoInputs C coins assetId inputs).length,
        0 + ((made.map Prod.snd).length +
          (burnCommitments C S coins inputs.length burnAmount).length)) := by
    simp only [checkGroupShape, bind_eq_ok, failIf_eq_ok, pure_eq_ok, exists_unit, hcnt]
    simp only [maxConfidentialAssetInputs] at hlim
    refine ⟨?_, by simp, ?_, trivial⟩
    · simp [hsome, maxConfidentialAssetInputs, hlim, maxAssetRangeProofs]
    · simp only [maxAssetTotalInputs, maxAssetTotalDestinations, maxConfidentialAssetOutputs]
      omega
  simp only [validateAssetTransactionPayloadShape, bind_eq_ok, failIf_eq_ok, exists_unit]
  refine ⟨by simp [transferPayloadOf], by simp [transferPayloadOf, hnet], hcar, ?_, ?_, ?_,
    _, loop_cons_eq_ok.mpr ⟨_, hgroup, rfl⟩, ?_⟩
  · simp [transferPayloadOf, maxAssetBalanceGroups]
  · simp [transferPayloadOf]
  · rw [maxConfidentialAssetInputs] at hpfs
    simp only [transferPayloadOf, maxAssetOwnershipProofs]
    omega
  · rw [not_not]
    intro ownership hownership
    obtain ⟨e, -, he⟩ := (forall₂_partner howned).2 ownership hownership
    exact ⟨he.ring, he.responses⟩

theorem transferPayload_verified (hcoins : Drawn C D S coins assetId inputs destinations burnAmount)
    (hverified : C.bulletproofPlusVerify proof = some true)
    (hproven : proof.V.map C.scalarmult8 = List.zipWith C.commit
      (proofAmounts (transferOutputs C S coins inputs.length destinations burnAmount) burnAmount)
      (transferMasks C S coins inputs.length)) (known : List Hash) (hknown : assetId ∈ known) :
    verifyAssetTransactionPayload C p known network carrier = .ok () := by
  have hshape := transferPayload_shape hnet hcar howned hp h hmade
  subst hp
  obtain ⟨hsome, hlim⟩ := length_transferPseudoInputs h coins
  have hcoms := outputs_append_burns h hmade
  have hbal : verifyConfidentialAssetBalance C
      { assetId, pseudoInputs := transferPseudoInputs C coins assetId inputs,
        outputs := made.map Prod.snd, burns := burnCommitments C S coins inputs.length burnAmount,
        rangeProofs := [proof] } = .ok () := by
    refine verifyBalance_of_proven h.asset hsome hlim ?_ (length_outputs_append_burns h hmade) ?_
      rfl hverified (hproven.trans hcoms.symm) ?_
    · intro input hin
      obtain ⟨e, -, rfl⟩ := mem_map.mp hin
      exact ⟨rfl, commit_inMainSubgroup A (hcoins.reduced.pseudoMask e.2)⟩
    · intro key hkey
      rw [hcoms, ← map_uncurry_zip_eq_zipWith] at hkey
      obtain ⟨e, he, rfl⟩ := mem_map.mp hkey
      exact commit_inMainSubgroup A
        (transferMasks_reduced A hcoins.reduced inputs.length _ (of_mem_zip he).2)
    · rw [hcoms]
      exact commitments_balance h.destinations_nonempty h.destinations_limit A hcoins.reduced
        assetId h.consumed
  simp only [verifyAssetTransactionPayload, bind_eq_ok, failIf_eq_ok, exists_unit, ne_eq, not_not]
  refine ⟨hshape, rfl, rfl, rfl, ?_, ?_⟩
  · rw [checkAll_eq_ok]
    intro recipients hrecipients
    obtain rfl := mem_singleton.mp hrecipients
    rw [checkAll_eq_ok]
    intro rcpt hrecipient
    obtain ⟨m, hm, rfl⟩ := mem_map.mp hrecipient
    obtain ⟨e, -, he⟩ := (forall₂_partner hmade).2 m hm
    exact he.accepted
  · rw [withOwnership_eq_ok_iff]
    refine ⟨none, ⟨by simp [transferPayloadOf], rfl, by simp [transferPayloadOf], ?_, by
      simp [transferPayloadOf]⟩, ?_⟩
    · intro b hb
      obtain rfl := mem_singleton.mp hb
      exact ⟨fun _ => hknown, by simp, hbal⟩
    · have hins : inputsToProve none (transferPayloadOf C S coins network carrier assetId inputs
          burnAmount made proof owned).balances = transferPseudoInputs C coins assetId inputs := by
        simp [inputsToProve, transferPayloadOf]
      rw [hins]
      exact answered_of_owned hcoins.pseudoInputs h.keyImages howned

theorem transferPayload_encoded (hfits : FitsRangeProof proof) :
    ∃ enc, encodeAssetTransactionPayload C p = .ok enc ∧ enc.length ≤ maxAssetWireBytes ∧
      decodeAssetTransactionPayload C enc = .ok p := by
  have hshape := transferPayload_shape hnet hcar howned hp h hmade
  have hcan : Canonical p := by
    rw [← hp]
    constructor
    · intro b hb ranges hranges
      obtain rfl := mem_singleton.mp hb
      obtain rfl := mem_singleton.mp hranges
      exact hfits
    · intro ownership hownership
      obtain ⟨e, -, he⟩ := (forall₂_partner howned).2 ownership hownership
      exact he.image
  have hlen : (writeBody p [0]).length ≤ maxAssetWireBytes := by
    have hbody := ((shape_groups p hshape).2).mpr hcan
    rw [← hp] at hbody ⊢
    refine length_writeBody_le hbody rfl ?_ ?_
    · intro b hb
      obtain rfl := mem_singleton.mp hb
      rfl
    · simpa [transferPayloadOf, ← howned.length_eq] using h.inputs_limit
  have henc : encodeAssetTransactionPayload C p = .ok (writeBody p [0]) := by
    refine (encode_eq_ok_iff C p).mpr ⟨hshape, [0], ?_, hlen, rfl⟩
    rw [← hp]
    rfl
  exact ⟨_, henc, hlen, (decode_iff_encode C _ p).mpr ⟨henc, hcan⟩⟩

end Payload

/-- The builder completes every transfer within its limits. The masks of outputs and burn add up
to those of the pseudo inputs modulo the group order, and the payload passes the verifier, encodes
within the size limit and decodes to itself. -/
theorem transfer_builder_balances (A : Arithmetic C D S order)
    (h : Transfer A keyImage assetId inputs destinations burnAmount)
    (hnetwork : network.isPublic = true) (hcarrier : carrier ≠ nullHash)
    (hcoins : Drawn C D S coins assetId inputs destinations burnAmount)
    (hrange : RangeComplete C S)
    (hsignatures : ∀ e ∈ inputs.zipIdx, SignatureComplete C S keyImage coins e) :
    ∃ p b encoded,
      createAssetTransferTransactionPayload C D S coins network assetId inputs destinations
        burnAmount carrier = .ok p ∧
      (p.balances = [b] ∧ b.outputs ++ b.burns = List.zipWith C.commit
        (proofAmounts (transferOutputs C S coins inputs.length destinations burnAmount) burnAmount)
        (transferMasks C S coins inputs.length)) ∧
      ((transferMasks C S coins inputs.length).map A.scalar).sum =
        ((List.range inputs.length).map fun i => A.scalar (coins.pseudoMask i)).sum ∧
      (encodeAssetTransactionPayload C p = .ok encoded ∧ encoded.length ≤ maxAssetWireBytes ∧
        decodeAssetTransactionPayload C encoded = .ok p) ∧
      ∀ known, assetId ∈ known →
        verifyAssetTransactionPayload C p known network carrier = .ok () := by
  have hnonempty := h.destinations_nonempty
  have hlimit := h.destinations_limit
  have hamounts : (proofAmounts (transferOutputs C S coins inputs.length destinations burnAmount)
      burnAmount).length = maxConfidentialAssetOutputs := length_proofAmounts hnonempty hlimit
  have hmasks := length_transferMasks C S coins inputs.length
  obtain ⟨made, hmade⟩ := exists_outputs h hcoins
  obtain ⟨proof, hprove, hverified, hproven, hfits⟩ := hrange
    (proofAmounts (transferOutputs C S coins inputs.length destinations burnAmount) burnAmount)
    (transferMasks C S coins inputs.length)
    (by rw [← length_pos_iff, hamounts]; decide) (hamounts.trans hmasks.symm) hmasks.le
    (transferMasks_reduced A hcoins.reduced inputs.length)
  obtain ⟨owned, hall, howned⟩ := exists_ownershipProofs h hnetwork hcarrier hsignatures
  obtain ⟨encoded, hencoded⟩ :=
    transferPayload_encoded hnetwork hcarrier howned rfl h hmade hfits
  have hverify := transferPayload_verified hnetwork hcarrier howned rfl h hmade hcoins hverified
    hproven
  refine ⟨_, _, encoded, ?_, ⟨rfl, outputs_append_burns h hmade⟩,
    sum_transferMasks A hcoins.reduced inputs.length, hencoded, hverify⟩
  -- The checks before the outputs are made, and the parts in the order they are made in.
  obtain ⟨inputTotal, destinationTotal, hinputs, hdestinations, hamount⟩ := amounts_accepted h
  have hmakes :
      makeOutputs C D S (transferOutputs C S coins inputs.length destinations burnAmount) =
        .ok made := (mapAll_eq_ok ..).mpr (hmade.imp fun _ _ he => he.made)
  simp only [createAssetTransferTransactionPayload, bind_eq_ok, failIf_eq_ok, exists_unit,
    pure_eq_ok, mapError_eq_ok]
  refine ⟨by simp [hnetwork], by simp [h.asset, hcarrier], ?_, ?_, inputTotal, hinputs,
    destinationTotal, hdestinations, hamount, Nat.not_lt.mpr hlimit, made, hmakes, proof, hprove,
    owned, hall, hverify [assetId] (mem_singleton_self _), rfl⟩
  · rw [not_or, length_eq_zero_iff, not_lt]
    exact ⟨h.inputs_nonempty, h.inputs_limit⟩
  · rw [not_or, length_eq_zero_iff, not_lt]
    exact ⟨hnonempty, hlimit.trans (Nat.sub_le _ _)⟩

def pairCoins : Coins where
  mask i := keyOfNat (100 + i)
  pseudoMask i := keyOfNat (200 + i)
  txSecret i := keyOfNat (7 + i)

/-- The input of a secret, an amount and a mask, in a ring with fifteen others. -/
def pairInput (secret : ℕ) (amount : UInt64) : AssetTransferInput where
  ring :=
    { assetId := keyOfNat 50, outputId := keyOfNat (300 + secret),
      publicOutput := { dest := pairSender.scalarmultBase (keyOfNat secret),
                        mask := pairCrypto.commit amount (keyOfNat 3) } } ::
      (List.range 15).map fun i =>
        { assetId := keyOfNat 50, outputId := keyOfNat (400 + i),
          publicOutput := { dest := keyOfNat 1, mask := keyOfNat 1 } }
  realOutputIndex := 0
  spendSecret := keyOfNat secret
  amount := amount
  mask := keyOfNat 3

def pairDestination : AssetTransferDestination where
  address := ⟨pairPoint (0, (11 : ℕ)), pairPoint (0, (13 : ℕ))⟩
  isSubaddress := true
  amount := 9

def pairInputs : List AssetTransferInput := [pairInput 21 5, pairInput 22 7]

theorem pair_transfer :
    Transfer pairArithmetic id (keyOfNat 50) pairInputs [pairDestination] 3 := by
  have hrings : ∀ input ∈ pairInputs, input.ring.length = confidentialAssetRingSize ∧
      (input.ring.map AssetRingMember.outputId).Nodup ∧
      ∀ member ∈ input.ring, member.assetId = keyOfNat 50 ∧ member.outputId ≠ nullHash ∧
        pairCrypto.isInMainSubgroup member.publicOutput.dest = true ∧
        pairCrypto.isInMainSubgroup member.publicOutput.mask = true := by
    decide +kernel
  refine ⟨by decide +kernel, by decide +kernel, by decide, ?_, ?_, by decide +kernel,
    by decide +kernel, by decide, ?_, by decide +kernel, by decide +kernel⟩
  · intro input hin
    obtain ⟨hsize, hnd, hmembers⟩ := hrings input hin
    exact ⟨hsize, fun member hmem => (hmembers member hmem).1,
      fun member hmem => (hmembers member hmem).2.1, hnd,
      fun member hmem => (hmembers member hmem).2.2⟩
  · have hreal : ∀ input ∈ pairInputs,
        input.ring[input.realOutputIndex]?.map AssetRingMember.publicOutput =
          some { dest := pairSender.scalarmultBase input.spendSecret,
                 mask := pairCrypto.commit input.amount input.mask } := by
      decide +kernel
    exact fun input hin => ⟨rfl, rfl, hreal input hin⟩
  · intro destination hdestination
    obtain rfl := mem_singleton.mp hdestination
    exact ⟨⟨11, rfl⟩, ⟨13, rfl⟩⟩

/-- Two inputs of 5 and 7 pay 9 to a subaddress and burn 3. -/
theorem transfer_builder_balances_two_inputs :
    ∃ p b encoded,
      createAssetTransferTransactionPayload pairCrypto pairDerivations pairSender pairCoins .mainnet
        (keyOfNat 50) pairInputs [pairDestination] 3 (keyOfNat 60) = .ok p ∧
      (p.balances = [b] ∧ b.outputs ++ b.burns = List.zipWith pairCrypto.commit
        (proofAmounts (transferOutputs pairCrypto pairSender pairCoins 2 [pairDestination] 3) 3)
        (transferMasks pairCrypto pairSender pairCoins 2)) ∧
      encodeAssetTransactionPayload pairCrypto p = .ok encoded ∧
      decodeAssetTransactionPayload pairCrypto encoded = .ok p ∧
      verifyAssetTransactionPayload pairCrypto p [keyOfNat 50] .mainnet (keyOfNat 60) = .ok () := by
  obtain ⟨p, b, encoded, hcreate, hbalance, -, ⟨hencode, -, hdecode⟩, hverify⟩ :=
    transfer_builder_balances pairArithmetic pair_transfer
      (by decide : NetworkType.mainnet.isPublic) (by decide +kernel : keyOfNat 60 ≠ nullHash)
      (⟨⟨fun _ => rfl, fun _ => rfl, fun _ => rfl⟩, by decide +kernel, by decide +kernel⟩ :
        Drawn pairCrypto pairDerivations pairSender pairCoins (keyOfNat 50) pairInputs
          [pairDestination] 3)
      pair_rangeComplete fun e _ => pair_signatureComplete pairCoins e
  exact ⟨p, b, encoded, hcreate, hbalance, hencode, hdecode,
    hverify [keyOfNat 50] (mem_singleton_self _)⟩

end Monzero.TransferBuilder
