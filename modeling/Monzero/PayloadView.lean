import Monzero.AcceptedGroups
import Monzero.PoolBlockAgreement
import Monzero.RegistryRuns

/-!
What the checks of an asset transaction read. They look up the assets of the balance
groups, the collection of an issuance, the key images and the ring members of the
ownership proofs, and the ids of the outputs. Tables that agree on these accept the
same transactions. Other transactions and rollbacks leave the view of a transaction
alone unless they touch one of these entries.
-/
namespace Monzero.PayloadView

open Checked IndexedTable Primitives AssetTypes IssuanceCodec AssetRegistry AssetConfidential
  AssetWire AssetDb AssetApplication RegistryReload AssetRuns AcceptedGroups
open Registry (applyIssuance_eq_ok contains_iff)
open Table (contains_congr)

variable {B K : Type} [DecidableEq K]

/-- Two tables answer every question the checks of a payload ask in the same way. -/
structure SameView (C : Crypto K) (network : NetworkType) (p : AssetTransactionPayload K)
    (t t' : AssetTables K) : Prop where
  assets : ∀ b ∈ p.balances, t'.records.contains b.assetId = t.records.contains b.assetId
  issued : ∀ i id, p.issuance = some i → deriveAssetId C i.descriptor = .ok id →
    t'.records.contains id = t.records.contains id
  collection : ∀ i, p.issuance = some i → claimsCollection i.descriptor = true →
    t'.records.get i.descriptor.collectionId = t.records.get i.descriptor.collectionId
  keyImages : ∀ proof ∈ p.ownershipProofs,
    t'.keyImages.contains proof.keyImage = t.keyImages.contains proof.keyImage
  rings : ∀ proof ∈ p.ownershipProofs, ∀ member ∈ proof.ring,
    t'.outputs.get member.outputId = t.outputs.get member.outputId
  outputs : ∀ e ∈ (payloadOutputs p).zipIdx, ∀ id,
    deriveAssetOutputId C network p.carrierPrefixHash e.1 e.2 = .ok id →
      t'.outputs.contains id = t.outputs.contains id

variable (C : Crypto K) (t t' : AssetTables K) (p : AssetTransactionPayload K) (net : NetworkType)
  {car : Hash} {proof : AssetOwnershipProof K} {reg reg' : Registry} {height : ℕ}
  {issued : Option (Hash × List UInt8)} {ids : List Hash} {q : AssetTransactionPayload K}

theorem verifyPayload_congr {known known' : List Hash} (net : NetworkType)
    (h : ∀ b ∈ p.balances, (b.assetId ∈ known ↔ b.assetId ∈ known')) :
    verifyAssetTransactionPayload C p known net car =
      verifyAssetTransactionPayload C p known' net car := by
  have hloop : ∀ iss iid s, loop (checkGroup C known iss iid) p.balances s =
      loop (checkGroup C known' iss iid) p.balances s := by
    intro iss iid s
    refine loop_congr (fun s b hb => ?_) s
    simp only [checkGroup, checkIssuanceGroup, h b hb]
  simp only [verifyAssetTransactionPayload, verifyConfidentialAssetTransactionWithOwnership,
    verifyConfidentialAssetTransaction, hloop]

theorem verifyOwnership_congr (net : NetworkType)
    (hkey : t'.keyImages.contains proof.keyImage = t.keyImages.contains proof.keyImage)
    (hring : ∀ m ∈ proof.ring, t'.outputs.get m.outputId = t.outputs.get m.outputId) :
    verifyAssetOwnershipAgainstDb C t' proof net car =
      verifyAssetOwnershipAgainstDb C t proof net car := by
  have hcheck : checkAll (checkRingMemberAgainstDb t' proof) proof.ring =
      checkAll (checkRingMemberAgainstDb t proof) proof.ring := by
    refine checkAll_congr fun m hm => ?_
    simp only [checkRingMemberAgainstDb, hring m hm]
  simp only [verifyAssetOwnershipAgainstDb, hkey, hcheck]

theorem checks_sameView (hview : SameView C net p t t')
    (hload : loadRegistryFromDb C t' net = .ok reg')
    (h : Checks C t p net p.carrierPrefixHash reg) :
    Checks C t' p net p.carrierPrefixHash reg' where
  loaded := hload
  payload := by
    rw [← h.payload]
    refine verifyPayload_congr C p net fun b hb => ?_
    rw [← contains_iff, ← contains_iff, load_contains hload,
      load_contains h.loaded, hview.assets b hb]
  owned := by
    intro proof hpf
    rw [verifyOwnership_congr C t t' net (hview.keyImages proof hpf) (hview.rings proof hpf)]
    exact h.owned proof hpf

/-- An issuance the registry of one table takes is taken by the registry of the other, at any
height above the collection's. -/
theorem applyIssuance_sameView {r : Registry} {i : IssuancePayload} {id : Hash} {height' : ℕ}
    (hview : SameView C net p t t') (hi : p.issuance = some i)
    (hload : loadRegistryFromDb C t net = .ok reg) (hload' : loadRegistryFromDb C t' net = .ok reg')
    (hbelow : ∀ row ∈ t'.records.rows, row.height ≤ height')
    (h : reg.applyIssuance C i height = .ok (r, id)) :
    ∃ r', reg'.applyIssuance C i height' = .ok (r', id) := by
  obtain ⟨hder, hnew, hauth, hcoll, -⟩ := applyIssuance_eq_ok.mp h
  refine ⟨reg'.emplace id (recordOf i height'), ?_⟩
  rw [applyIssuance_eq_ok]
  refine ⟨hder, ?_, hauth, ?_, rfl⟩
  · rw [load_contains hload', hview.issued i id hi hder,
      ← load_contains hload, hnew]
  · rw [Registry.checkCollection_eq_ok] at hcoll ⊢
    refine ⟨?_, hcoll.2⟩
    intro hclaims
    obtain ⟨rcd, hfind, hadmits⟩ := hcoll.1 hclaims
    obtain ⟨row, hrow, hkey, pc, hdec, hnet, rfl⟩ :=
      (load_find_iff hload _ _).mp hfind
    have hget : t'.records.get i.descriptor.collectionId = some row := by
      rw [hview.collection i hi hclaims, Table.get_eq_some_iff]
      exact ⟨hrow, hkey⟩
    have hrow' := t'.records.mem_of_get _ _ hget
    refine ⟨recordOf pc row.height, (load_find_iff hload' _ _).mpr
      ⟨row, hrow', hkey, pc, hdec, hnet, rfl⟩, ?_⟩
    exact ⟨hadmits.type_eq, hadmits.network_eq, hbelow row hrow', hadmits.signed⟩

/-- The checks before an application carry over to tables with the same view, with the same
rows to write. -/
theorem prepare_sameView {height' : ℕ} (hview : SameView C net p t t')
    (hload : ∃ r, loadRegistryFromDb C t' net = .ok r)
    (hbelow : ∀ row ∈ t'.records.rows, row.height ≤ height')
    (h : prepareAssetTransaction C t p net p.carrierPrefixHash height = .ok (issued, ids)) :
    prepareAssetTransaction C t' p net p.carrierPrefixHash height' = .ok (issued, ids) := by
  obtain ⟨reg', hload'⟩ := hload
  obtain ⟨reg, hchk, hiss, hids⟩ := (prepare_eq_ok ..).mp h
  rw [prepare_eq_ok]
  refine ⟨reg', checks_sameView C t t' p net hview hload' hchk, ?_, ?_⟩
  · rw [prepareIssuance_eq_ok] at hiss ⊢
    rcases hiss with hnone | ⟨i, r, id, enc, hi, happly, henc, rfl⟩
    · exact Or.inl hnone
    · obtain ⟨r', happly'⟩ :=
        applyIssuance_sameView C t t' p net hview hi hchk.loaded hload' hbelow happly
      exact Or.inr ⟨i, r', id, enc, hi, happly', henc, rfl⟩
  · rw [candidateIds, mapAll_congr (g := candidateId C t net p.carrierPrefixHash)]
    · exact hids
    · intro e he
      simp only [candidateId]
      cases hder : deriveAssetOutputId C net p.carrierPrefixHash e.1 e.2 with
      | error message => rfl
      | ok id => simp only [ok_bind, hview.outputs e he id hder]

theorem groups_known {t : AssetTables K} {p : AssetTransactionPayload K} {net : NetworkType}
    (h : Checks C t p net car reg) (b : ConfidentialAssetBalance K) (hb : b ∈ p.balances) :
    t.records.contains b.assetId = true ∨
      ∃ i, p.issuance = some i ∧ deriveAssetId C i.descriptor = .ok b.assetId := by
  obtain ⟨-, -, -, hverify, -⟩ := verifyPayload_facts C p h.payload
  obtain ⟨iid, hacc⟩ := (verifyTransaction_eq_ok_iff ..).mp hverify
  by_cases hid : iid = some b.assetId
  · right
    obtain ⟨d, hd, hder⟩ := exists_issuance (hid ▸ hacc.derived)
    obtain ⟨i, hi, rfl⟩ := Option.map_eq_some_iff.mp hd
    exact ⟨i, hi, hder⟩
  · left
    rw [← load_contains h.loaded, contains_iff]
    exact (hacc.groups b hb).unissued_known hid

/-- What a payload whose checks passed finds in the tables. -/
structure Finds (C : Crypto K) (network : NetworkType) (p : AssetTransactionPayload K)
    (t : AssetTables K) : Prop where
  assets : ∀ b ∈ p.balances, t.records.contains b.assetId = true ∨
    ∃ i, p.issuance = some i ∧ deriveAssetId C i.descriptor = .ok b.assetId
  issued : ∀ i id, p.issuance = some i → deriveAssetId C i.descriptor = .ok id →
    t.records.contains id = false
  collection : ∀ i, p.issuance = some i → claimsCollection i.descriptor = true →
    t.records.contains i.descriptor.collectionId = true
  keyImages : ∀ proof ∈ p.ownershipProofs, t.keyImages.contains proof.keyImage = false
  rings : ∀ proof ∈ p.ownershipProofs, ∀ member ∈ proof.ring,
    t.outputs.contains member.outputId = true
  outputs : ∀ e ∈ (payloadOutputs p).zipIdx, ∀ id,
    deriveAssetOutputId C network p.carrierPrefixHash e.1 e.2 = .ok id →
      t.outputs.contains id = false

private theorem ringMember_stored {t : AssetTables K}
    {member : AssetRingMember K} (h : checkRingMemberAgainstDb t proof member = .ok ()) :
    t.outputs.contains member.outputId = true := by
  unfold checkRingMemberAgainstDb at h
  rw [← t.outputs.get_isSome]
  cases hget : t.outputs.get member.outputId with
  | none =>
    rw [hget] at h
    cases h
  | some row => rfl

theorem finds_of_prepare {t : AssetTables K} {p : AssetTransactionPayload K} {net : NetworkType}
    (h : prepareAssetTransaction C t p net p.carrierPrefixHash height = .ok (issued, ids)) :
    Finds C net p t := by
  obtain ⟨reg, hchk, hiss, hids⟩ := (prepare_eq_ok ..).mp h
  have hissuance : ∀ i, p.issuance = some i →
      ∃ r id, reg.applyIssuance C i height = .ok (r, id) := by
    intro i hi
    rcases (prepareIssuance_eq_ok ..).mp hiss with ⟨hnone, -⟩ | ⟨j, r, id, -, hj, happly, -⟩
    · rw [hi] at hnone
      cases hnone
    · obtain rfl : i = j := by simpa using hi.symm.trans hj
      exact ⟨r, id, happly⟩
  have howned : ∀ proof ∈ p.ownershipProofs, t.keyImages.contains proof.keyImage = false ∧
      ∀ m ∈ proof.ring, t.outputs.contains m.outputId = true := by
    intro proof hpf
    have hverified := hchk.owned proof hpf
    simp only [verifyAssetOwnershipAgainstDb, bind_eq_ok, failIf_eq_ok, exists_unit,
      Bool.not_eq_true, checkAll_eq_ok] at hverified
    exact ⟨hverified.1, fun m hm => ringMember_stored (hverified.2.1 m hm)⟩
  refine ⟨groups_known C hchk, ?_, ?_, fun proof hpf =>
    (howned proof hpf).1, fun proof hpf => (howned proof hpf).2, ?_⟩
  · intro i id hi hder
    obtain ⟨r, id', happly⟩ := hissuance i hi
    obtain ⟨hder', hnew, -⟩ := applyIssuance_eq_ok.mp happly
    obtain rfl : id = id' := by simpa using hder.symm.trans hder'
    rw [← load_contains hchk.loaded]
    exact hnew
  · intro i hi hclaims
    obtain ⟨r, id, happly⟩ := hissuance i hi
    obtain ⟨-, -, -, hcoll, -⟩ := applyIssuance_eq_ok.mp happly
    obtain ⟨rcd, hfind, -⟩ := (Registry.checkCollection_eq_ok.mp hcoll).1 hclaims
    obtain ⟨row, hrow, hkey, -⟩ :=
      (load_find_iff hchk.loaded _ _).mp hfind
    exact (t.records.contains_iff _).mpr ⟨row, hrow, hkey⟩
  · intro e he id hder
    rw [candidateIds_eq_ok] at hids
    obtain ⟨id', -, hder', hnew⟩ := (forall₂_partner hids).1 e he
    obtain rfl : id = id' := by simpa using hder.symm.trans hder'
    exact hnew

/-- Two payloads issue different assets, spend different key images and create different
outputs. -/
structure Apart (C : Crypto K) (network : NetworkType) (p q : AssetTransactionPayload K) :
    Prop where
  issued : ∀ i j id, p.issuance = some i → q.issuance = some j →
    deriveAssetId C i.descriptor = .ok id → deriveAssetId C j.descriptor ≠ .ok id
  keyImages : ∀ proof ∈ p.ownershipProofs, ∀ proof' ∈ q.ownershipProofs,
    proof.keyImage ≠ proof'.keyImage
  outputs : ∀ e ∈ (payloadOutputs p).zipIdx, ∀ e' ∈ (payloadOutputs q).zipIdx, ∀ id,
    deriveAssetOutputId C network p.carrierPrefixHash e.1 e.2 = .ok id →
      deriveAssetOutputId C network q.carrierPrefixHash e'.1 e'.2 ≠ .ok id

omit [DecidableEq K] in
theorem Apart.symm {C : Crypto K} {net : NetworkType} {p : AssetTransactionPayload K}
    (h : Apart C net p q) : Apart C net q p where
  issued := fun i j id hi hj hid hid' => h.issued j i id hj hi hid' hid
  keyImages := fun proof hpf pf' hpf' =>
    (h.keyImages pf' hpf' proof hpf).symm
  outputs := fun e he e' he' id hid hid' => h.outputs e' he' e he id hid' hid

theorem sameView_apply {p : AssetTransactionPayload K} {net : NetworkType}
    (hfinds : Finds C net p t) (hapart : Apart C net p q)
    (happ : applyAssetTransactionToDb C t q net q.carrierPrefixHash height = (.ok ids, t')) :
    SameView C net p t t' := by
  obtain ⟨issued, hprep, -, hadded⟩ := apply_eq_ok.mp happ
  obtain ⟨reg, -, hiss, hids⟩ := (prepare_eq_ok ..).mp hprep
  have hnewAsset : ∀ i id, p.issuance = some i → deriveAssetId C i.descriptor = .ok id →
      t'.records.contains id = t.records.contains id := by
    intro i id hi hder
    refine contains_congr (Table.get_append_of_fresh hadded.records id ?_)
    intro row hrow hkey
    rcases (prepareIssuance_eq_ok ..).mp hiss with ⟨-, rfl⟩ | ⟨j, r, id', enc, hj, happly, -, rfl⟩
    · simp [recordRows] at hrow
    · rw [List.mem_singleton.mp hrow] at hkey
      have hder' := (applyIssuance_eq_ok.mp happly).1
      exact hapart.issued i j id hi hj hder (hkey ▸ hder')
  refine ⟨?_, hnewAsset, ?_, ?_, ?_, ?_⟩
  · intro b hb
    rcases hfinds.assets b hb with hknown | ⟨i, hi, hder⟩
    · exact contains_congr (Table.get_append_of_contains hadded.records hknown)
    · exact hnewAsset i b.assetId hi hder
  · intro i hi hclaims
    exact Table.get_append_of_contains hadded.records (hfinds.collection i hi hclaims)
  · intro proof hpf
    refine contains_congr (Table.get_append_of_fresh hadded.keyImages _ ?_)
    intro row hrow hkey
    obtain ⟨pf', hpf', rfl⟩ := List.mem_map.mp hrow
    exact hapart.keyImages proof hpf pf' hpf' hkey.symm
  · intro proof hpf m hm
    exact Table.get_append_of_contains hadded.outputs (hfinds.rings proof hpf m hm)
  · intro e he id hder
    refine contains_congr (Table.get_append_of_fresh hadded.outputs id ?_)
    intro row hrow hkey
    rw [candidateIds_eq_ok] at hids
    have hkeys := outputRows_keys q height ids (by simpa using hids.length_eq.symm)
    have hid : id ∈ ids := by
      rw [← hkey, ← hkeys]
      exact List.mem_map_of_mem hrow
    obtain ⟨e', he', hder', -⟩ := (forall₂_partner hids).2 id hid
    exact hapart.outputs e he e' he' id hder hder'

theorem SameView.refl (p : AssetTransactionPayload K) (t : AssetTables K) : SameView C net p t t :=
  ⟨fun _ _ => rfl, fun _ _ _ _ => rfl, fun _ _ _ => rfl, fun _ _ => rfl, fun _ _ _ _ => rfl,
    fun _ _ _ _ => rfl⟩

theorem SameView.trans {C : Crypto K} {net : NetworkType} {p : AssetTransactionPayload K}
    {t t' t'' : AssetTables K} (h : SameView C net p t t') (h' : SameView C net p t' t'') :
    SameView C net p t t'' where
  assets := fun b hb => (h'.assets b hb).trans (h.assets b hb)
  issued := fun i id hi hid => (h'.issued i id hi hid).trans (h.issued i id hi hid)
  collection := fun i hi hc => (h'.collection i hi hc).trans (h.collection i hi hc)
  keyImages := fun q hq => (h'.keyImages q hq).trans (h.keyImages q hq)
  rings := fun q hq m hm => (h'.rings q hq m hm).trans (h.rings q hq m hm)
  outputs := fun e he id hid => (h'.outputs e he id hid).trans (h.outputs e he id hid)

theorem Finds.sameView {C : Crypto K} {net : NetworkType} {p : AssetTransactionPayload K}
    {t t' : AssetTables K} (h : Finds C net p t) (hview : SameView C net p t t') :
    Finds C net p t' where
  assets := fun b hb => (h.assets b hb).imp_left (hview.assets b hb).trans
  issued := fun i id hi hid => (hview.issued i id hi hid).trans (h.issued i id hi hid)
  collection := fun i hi hc =>
    (contains_congr (hview.collection i hi hc)).trans (h.collection i hi hc)
  keyImages := fun q hq => (hview.keyImages q hq).trans (h.keyImages q hq)
  rings := fun q hq m hm => (contains_congr (hview.rings q hq m hm)).trans (h.rings q hq m hm)
  outputs := fun e he id hid => (hview.outputs e he id hid).trans (h.outputs e he id hid)

theorem sameView_applyAssetPayloads (height : ℕ) (pls : List (AssetTransactionPayload K × Hash))
    (t t' : AssetTables K) (u : Unit) (p : AssetTransactionPayload K) (hfinds : Finds C net p t)
    (hapart : ∀ q ∈ pls, Apart C net p q.1) (hcar : ∀ q ∈ pls, q.2 = q.1.carrierPrefixHash)
    (h : applyAssetPayloads C net height pls t = (.ok u, t')) : SameView C net p t t' := by
  refine applyAssetPayloads_invariant C net height (SameView C net p t) pls ?_ t t' u
    (SameView.refl C net p t) h
  intro s q car ids s' hq hview happ
  have hcar' : car = q.carrierPrefixHash := hcar _ hq
  subst hcar'
  exact hview.trans (sameView_apply C s s' (hfinds.sameView hview) (hapart _ hq) happ)

/-- Everything a payload refers to was stored below a height. -/
structure Settled (p : AssetTransactionPayload K) (t : AssetTables K) (height : ℕ) : Prop where
  assets : ∀ b ∈ p.balances, ∀ row ∈ t.records.rows, row.key = b.assetId → row.height < height
  collection : ∀ i, p.issuance = some i → claimsCollection i.descriptor = true →
    ∀ row ∈ t.records.rows, row.key = i.descriptor.collectionId → row.height < height
  rings : ∀ proof ∈ p.ownershipProofs, ∀ member ∈ proof.ring, ∀ row ∈ t.outputs.rows,
    row.key = member.outputId → row.height < height

private theorem get_rollback {κ ν : Type} [DecidableEq κ] {t : Table κ ν} {key : κ}
    (h : ∀ row ∈ t.rows, row.key = key → row.height < height) :
    (t.removeFromHeight height).get key = t.get key := by
  rw [t.get_removeFromHeight]
  cases hget : t.get key with
  | none => rfl
  | some row =>
    have hlt := h row (t.mem_of_get key row hget) (t.key_of_get key row hget)
    simp [hlt]

theorem sameView_rollback {t : AssetTables K} {p : AssetTransactionPayload K}
    {net : NetworkType} (hfinds : Finds C net p t)
    (hsettled : Settled p t height) : SameView C net p t (t.removeFromHeight height) where
  assets := fun b hb =>
    contains_congr (get_rollback (hsettled.assets b hb))
  issued := by
    intro i id hi hder
    have hnew := hfinds.issued i id hi hder
    rw [hnew]
    exact t.records.contains_removeFromHeight_of_not height id hnew
  collection := fun i hi hclaims =>
    get_rollback (hsettled.collection i hi hclaims)
  keyImages := by
    intro proof hpf
    have hnew := hfinds.keyImages proof hpf
    rw [hnew]
    exact t.keyImages.contains_removeFromHeight_of_not height _ hnew
  rings := fun proof hpf m hm =>
    get_rollback (hsettled.rings proof hpf m hm)
  outputs := by
    intro e he id hder
    have hnew := hfinds.outputs e he id hder
    rw [hnew]
    exact t.outputs.contains_removeFromHeight_of_not height id hnew

end Monzero.PayloadView
