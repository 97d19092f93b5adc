import Monzero.PayloadView

/-!
Payloads that are apart from each other and pass the checks one by one can be applied
one after the other. Each application leaves the view of the others alone and keeps the
registry loadable, because the collection of every issuance is older than the block.
-/
namespace Monzero.IndependentPayloads

open IndexedTable Primitives IssuanceCodec AssetWire AssetDb RegistryReload AssetRuns
  PoolBlockAgreement RegistryRuns PayloadView

variable {B K : Type} [DecidableEq K]

/-- Tables from which the registry can be loaded, with rows up to a height. -/
structure Loadable (C : Crypto K) (network : NetworkType) (height : ℕ) (t : AssetTables K) :
    Prop where
  issued : Issued C network t
  first : CollectionsFirst C t
  heights : ∀ row ∈ t.records.rows, row.height ≤ height

omit [DecidableEq K] in
theorem Loadable.load {C : Crypto K} {net : NetworkType} {height : ℕ} {t : AssetTables K}
    (h : Loadable C net height t) : ∃ r, loadRegistryFromDb C t net = .ok r :=
  load_of_consistent C net (consistent_of_issued C net t h.issued h.first)

theorem loadable_of_reloadable {C : Crypto K} {net : NetworkType} {db : BlockchainDb B K}
    (h : Reloadable C net db) : Loadable C net db.height db.assets :=
  ⟨h.issued, h.first, fun row hrow => (h.below.records row hrow).le⟩

/-- A payload passes the checks at a height, its collection is older, its issuance is for this
network and its output ids do not collide. -/
structure Pending (C : Crypto K) (network : NetworkType) (height : ℕ) (t : AssetTables K)
    (p : AssetTransactionPayload K) : Prop where
  checked : ∃ issued ids,
    prepareAssetTransaction C t p network p.carrierPrefixHash height = .ok (issued, ids)
  collection : ∀ i, p.issuance = some i → claimsCollection i.descriptor = true →
    ∀ row ∈ t.records.rows, row.key = i.descriptor.collectionId → row.height < height
  ownNetwork : ∀ i, p.issuance = some i → i.descriptor.network = network
  free : OutputIdsCollisionFree C p network p.carrierPrefixHash

theorem Pending.finds {C : Crypto K} {net : NetworkType} {height : ℕ} {t : AssetTables K}
    {p : AssetTransactionPayload K} (h : Pending C net height t p) : Finds C net p t := by
  obtain ⟨issued, ids, hprep⟩ := h.checked
  exact finds_of_prepare C hprep

variable (C : Crypto K) (net : NetworkType)

theorem loadable_apply (height : ℕ) (t t' : AssetTables K) (p : AssetTransactionPayload K)
    (ids : List Hash) (hload : Loadable C net height t) (hpending : Pending C net height t p)
    (happ : applyAssetTransactionToDb C t p net p.carrierPrefixHash height = (.ok ids, t')) :
    Loadable C net height t' where
  issued := issued_apply C net t t' p _ height ids hload.issued hpending.ownNetwork happ
  first := by
    refine collectionsFirst_apply C net height t t' p _ ids hload.issued hload.first ?_ happ
    intro i id enc c hi _ hclaims hc hkey
    rw [storedBefore_iff]
    exact Or.inl (hpending.collection i hi hclaims c hc hkey)
  heights := by
    intro row hrow
    rcases (apply_heights C t t' happ).1 row hrow with hold | hnew
    · exact hload.heights row hold
    · exact hnew.le

variable {C net} in
theorem pending_sameView {height height' : ℕ} {t t' : AssetTables K} {p : AssetTransactionPayload K}
    (hpending : Pending C net height t p) (hview : SameView C net p t t')
    (hload : Loadable C net height' t')
    (hht : ∀ i, p.issuance = some i → claimsCollection i.descriptor = true →
      ∀ row ∈ t'.records.rows, row.key = i.descriptor.collectionId → row.height < height') :
    Pending C net height' t' p := by
  obtain ⟨issued, ids, hprep⟩ := hpending.checked
  refine ⟨⟨issued, ids, ?_⟩, hht, hpending.ownNetwork, hpending.free⟩
  exact prepare_sameView C t t' p net hview hload.load hload.heights hprep

theorem pending_apply (height : ℕ) (t t' : AssetTables K) (p q : AssetTransactionPayload K)
    (ids : List Hash) (hload : Loadable C net height t')
    (hpending : Pending C net height t p) (hapart : Apart C net p q)
    (happ : applyAssetTransactionToDb C t q net q.carrierPrefixHash height = (.ok ids, t')) :
    Pending C net height t' p := by
  have hview := sameView_apply C t t' hpending.finds hapart happ
  refine pending_sameView hpending hview hload ?_
  intro i hi hclaims row hrow hkey
  have hget : t.records.get i.descriptor.collectionId = some row := by
    rw [← hview.collection i hi hclaims, Table.get_eq_some_iff]
    exact ⟨hrow, hkey⟩
  exact hpending.collection i hi hclaims row (t.records.mem_of_get _ _ hget) hkey

/-- Payloads apart from each other that are all pending are applied one after the other. The
induction carries that the tables stay loadable and the rest stays pending. -/
theorem applyAssetPayloads_of_apart (height : ℕ) (pls : List (AssetTransactionPayload K))
    (t : AssetTables K) (hload : Loadable C net height t)
    (hpending : ∀ p ∈ pls, Pending C net height t p) (hapart : pls.Pairwise (Apart C net)) :
    (applyAssetPayloads C net height (pls.map fun p => (p, p.carrierPrefixHash)) t).1 = .ok () := by
  induction pls generalizing t with
  | nil => rfl
  | cons q rest ih =>
    rw [List.pairwise_cons] at hapart
    have hq := hpending q List.mem_cons_self
    obtain ⟨issued, ids, hprep⟩ := hq.checked
    obtain ⟨t', happ⟩ := apply_of_prepare C t q net _ height issued ids hq.free hprep
    have hload' := loadable_apply C net height t t' q ids hload hq happ
    rw [List.map_cons, applyAssetPayloads, happ]
    refine ih t' hload' ?_ hapart.2
    intro p hp
    exact pending_apply C net height t t' p q ids hload'
      (hpending p (List.mem_cons_of_mem _ hp)) (hapart.1 p hp).symm happ

end Monzero.IndependentPayloads
