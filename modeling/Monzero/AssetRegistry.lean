import Monzero.IssuanceCodec
import Mathlib.Data.List.Nodup

/-!
The registry of issued assets. An issuance is registered at a height when its id
is new, its issuer signed it and, if it names a collection, that collection is
registered no later, on the same network, and its controller signed the
membership. A registry is a map: no id is registered twice.
-/
namespace Monzero.AssetRegistry

open Checked Primitives AssetTypes IssuanceCodec List

variable {K : Type}

structure AssetRecord where
  descriptor : IssuanceDescriptor
  issuanceHeight : ℕ
  issuerSignature : Signature
  collectionSignature : Option Signature
deriving DecidableEq

def recordOf (p : IssuancePayload) (height : ℕ) : AssetRecord :=
  { descriptor := p.descriptor, issuanceHeight := height, issuerSignature := p.issuerSignature,
    collectionSignature := p.collectionSignature }

@[ext]
structure Registry where
  records : List (Hash × AssetRecord)
  ids_nodup : (records.map Prod.fst).Nodup
deriving DecidableEq

namespace Registry

def empty : Registry := ⟨[], nodup_nil⟩

def contains (r : Registry) (assetId : Hash) : Bool := r.records.any fun e => e.1 = assetId

def find (r : Registry) (assetId : Hash) : Option AssetRecord :=
  (r.records.find? fun e => e.1 = assetId).map Prod.snd

/-- `known_assets()`: the registered ids. -/
def knownAssets (r : Registry) : List Hash := r.records.map Prod.fst

variable (r : Registry) (assetId : Hash)

theorem not_contains_iff : r.contains assetId = false ↔ assetId ∉ r.knownAssets := by
  simp only [contains, knownAssets, any_eq_false, decide_eq_true_eq, mem_map, not_exists, not_and]

theorem contains_iff : r.contains assetId = true ↔ assetId ∈ r.knownAssets := by
  rw [← not_iff_not, Bool.not_eq_true]
  exact r.not_contains_iff assetId

theorem find_eq_some_iff (rcd : AssetRecord) :
    r.find assetId = some rcd ↔ (assetId, rcd) ∈ r.records := by
  simp only [find, Option.map_eq_some_iff]
  constructor
  · rintro ⟨⟨id, found⟩, hfind, rfl⟩
    have hid : id = assetId := by simpa using find?_some hfind
    rw [← hid]
    exact mem_of_find?_eq_some hfind
  · intro hmem
    cases hfind : r.records.find? fun e => e.1 = assetId with
    | none => simpa using find?_eq_none.mp hfind _ hmem
    | some e =>
      have hid : e.1 = assetId := by simpa using find?_some hfind
      have he : e = (assetId, rcd) :=
        inj_on_of_nodup_map r.ids_nodup (mem_of_find?_eq_some hfind) hmem hid
      exact ⟨e, rfl, by rw [he]⟩

private theorem nodup_append_id (rcd : AssetRecord) (h : r.contains assetId = false) :
    ((r.records ++ [(assetId, rcd)]).map Prod.fst).Nodup := by
  have hnew := (r.not_contains_iff assetId).mp h
  rw [map_append, nodup_append]
  refine ⟨r.ids_nodup, by simp, ?_⟩
  intro a ha b hb hab
  obtain rfl : b = assetId := by simpa using hb
  exact hnew (hab ▸ ha)

/-- `records_.emplace`: insert unless the id is there. -/
def emplace (r : Registry) (assetId : Hash) (record : AssetRecord) : Registry :=
  if h : r.contains assetId = false then
    ⟨r.records ++ [(assetId, record)], r.nodup_append_id assetId record h⟩
  else r

theorem records_emplace (rcd : AssetRecord) (h : r.contains assetId = false) :
    (r.emplace assetId rcd).records = r.records ++ [(assetId, rcd)] := by
  simp [emplace, h]

/-- The part of `apply_issuance` about the collection an issuance names. -/
def checkCollection (C : Crypto K) (r : Registry) (p : IssuancePayload) (assetId : Hash)
    (height : ℕ) : Except String Unit :=
  if claimsCollection p.descriptor then
    match r.find p.descriptor.collectionId with
    | none => .error "referenced collection is unknown or not a collection"
    | some collection => do
        failIf (collection.descriptor.type ≠ .collection)
          "referenced collection is unknown or not a collection"
        failIf (collection.descriptor.network ≠ p.descriptor.network)
          "collection and member must use the same network"
        failIf (collection.issuanceHeight > height)
          "collection membership cannot precede collection issuance"
        match p.collectionSignature with
        | none => .error "collection membership requires controller authorization"
        | some signature =>
            verifyCollectionMembership C p.descriptor.collectionId assetId
              collection.descriptor.issuerKey signature
  else
    failIf (p.collectionSignature.isSome = true)
      "unexpected collection signature for an uncollected asset"

/-- `apply_issuance`: the registry with the new record, and the id it got. -/
def applyIssuance (C : Crypto K) (r : Registry) (p : IssuancePayload) (height : ℕ) :
    Except String (Registry × Hash) := do
  let assetId ← deriveAssetId C p.descriptor
  failIf (r.contains assetId = true) "asset ID is already registered"
  verifyIssuanceAuthorization C p.descriptor p.issuerSignature
  checkCollection C r p assetId height
  return (r.emplace assetId (recordOf p height), assetId)

/-- What a collection has to be for a membership to be accepted at a height. -/
structure Admits (C : Crypto K) (collection : AssetRecord) (p : IssuancePayload) (assetId : Hash)
    (height : ℕ) : Prop where
  type_eq : collection.descriptor.type = .collection
  network_eq : collection.descriptor.network = p.descriptor.network
  height_le : collection.issuanceHeight ≤ height
  signed : ∃ signature, p.collectionSignature = some signature ∧
    verifyCollectionMembership C p.descriptor.collectionId assetId
      collection.descriptor.issuerKey signature = .ok ()

theorem checkCollection_eq_ok {C : Crypto K} {r : Registry} {p : IssuancePayload}
    {aid : Hash} {height : ℕ} {u : Unit} : checkCollection C r p aid height = .ok u ↔
      (claimsCollection p.descriptor = true → ∃ coll, r.find p.descriptor.collectionId = some coll ∧
          Admits C coll p aid height) ∧
      (claimsCollection p.descriptor = false → p.collectionSignature = none) := by
  unfold checkCollection
  cases claimsCollection p.descriptor with
  | false => simp [failIf_eq_ok]
  | true =>
    cases r.find p.descriptor.collectionId with
    | none => simp
    | some coll =>
      simp only [↓reduceIte, bind_eq_ok, failIf_eq_ok, exists_unit, not_not, not_lt, ne_eq,
        Option.some.injEq, exists_eq_left', forall_const, reduceCtorEq, false_implies, and_true]
      constructor
      · rintro ⟨htype, hnet, hht, hsigned⟩
        refine ⟨htype, hnet, hht, ?_⟩
        cases hs : p.collectionSignature with
        | none => rw [hs] at hsigned; cases hsigned
        | some sig => rw [hs] at hsigned; exact ⟨sig, rfl, hsigned⟩
      · rintro ⟨htype, hnet, hht, sig, hs, hsigned⟩
        refine ⟨htype, hnet, hht, ?_⟩
        rw [hs]
        exact hsigned

theorem applyIssuance_eq_ok {C : Crypto K} {r : Registry} {p : IssuancePayload}
    {height : ℕ} {r' : Registry} {aid : Hash} : applyIssuance C r p height = .ok (r', aid) ↔
      deriveAssetId C p.descriptor = .ok aid ∧ r.contains aid = false ∧
        verifyIssuanceAuthorization C p.descriptor p.issuerSignature = .ok () ∧
        checkCollection C r p aid height = .ok () ∧ r' = r.emplace aid (recordOf p height) := by
  simp only [applyIssuance, bind_eq_ok, failIf_eq_ok, pure_eq_ok, exists_unit, Prod.mk.injEq,
    Bool.not_eq_true]
  constructor
  · rintro ⟨id, hid, hnew, hauth, hcoll, rfl, rfl⟩
    exact ⟨hid, hnew, hauth, hcoll, rfl⟩
  · rintro ⟨hid, hnew, hauth, hcoll, rfl⟩
    exact ⟨aid, hid, hnew, hauth, hcoll, rfl, rfl⟩

theorem records_of_apply (C : Crypto K) (r r' : Registry) (p : IssuancePayload) (height : ℕ)
    (aid : Hash) (h : applyIssuance C r p height = .ok (r', aid)) :
    r'.records = r.records ++ [(aid, recordOf p height)] := by
  obtain ⟨-, hnew, -, -, rfl⟩ := applyIssuance_eq_ok.mp h
  exact records_emplace r aid _ hnew

end Registry

end Monzero.AssetRegistry
