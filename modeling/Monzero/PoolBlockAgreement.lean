import Monzero.AssetRuns
import Monzero.AssetWireCodec

/-!
The pool's read-only validation and the application in a block agree. Both load the
registry and make the same checks; the application also re-encodes the issuance,
which succeeds for every decoded payload, and writes rows that the checks have shown
to be new.
-/
namespace Monzero.PoolBlockAgreement

open Checked IndexedTable Primitives IssuanceCodec AssetRegistry AssetWire AssetWireCodec AssetDb
  AssetApplication RegistryReload ToyCrypto List

variable {B K : Type} [DecidableEq K]

/-- No two of the strings hashed for the output ids of a payload collide. -/
def OutputIdsCollisionFree (C : Crypto K) (p : AssetTransactionPayload K)
    (network : NetworkType) (carrier : Hash) : Prop :=
  Set.InjOn C.cnFastHash
    {s | ∃ e ∈ (payloadOutputs p).zipIdx, s = outputIdBytes C network carrier e.1 e.2}

omit [DecidableEq K] in
theorem derived_ids_nodup {C : Crypto K} {p : AssetTransactionPayload K} {net : NetworkType}
    {car : Hash} {ids : List Hash} (hfree : OutputIdsCollisionFree C p net car)
    (hlen : (payloadOutputs p).length < 2 ^ 32)
    (hids : List.Forall₂ (fun e id => deriveAssetOutputId C net car e.1 e.2 = .ok id)
      (payloadOutputs p).zipIdx ids) : ids.Nodup := by
  have hmap : ids = (payloadOutputs p).zipIdx.map
      fun e => C.cnFastHash (outputIdBytes C net car e.1 e.2) := by
    have hflip : List.Forall₂ (fun id e =>
        id = C.cnFastHash (outputIdBytes C net car e.1 e.2)) ids (payloadOutputs p).zipIdx :=
      List.Forall₂.flip (hids.imp fun e id h => deriveAssetOutputId_hash h)
    rw [← forall₂_eq_eq_eq, forall₂_map_right_iff]
    exact hflip
  have hidx : ((payloadOutputs p).zipIdx.map Prod.snd).Nodup := by
    rw [zipIdx_map_snd]
    exact nodup_range'
  have hsmall : ∀ e ∈ (payloadOutputs p).zipIdx, e.2 < 2 ^ 32 := by
    intro e he
    have hget := mem_zipIdx_iff_getElem?.mp he
    have hlt := (List.getElem?_eq_some_iff.mp hget).1
    omega
  rw [hmap]
  refine List.Nodup.map_on ?_ (List.Nodup.of_map _ hidx)
  intro a ha b hb hab
  have hbs := hfree ⟨a, ha, rfl⟩ ⟨b, hb, rfl⟩ hab
  have hab' := outputIdBytes_index (hsmall a ha) (hsmall b hb) hbs
  exact inj_on_of_nodup_map hidx ha hb hab'

theorem rows_fresh {C : Crypto K} {t : AssetTables K} {p : AssetTransactionPayload K}
    {net : NetworkType} {car : Hash} {height : ℕ} {issued : Option (Hash × List UInt8)}
    {ids : List Hash} (hfree : OutputIdsCollisionFree C p net car)
    (h : prepareAssetTransaction C t p net car height = .ok (issued, ids)) :
    t.records.Fresh (recordRows height issued) ∧ t.keyImages.Fresh (keyImageRows p height) ∧
      t.outputs.Fresh (outputRows p height ids) := by
  obtain ⟨reg, hchk, hiss, hids⟩ := (prepare_eq_ok ..).mp h
  obtain ⟨hshape, -, -, -, _, -, howned⟩ := verifyPayload_facts C p hchk.payload
  rw [candidateIds_eq_ok] at hids
  refine ⟨?_, ?_, ?_⟩
  · rcases (prepareIssuance_eq_ok ..).mp hiss with ⟨-, rfl⟩ | ⟨i, r, id, enc, -, happly, -,
      rfl⟩
    · simp [Table.Fresh, recordRows]
    · have hnew := (Registry.applyIssuance_eq_ok.mp happly).2.1
      rw [load_contains hchk.loaded] at hnew
      simp [Table.Fresh, recordRows, hnew]
  · constructor
    · intro r hr
      obtain ⟨pf, hpf, rfl⟩ := mem_map.mp hr
      have hverified := hchk.owned pf hpf
      simp only [verifyAssetOwnershipAgainstDb, bind_eq_ok, failIf_eq_ok, exists_unit,
        Bool.not_eq_true] at hverified
      exact hverified.1
    · rw [keyImageRows, map_map]
      exact howned.keyImages_nodup
  · have hkeys := outputRows_keys p height ids (by simpa using hids.length_eq.symm)
    constructor
    · intro r hr
      have hid : r.key ∈ ids := hkeys ▸ mem_map.mpr ⟨r, hr, rfl⟩
      obtain ⟨_, -, -, hnew⟩ := (forall₂_partner hids).2 r.key hid
      exact hnew
    · rw [hkeys]
      have hlen := (shape_facts hshape).2.2
      exact derived_ids_nodup hfree (lt_of_le_of_lt hlen (by decide)) (hids.imp fun _ _ h => h.1)

theorem apply_of_prepare (C : Crypto K) (t : AssetTables K) (p : AssetTransactionPayload K)
    (net : NetworkType) (car : Hash) (height : ℕ) (issued : Option (Hash × List UInt8))
    (ids : List Hash) (hfree : OutputIdsCollisionFree C p net car)
    (h : prepareAssetTransaction C t p net car height = .ok (issued, ids)) :
    ∃ t', applyAssetTransactionToDb C t p net car height = (.ok ids, t') := by
  have hfresh := rows_fresh hfree h
  obtain ⟨records, hrec⟩ := t.records.exists_append_of_fresh _ hfresh.1
  obtain ⟨kis, hki⟩ := t.keyImages.exists_append_of_fresh _ hfresh.2.1
  obtain ⟨outs, hout⟩ := t.outputs.exists_append_of_fresh _ hfresh.2.2
  exact ⟨⟨records, outs, kis⟩, apply_eq_ok.mpr ⟨issued, h, hfresh, hrec, hki, hout⟩⟩

/-- Validation at the height of the chain passes exactly when the checks of an application
at that height do, for a payload whose issuance encodes. -/
theorem verify_iff_prepare {C : Crypto K} (db : BlockchainDb B K) {p : AssetTransactionPayload K}
    (net : NetworkType) (car : Hash)
    (hencodes : ∀ i, p.issuance = some i → ∃ bytes, encodeIssuancePayload C i = .ok bytes) :
    verifyAssetTransactionAgainstDb C db p net car = .ok () ↔
      ∃ issued ids, prepareAssetTransaction C db.assets p net car db.height =
        .ok (issued, ids) := by
  rw [verify_eq_ok]
  simp only [prepare_eq_ok, prepareIssuance_eq_ok]
  constructor
  · rintro ⟨reg, hchk, hissuance, ids, hids⟩
    cases hi : p.issuance with
    | none => exact ⟨none, ids, reg, hchk, Or.inl ⟨rfl, rfl⟩, hids⟩
    | some i =>
      obtain ⟨⟨r, id⟩, happly⟩ := hissuance i hi
      obtain ⟨enc, henc⟩ := hencodes i hi
      exact ⟨some (id, enc), ids, reg, hchk, Or.inr ⟨i, r, id, enc, rfl, happly, henc, rfl⟩, hids⟩
  · rintro ⟨issued, ids, reg, hchk, hiss, hids⟩
    refine ⟨reg, hchk, ?_, ids, hids⟩
    intro i hi
    rcases hiss with ⟨hnone, -⟩ | ⟨j, r, id, enc, hj, happly, -, -⟩
    · rw [hi] at hnone
      cases hnone
    · have hij : i = j := by simpa using hi.symm.trans hj
      subst hij
      exact ⟨(r, id), happly⟩

/-- A call of `verify_asset_transaction_against_db` as a step on the tables. It takes the
database by constant reference and only reads it. -/
def verifyCall (C : Crypto K) (db : BlockchainDb B K) (p : AssetTransactionPayload K)
    (network : NetworkType) (carrier : Hash) : Except Failure Unit × AssetTables K :=
  ((verifyAssetTransactionAgainstDb C db p network carrier).mapError .rejected, db.assets)

/-- For every database, decoded payload, network and carrier: the pool's validation succeeds
exactly when the application at the chain's height does, and neither a validation nor a
failed application changes the tables. -/
theorem verify_iff_apply (C : Crypto Key) (db : BlockchainDb B Key) (encoded : List UInt8)
    (p : AssetTransactionPayload Key) (network : NetworkType) (carrier : Hash)
    (hdecode : decodeAssetTransactionPayload C encoded = .ok p)
    (hfree : OutputIdsCollisionFree C p network carrier) :
    (verifyAssetTransactionAgainstDb C db p network carrier = .ok () ↔
      ∃ ids t', applyAssetTransactionToDb C db.assets p network carrier db.height =
        (.ok ids, t')) ∧
      (verifyCall C db p network carrier).2 = db.assets ∧
      ∀ e t', applyAssetTransactionToDb C db.assets p network carrier db.height =
        (.error e, t') → t' = db.assets := by
  obtain ⟨-, hencodes⟩ := decoded_facts hdecode
  refine ⟨?_, rfl, ?_⟩
  · rw [verify_iff_prepare db network carrier hencodes]
    constructor
    · rintro ⟨issued, ids, hprep⟩
      exact ⟨ids, apply_of_prepare C db.assets p network carrier db.height issued ids hfree hprep⟩
    · rintro ⟨ids, t', happ⟩
      obtain ⟨issued, hprep, -⟩ := apply_eq_ok.mp happ
      exact ⟨issued, ids, hprep⟩
  · intro e t' happ
    cases hprep : prepareAssetTransaction C db.assets p network carrier db.height with
    | error message =>
      simp only [applyAssetTransactionToDb, hprep, Prod.mk.injEq] at happ
      exact happ.2.symm
    | ok prepared =>
      obtain ⟨t'', hok⟩ := apply_of_prepare C db.assets p network carrier db.height prepared.1
        prepared.2 hfree hprep
      rw [hok] at happ
      cases happ

/-- The tables of a chain whose only block has issued a collection. -/
def collectionDb : BlockchainDb Unit Key where
  blocks := [()]
  assets := (applyAssetTransactionToDb toy .empty (issue .mainnet (keyOfNat 10) sampleCollection 20)
    .mainnet (keyOfNat 10) 0).2

/-- The issuance of a member of the collection, with two outputs. -/
def sampleTransaction : AssetTransactionPayload Key :=
  issueTo .mainnet (keyOfNat 11) (sampleMember 0) [21, 22]

def sampleBytes : List UInt8 :=
  ((encodeAssetTransactionPayload toy sampleTransaction).toOption).getD []

/-- The issuance, decoded from its wire bytes, is accepted by the pool and by the next block. -/
theorem verify_iff_apply_sample : collectionDb.assets.outputs.rows.length = 1 ∧
    ∃ ids t', applyAssetTransactionToDb toy collectionDb.assets sampleTransaction .mainnet
      (keyOfNat 11) 1 = (.ok ids, t') := by
  have hinj : ∀ e ∈ (payloadOutputs sampleTransaction).zipIdx,
      ∀ e' ∈ (payloadOutputs sampleTransaction).zipIdx,
      toy.cnFastHash (outputIdBytes toy .mainnet (keyOfNat 11) e.1 e.2) =
        toy.cnFastHash (outputIdBytes toy .mainnet (keyOfNat 11) e'.1 e'.2) → e = e' := by
    decide +kernel
  have hfree : OutputIdsCollisionFree toy sampleTransaction .mainnet (keyOfNat 11) := by
    rintro _ ⟨e, he, rfl⟩ _ ⟨e', he', rfl⟩ heq
    rw [hinj e he e' he' heq]
  exact ⟨by decide +kernel, (verify_iff_apply toy collectionDb sampleBytes sampleTransaction
    .mainnet (keyOfNat 11) (by decide +kernel) hfree).1.mp (by decide +kernel)⟩

end Monzero.PoolBlockAgreement
