import Monzero.AssetDb
import Monzero.OwnershipMatching

/-!
What one application of an asset transaction does. The checks decide the rows:
the issuance record, one key image per ownership proof and one output per payload
output, all at the given height. The call succeeds exactly when the checks pass
and the rows are new, and then appends them to the three tables.
-/
namespace Monzero.AssetApplication

open Checked IndexedTable Primitives IssuanceCodec AssetRegistry AssetConfidential AssetWire
  AssetDb OwnershipMatching

variable {B K : Type} [DecidableEq K]

structure Appended (t t' : AssetTables K) (records : List (Row Hash (List UInt8)))
    (keyImages : List (Row K Unit)) (outputs : List (Row Hash (AssetOutputData K))) : Prop where
  records : t'.records.rows = t.records.rows ++ records
  keyImages : t'.keyImages.rows = t.keyImages.rows ++ keyImages
  outputs : t'.outputs.rows = t.outputs.rows ++ outputs

private theorem loop_record (rows : List (Row Hash (List UInt8))) (t : AssetTables K) :
    loop writeAsset (rows.map .record) t =
      (loop (fun u r => u.add r "Attempting to add an asset record that already exists") rows
        t.records >>= fun records => pure { t with records }) :=
  loop_component writeAsset _ (fun records => { t with records }) .record (fun _ _ => rfl) rows
    t.records

private theorem loop_keyImage (rows : List (Row K Unit)) (t : AssetTables K) :
    loop writeAsset (rows.map .keyImage) t =
      (loop (fun u r => u.add r "Attempting to spend an asset key image that already exists") rows
        t.keyImages >>= fun keyImages => pure { t with keyImages }) :=
  loop_component writeAsset _ (fun keyImages => { t with keyImages }) .keyImage (fun _ _ => rfl)
    rows t.keyImages

private theorem loop_output (rows : List (Row Hash (AssetOutputData K))) (t : AssetTables K) :
    loop writeAsset (rows.map .output) t =
      (loop (fun u r => u.add r "Attempting to add an asset output that already exists") rows
        t.outputs >>= fun outputs => pure { t with outputs }) :=
  loop_component writeAsset _ (fun outputs => { t with outputs }) .output (fun _ _ => rfl) rows
    t.outputs

variable (C : Crypto K) (t : AssetTables K) (p : AssetTransactionPayload K) (net : NetworkType)
  (car : Hash) (height : ℕ)

theorem loop_assetWrites (issued : Option (Hash × List UInt8)) (ids : List Hash)
    (t t' : AssetTables K) : loop writeAsset (assetWrites p height issued ids) t = .ok t' ↔
      (t.records.Fresh (recordRows height issued) ∧ t.keyImages.Fresh (keyImageRows p height) ∧
        t.outputs.Fresh (outputRows p height ids)) ∧
      Appended t t' (recordRows height issued) (keyImageRows p height)
        (outputRows p height ids) := by
  simp only [assetWrites, loop_append, loop_record, loop_keyImage, loop_output, bind_eq_ok,
    pure_eq_ok, Table.loop_add_eq_ok]
  constructor
  · rintro ⟨_, ⟨records, ⟨hrecFresh, hrec⟩, rfl⟩, _, ⟨keyImages, ⟨hkiFresh, hki⟩, rfl⟩, outputs,
      ⟨houtFresh, hout⟩, rfl⟩
    exact ⟨⟨hrecFresh, hkiFresh, houtFresh⟩, hrec, hki, hout⟩
  · rintro ⟨⟨hrecFresh, hkiFresh, houtFresh⟩, hrec, hki, hout⟩
    exact ⟨_, ⟨t'.records, ⟨hrecFresh, hrec⟩, rfl⟩, _, ⟨t'.keyImages, ⟨hkiFresh, hki⟩, rfl⟩,
      t'.outputs, ⟨houtFresh, hout⟩, rfl⟩

theorem apply_eq_ok {C : Crypto K} {t t' : AssetTables K} {p : AssetTransactionPayload K}
    {net : NetworkType} {car : Hash} {height : ℕ} {ids : List Hash} :
    applyAssetTransactionToDb C t p net car height = (.ok ids, t') ↔
      ∃ issued, prepareAssetTransaction C t p net car height = .ok (issued, ids) ∧
        (t.records.Fresh (recordRows height issued) ∧ t.keyImages.Fresh (keyImageRows p height) ∧
          t.outputs.Fresh (outputRows p height ids)) ∧
        Appended t t' (recordRows height issued) (keyImageRows p height)
          (outputRows p height ids) := by
  unfold applyAssetTransactionToDb
  cases hprep : prepareAssetTransaction C t p net car height with
  | error message => simp
  | ok prepared =>
    obtain ⟨issued, ids'⟩ := prepared
    simp only [Except.ok.injEq, Prod.mk.injEq]
    cases hperf : performAll writeAsset (assetWrites p height issued ids') t with
    | mk res t'' =>
      cases res with
      | error message =>
        simp only [Prod.mk.injEq, reduceCtorEq, false_and, false_iff, not_exists, not_and]
        rintro issued' ⟨rfl, rfl⟩ hfresh happ
        have hok := (performAll_eq_ok _ ()).mpr
          ((loop_assetWrites p height issued ids' t t').mpr ⟨hfresh, happ⟩)
        rw [hperf] at hok
        cases hok
      | ok u =>
        have hok := (loop_assetWrites p height issued ids' t t'').mp
          ((performAll_eq_ok _ _).mp hperf)
        simp only [Prod.mk.injEq, Except.ok.injEq]
        constructor
        · rintro ⟨rfl, rfl⟩
          exact ⟨issued, ⟨rfl, rfl⟩, hok⟩
        · rintro ⟨issued', ⟨rfl, rfl⟩, -, happ⟩
          refine ⟨rfl, AssetTables.ext ?_ ?_ ?_⟩ <;> apply Table.eq_of_rows_eq
          · rw [hok.2.records, happ.records]
          · rw [hok.2.outputs, happ.outputs]
          · rw [hok.2.keyImages, happ.keyImages]

theorem apply_rejected (t t' : AssetTables K) (p : AssetTransactionPayload K) (net : NetworkType)
    (car : Hash) (height : ℕ) (msg : String) (h : applyAssetTransactionToDb C t p net car height =
      (.error (.rejected msg), t')) :
    t' = t ∧ prepareAssetTransaction C t p net car height = .error msg := by
  unfold applyAssetTransactionToDb at h
  split at h
  · rename_i e hprep
    simp only [Prod.mk.injEq, Except.error.injEq, Failure.rejected.injEq] at h
    exact ⟨h.2.symm, h.1 ▸ hprep⟩
  · split at h <;> simp at h

omit [DecidableEq K] in
theorem prepareIssuance_eq_ok (reg : Registry) (height : ℕ) (iss : Option IssuancePayload)
    (issued : Option (Hash × List UInt8)) : prepareIssuance C reg height iss = .ok issued ↔
      (iss = none ∧ issued = none) ∨
      ∃ i r id enc, iss = some i ∧ reg.applyIssuance C i height = .ok (r, id) ∧
        encodeIssuancePayload C i = .ok enc ∧ issued = some (id, enc) := by
  cases iss with
  | none => simp [prepareIssuance, eq_comm]
  | some i =>
    simp only [prepareIssuance, bind_eq_ok, pure_eq_ok, reduceCtorEq, false_and, false_or,
      Option.some.injEq]
    constructor
    · rintro ⟨⟨r, id⟩, happly, enc, henc, rfl⟩
      exact ⟨i, r, id, enc, rfl, happly, henc, rfl⟩
    · rintro ⟨_, r, id, enc, rfl, happly, henc, rfl⟩
      exact ⟨(r, id), happly, enc, henc, rfl⟩

omit [DecidableEq K] in
theorem checkIssuanceAgainst_eq_ok (reg : Registry) (height : ℕ)
    (iss : Option IssuancePayload) (u : Unit) : checkIssuanceAgainst C reg height iss = .ok u ↔
      ∀ i, iss = some i → ∃ r, reg.applyIssuance C i height = .ok r := by
  cases iss with
  | none => simp [checkIssuanceAgainst]
  | some i =>
    simp only [checkIssuanceAgainst, bind_eq_ok, pure_eq_ok, and_true, Option.some.injEq,
      forall_eq']

/-- The checks the pool and a block share, on a registry already loaded. -/
structure Checks (C : Crypto K) (t : AssetTables K) (p : AssetTransactionPayload K)
    (network : NetworkType) (carrier : Hash) (registry : Registry) : Prop where
  loaded : loadRegistryFromDb C t network = .ok registry
  payload : verifyAssetTransactionPayload C p registry.knownAssets network carrier = .ok ()
  owned : ∀ proof ∈ p.ownershipProofs,
    verifyAssetOwnershipAgainstDb C t proof network carrier = .ok ()

theorem prepare_eq_ok (issued : Option (Hash × List UInt8)) (ids : List Hash) :
    prepareAssetTransaction C t p net car height = .ok (issued, ids) ↔
      ∃ reg, Checks C t p net car reg ∧ prepareIssuance C reg height p.issuance = .ok issued ∧
        candidateIds C t p net car = .ok ids := by
  simp only [prepareAssetTransaction, bind_eq_ok, pure_eq_ok, exists_unit, checkAll_eq_ok,
    Prod.mk.injEq]
  constructor
  · rintro ⟨reg, hload, hpay, howned, _, hiss, _, hids, rfl, rfl⟩
    exact ⟨reg, ⟨hload, hpay, howned⟩, hiss, hids⟩
  · rintro ⟨reg, ⟨hload, hpay, howned⟩, hiss, hids⟩
    exact ⟨reg, hload, hpay, howned, issued, hiss, ids, hids, rfl, rfl⟩

theorem verify_eq_ok (db : BlockchainDb B K) (p : AssetTransactionPayload K) (net : NetworkType)
    (car : Hash) (u : Unit) : verifyAssetTransactionAgainstDb C db p net car = .ok u ↔
      ∃ reg, Checks C db.assets p net car reg ∧
        (∀ i, p.issuance = some i → ∃ r, reg.applyIssuance C i db.height = .ok r) ∧
        ∃ ids, candidateIds C db.assets p net car = .ok ids := by
  simp only [verifyAssetTransactionAgainstDb, bind_eq_ok, pure_eq_ok, exists_unit,
    checkAll_eq_ok, checkIssuanceAgainst_eq_ok, and_true]
  constructor
  · rintro ⟨reg, hload, hpay, howned, hiss, hids⟩
    exact ⟨reg, ⟨hload, hpay, howned⟩, hiss, hids⟩
  · rintro ⟨reg, ⟨hload, hpay, howned⟩, hiss, hids⟩
    exact ⟨reg, hload, hpay, howned, hiss, hids⟩

omit [DecidableEq K] in
theorem candidateId_eq_ok (out : PayloadOutput K × ℕ) (id : Hash) :
    candidateId C t net car out = .ok id ↔ deriveAssetOutputId C net car out.1 out.2 = .ok id ∧
        t.outputs.contains id = false := by
  simp only [candidateId, bind_eq_ok, failIf_eq_ok, pure_eq_ok, exists_unit, Bool.not_eq_true]
  constructor
  · rintro ⟨_, hder, hnew, rfl⟩
    exact ⟨hder, hnew⟩
  · rintro ⟨hder, hnew⟩
    exact ⟨id, hder, hnew, rfl⟩

omit [DecidableEq K] in
theorem candidateIds_eq_ok (ids : List Hash) : candidateIds C t p net car = .ok ids ↔
      List.Forall₂ (fun out id => deriveAssetOutputId C net car out.1 out.2 =
        .ok id ∧ t.outputs.contains id = false) (payloadOutputs p).zipIdx ids := by
  rw [candidateIds, mapAll_eq_ok]
  simp [candidateId_eq_ok]

theorem verifyPayload_facts {known : List Hash} {net : NetworkType} {car : Hash} {u : Unit}
    (h : verifyAssetTransactionPayload C p known net car = .ok u) :
    validateAssetTransactionPayloadShape p = .ok () ∧ p.network = net ∧ p.carrierPrefixHash = car ∧
      verifyConfidentialAssetTransaction C p.balances known
        (p.issuance.map IssuancePayload.descriptor) = .ok () ∧
      ∃ iid, deriveIssuedId C (p.issuance.map IssuancePayload.descriptor) = .ok iid ∧
        Owned C (inputsToProve iid p.balances) p.ownershipProofs net car := by
  simp only [verifyAssetTransactionPayload, bind_eq_ok, failIf_eq_ok, exists_unit, not_not,
    ne_eq] at h
  obtain ⟨hshape, hnet, hcar, -, -, howned⟩ := h
  exact ⟨hshape, hnet, hcar, verifyWithOwnership_owned C howned⟩

omit [DecidableEq K] in
theorem outputRows_keys (ids : List Hash) (h : ids.length = (payloadOutputs p).length) :
    (outputRows p height ids).map Row.key = ids := by
  rw [outputRows, List.map_map]
  change (ids.zip (payloadOutputs p).zipIdx).map Prod.fst = ids
  exact List.map_fst_zip (by simp [h])

end Monzero.AssetApplication
