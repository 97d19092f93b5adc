import Monzero.RegistryCalls

/-!
Restoring a snapshot record by record. A turn of the decoder reads the bytes of one record,
checks that it comes after the previous one and registers it. The order of a snapshot
puts a collection before its members: it was registered no later than they were, and at
one height collections come first. So a restoration that follows the order in which a
registry was encoded finds every collection in time.
-/
namespace Monzero.SnapshotReplay

open Bytes Checked Codec Primitives IssuanceCodec AssetRegistry ComparatorSort RegistrySnapshot List
  RegistryCalls

variable {K : Type}

/-- What the records of a snapshot are ordered by. -/
def Position.key (p : Position) : ℕ ×ₗ ℕ ×ₗ List ℕ :=
  toLex (p.height, toLex (p.priority, digits p.id))

def positionOf (e : Entry) : Position where
  height := e.2.issuanceHeight
  priority := snapshotClassPriority e.2.descriptor.type
  id := e.1

def snapshotKey (e : Entry) : ℕ ×ₗ ℕ ×ₗ List ℕ := Position.key (positionOf e)

theorem Position.key_lt_iff (p q : Position) :
    Position.key p < Position.key q ↔ p.height < q.height ∨ p.height = q.height ∧
      (p.priority < q.priority ∨ p.priority = q.priority ∧
        memcmpLt p.id.bytes q.id.bytes = true) := by
  rw [memcmpLt_iff, Position.key, Position.key, Prod.Lex.lt_iff, Prod.Lex.lt_iff]
  rfl

theorem snapshotBefore_comparesBy : ComparesBy snapshotBefore snapshotKey := by
  intro a b
  rw [snapshotKey, snapshotKey, Position.key_lt_iff]
  simp only [snapshotBefore, positionOf]
  split
  · rename_i hht
    simp [hht]
  · rename_i hht
    rw [not_not] at hht
    split
    · rename_i hpriority
      simp [hht, hpriority]
    · rename_i hpriority
      rw [not_not] at hpriority
      simp [hht, hpriority]

/-- The decoder accepts a record exactly when its position is above the previous one. -/
theorem outOfOrder_eq_false_iff (previous : Option Position) (p : Position) :
    outOfOrder previous p.height p.priority p.id = false ↔
      ∀ q, previous = some q → Position.key q < Position.key p := by
  cases previous with
  | none => simp [outOfOrder]
  | some q =>
    simp only [Option.some.injEq, forall_eq', Position.key_lt_iff, outOfOrder]
    rw [decide_eq_false_iff_not]
    cases memcmpLt q.id.bytes p.id.bytes <;> simp <;> omega

theorem payloadOf_recordOf {p : IssuancePayload} (height : ℕ)
    (h : p.version = issuancePayloadVersion) : payloadOf (recordOf p height) = p := by
  cases p
  cases h
  rfl

variable (C : Crypto K) (net : NetworkType) (r : Registry) (e : Entry)

theorem recordBytes_eq_ok {bytes : List UInt8} :
    recordBytes C e = .ok bytes ↔ ∃ pl, encodeIssuancePayload C (payloadOf e.2) = .ok pl ∧
      pl.length ≤ 65535 ∧ bytes = leBytes 8 e.2.issuanceHeight ++ (leBytes 2 pl.length ++ pl) := by
  simp only [recordBytes, bind_eq_ok, failIf_eq_ok, pure_eq_ok, exists_unit, not_lt]
  constructor
  · rintro ⟨pl, henc, hsize, rfl⟩
    exact ⟨pl, henc, hsize, rfl⟩
  · rintro ⟨pl, henc, hsize, rfl⟩
    exact ⟨pl, henc, hsize, rfl⟩

/-- One turn of the decoder reads the bytes of one record, which comes after the previous
one, and registers it. -/
structure Restores (C : Crypto K) (network : NetworkType) (s : Restoring) (e : Entry)
    (bytes : List UInt8) (t : Restoring) : Prop where
  written : recordBytes C e = .ok bytes
  height_lt : e.2.issuanceHeight < 256 ^ 8
  read : s.rest = bytes ++ t.rest
  network_eq : e.2.descriptor.network = network
  above : ∀ p, s.previous = some p → Position.key p < snapshotKey e
  applied : s.restored.applyIssuance C (payloadOf e.2) e.2.issuanceHeight = .ok (t.restored, e.1)
  previous_eq : t.previous = some (positionOf e)

private theorem restores_of_restoreRecord (s t : Restoring) (h : restoreRecord C net s = .ok t) :
    ∃ e bytes, Restores C net s e bytes t := by
  simp only [restoreRecord, bind_eq_ok, failIf_eq_ok, pure_eq_ok, exists_unit, Prod.exists,
    readUInt_eq_ok_iff, not_not, not_lt, ne_eq, Bool.not_eq_true] at h
  obtain ⟨height, _, ⟨hht, hrest⟩, size, rest, ⟨hsize, rfl⟩, hroom, p, hdec, hnet, id,
    hder, horder, r', id', happly, rfl⟩ := h
  have henc := encode_of_decode_payload C p _ hdec
  obtain ⟨_, hver, -⟩ := (encodeIssuancePayload_eq_ok C p _).mp henc
  have hpay := payloadOf_recordOf height hver
  obtain ⟨hder', -⟩ := Registry.applyIssuance_eq_ok.mp happly
  obtain rfl : id = id' := by simpa using hder.symm.trans hder'
  have hlen : (rest.take size).length = size := by
    rw [length_take]
    omega
  refine ⟨(id, recordOf p height),
    leBytes 8 height ++ (leBytes 2 (rest.take size).length ++ rest.take size), ?_⟩
  exact {
    written := by
      rw [recordBytes_eq_ok, hpay]
      exact ⟨rest.take size, henc, by omega, rfl⟩
    height_lt := hht
    read := by
      rw [hrest, hlen]
      simp
    network_eq := hnet
    above := (outOfOrder_eq_false_iff s.previous (positionOf (id, recordOf p height))).mp horder
    applied := by
      rw [hpay]
      exact happly
    previous_eq := rfl }

theorem restoreRecord_eq_ok (s t : Restoring) :
    restoreRecord C net s = .ok t ↔ ∃ e bytes, Restores C net s e bytes t := by
  refine ⟨restores_of_restoreRecord C net s t, ?_⟩
  rintro ⟨e, _, h⟩
  obtain ⟨pl, henc, hsize, rfl⟩ := (recordBytes_eq_ok C e).mp h.written
  obtain ⟨hder, -⟩ := Registry.applyIssuance_eq_ok.mp h.applied
  simp only [restoreRecord, bind_eq_ok, failIf_eq_ok, pure_eq_ok, exists_unit, Prod.exists,
    readUInt_eq_ok_iff, not_not, not_lt, ne_eq, Bool.not_eq_true]
  refine ⟨e.2.issuanceHeight, _, ⟨h.height_lt, by rw [h.read, append_assoc]⟩,
    pl.length, pl ++ t.rest, ⟨by omega, append_assoc ..⟩, by simp, payloadOf e.2, ?_,
    h.network_eq, e.1, hder, ?_, t.restored, e.1, h.applied, ?_⟩
  · rw [take_left]
    exact decode_encode_payload C _ _ henc
  · exact (outOfOrder_eq_false_iff s.previous (positionOf e)).mpr h.above
  · rw [drop_left]
    cases t
    cases h.previous_eq
    rfl

theorem sound_written (h : Sound C r e) : ∃ bytes, recordBytes C e = .ok bytes := by
  obtain ⟨hvalid, -⟩ := (deriveAssetId_eq_ok C e.2.descriptor e.1).mp h.derived
  have hdesc := (encodeIssuanceDescriptor_eq_ok C e.2.descriptor _).mpr ⟨hvalid, rfl⟩
  have hsize := descriptor_length_le C e.2.descriptor _ hdesc
  have hclaims : claimsCollection e.2.descriptor = e.2.collectionSignature.isSome := by
    cases hc : claimsCollection e.2.descriptor with
    | false => rw [h.unclaimed hc, Option.isSome_none]
    | true =>
      obtain ⟨_, -, hadmits⟩ := h.member hc
      obtain ⟨sig, hsig, -⟩ := hadmits.signed
      have hsome : e.2.collectionSignature = some sig := hsig
      rw [hsome, Option.isSome_some]
  have henc := (encodeIssuancePayload_eq_ok C (payloadOf e.2) _).mpr
    ⟨_, rfl, hdesc, by omega, h.authorized, hclaims, rfl⟩
  have hlen := payload_length_le C _ _ henc
  exact ⟨_, (recordBytes_eq_ok C e).mpr ⟨_, henc, by omega, rfl⟩⟩

theorem collection_before_member (h : Sound C r e) {coll : AssetRecord}
    (hclaims : claimsCollection e.2.descriptor = true)
    (hadmits : Registry.Admits C coll (payloadOf e.2) e.1 e.2.issuanceHeight) :
    snapshotBefore (e.2.descriptor.collectionId, coll) e = true := by
  obtain ⟨hvalid, -⟩ := (deriveAssetId_eq_ok C e.2.descriptor e.1).mp h.derived
  have hmem : e.2.descriptor.type ≠ .collection :=
    member_not_collection C e.2.descriptor hvalid (by simpa [claimsCollection] using hclaims)
  have hht := hadmits.height_le
  rw [snapshotBefore_comparesBy, snapshotKey, snapshotKey, Position.key_lt_iff]
  simp only [positionOf, snapshotClassPriority, hadmits.type_eq, hmem, if_true, if_false]
  omega

/-- The state of a restoration that follows the order in which a registry was encoded. -/
structure Replaying (C : Crypto K) (r : Registry) (entries : List Entry) (s : Restoring) :
    Prop where
  split : sortBy snapshotBefore r.records = s.restored.records ++ entries
  previous_mem : ∀ p, s.previous = some p → ∃ e ∈ s.restored.records, p = positionOf e
  written : ∃ parts, List.Forall₂ (fun e bytes => recordBytes C e = .ok bytes) entries parts ∧
    s.rest = parts.flatten

theorem snapshotKey_nodup : (r.records.map snapshotKey).Nodup := by
  have hids : (r.records.map (digits ∘ Prod.fst)).Nodup := by
    rw [← map_map]
    exact r.ids_nodup.map fun a b hab => digits_injective hab
  rw [List.Nodup, pairwise_map] at hids ⊢
  refine hids.imp ?_
  intro a b hne heq
  exact hne (Prod.mk.inj (toLex.injective (Prod.mk.inj (toLex.injective heq)).2)).2

theorem replay_step (es : List Entry) (s : Restoring) (hsound : AllSound C r)
    (hht : ∀ e ∈ r.records, e.2.issuanceHeight < 2 ^ 64)
    (hnet : ∀ e ∈ r.records, e.2.descriptor.network = net) (h : Replaying C r (e :: es) s) :
    ∃ t, restoreRecord C net s = .ok t ∧ Replaying C r es t := by
  have hsplit := h.split
  have hmem : ∀ e', e' ∈ r.records ↔ e' ∈ s.restored.records ++ e :: es := by
    intro e'
    rw [← hsplit]
    exact (sortBy_perm _ _).mem_iff.symm
  have he : e ∈ r.records := (hmem e).mpr (by simp)
  have hstrict := sortBy_strict snapshotBefore_comparesBy (snapshotKey_nodup r)
  rw [hsplit, pairwise_append] at hstrict
  have hnew : s.restored.contains e.1 = false := by
    have hids := ((sortBy_perm snapshotBefore r.records).map Prod.fst).nodup_iff.mpr r.ids_nodup
    rw [hsplit, map_append, nodup_append] at hids
    rw [Registry.not_contains_iff]
    intro hold
    exact hids.2.2 e.1 hold e.1 (by simp) rfl
  have hrestored : Sound C s.restored e := by
    refine (hsound e he).mono ?_
    intro coll hfind hclaims hadmits
    rw [Registry.find_eq_some_iff] at hfind ⊢
    exact mem_front_of_before snapshotBefore_comparesBy hsplit hfind
      (collection_before_member C r e (hsound e he) hclaims hadmits)
  obtain ⟨parts, hparts, hrest⟩ := h.written
  obtain ⟨bytes, tail, hbs, htail, rfl⟩ := forall₂_cons_left_iff.mp hparts
  refine ⟨{ restored := s.restored.emplace e.1 e.2, previous := some (positionOf e),
            rest := tail.flatten }, ?_, ?_⟩
  · rw [restoreRecord_eq_ok]
    refine ⟨e, bytes, ⟨hbs, by have := hht e he; omega, hrest, hnet e he, ?_,
      apply_of_sound C _ hrestored hnew, rfl⟩⟩
    intro p hp
    obtain ⟨e', he', rfl⟩ := h.previous_mem p hp
    exact hstrict.2.2 e' he' e (by simp)
  · have hrecs := Registry.records_emplace s.restored e.1 e.2 hnew
    refine ⟨?_, ?_, tail, htail, rfl⟩
    · rw [hrecs, hsplit, append_assoc, singleton_append]
    · intro p hp
      refine ⟨e, ?_, (Option.some.inj hp).symm⟩
      rw [hrecs]
      simp

theorem replay_run (es : List Entry) (s : Restoring) (idxs : List ℕ) (hsound : AllSound C r)
    (hht : ∀ e ∈ r.records, e.2.issuanceHeight < 2 ^ 64)
    (hnet : ∀ e ∈ r.records, e.2.descriptor.network = net) (h : Replaying C r es s)
    (hcnt : idxs.length = es.length) :
    ∃ t, loop (fun s _ => restoreRecord C net s) idxs s = .ok t ∧ Replaying C r [] t := by
  induction es generalizing s idxs with
  | nil =>
    rw [length_nil, length_eq_zero_iff] at hcnt
    rw [hcnt]
    exact ⟨s, rfl, h⟩
  | cons e es ih =>
    cases idxs with
    | nil => cases hcnt
    | cons i idxs =>
      obtain ⟨next, hstep, hnext⟩ :=
        replay_step C net r e es s hsound hht hnet h
      obtain ⟨t, hloop, ht⟩ := ih next idxs hnext (by simpa using hcnt)
      exact ⟨t, loop_cons_eq_ok.mpr ⟨next, hstep, hloop⟩, ht⟩

end Monzero.SnapshotReplay
