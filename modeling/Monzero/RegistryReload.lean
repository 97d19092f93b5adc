import Monzero.AssetApplication
import Monzero.ComparatorSort

/-!
Rebuilding the registry from the stored issuances. The loader replays the records
sorted by height and then by id. A replay that succeeds yields exactly the stored
ids, each with its height and payload. It succeeds when every record finds its
collection among the records sorted before it.
-/
namespace Monzero.RegistryReload

open Bytes Checked IndexedTable Primitives AssetTypes IssuanceCodec AssetRegistry AssetDb List
  ComparatorSort

abbrev StoredRow := Row Hash (List UInt8)

theorem storedBefore_iff (a b : StoredRow) : storedBefore a b = true ↔
      a.height < b.height ∨ a.height = b.height ∧ memcmpLt a.key.bytes b.key.bytes = true := by
  unfold storedBefore
  split
  · rename_i hne
    simp only [decide_eq_true_eq]
    omega
  · rename_i heq
    simp only [ne_eq, not_not] at heq
    simp [heq]

/-- What the loader sorts by. -/
def storedKey (row : StoredRow) : ℕ ×ₗ List ℕ := toLex (row.height, digits row.key)

theorem storedBefore_comparesBy : ComparesBy storedBefore storedKey := by
  intro a b
  rw [storedBefore_iff, storedKey, storedKey, Prod.Lex.lt_iff, memcmpLt_iff]
  rfl

theorem eq_of_not_storedBefore {a b : StoredRow} (hab : storedBefore a b = false)
    (hba : storedBefore b a = false) : a.height = b.height ∧ a.key = b.key := by
  have hkey : storedKey a = storedKey b := le_antisymm
    ((storedBefore_comparesBy.eq_false_iff b a).mp hba)
    ((storedBefore_comparesBy.eq_false_iff a b).mp hab)
  obtain ⟨hht, hid⟩ := Prod.mk.inj (toLex.injective hkey)
  exact ⟨hht, digits_injective hid⟩

theorem sortRecords_perm (rows : List StoredRow) : (sortRecords rows).Perm rows :=
  sortBy_perm storedBefore rows

theorem sortRecords_pairwise (rows : List StoredRow) :
    (sortRecords rows).Pairwise fun a b => storedBefore b a = false := by
  refine (sortBy_pairwise storedBefore_comparesBy rows).imp ?_
  intro a b hab
  exact (storedBefore_comparesBy.eq_false_iff b a).mpr hab

variable {K : Type}

/-- The registry entry a stored record becomes when it is replayed. -/
structure Replayed (C : Crypto K) (network : NetworkType) (row : StoredRow)
    (entry : Hash × AssetRecord) (p : IssuancePayload) : Prop where
  decoded : decodeIssuancePayload C row.value = .ok p
  network_eq : p.descriptor.network = network
  derived : deriveAssetId C p.descriptor = .ok row.key
  entry_eq : entry = (row.key, recordOf p row.height)

variable (C : Crypto K) (t : AssetTables K) (net : NetworkType) (r : Registry)

theorem replayRecord_eq_ok (r r' : Registry) (row : StoredRow) : replayRecord C net r row = .ok r' ↔
      ∃ p, decodeIssuancePayload C row.value = .ok p ∧ p.descriptor.network = net ∧
        r.applyIssuance C p row.height = .ok (r', row.key) := by
  simp only [replayRecord, bind_eq_ok, failIf_eq_ok, pure_eq_ok, exists_unit, not_not, ne_eq]
  constructor
  · rintro ⟨p, hdec, hnet, ⟨r'', derived⟩, happly, rfl, rfl⟩
    exact ⟨p, hdec, hnet, happly⟩
  · rintro ⟨p, hdec, hnet, happly⟩
    exact ⟨p, hdec, hnet, (r', row.key), happly, rfl, rfl⟩

theorem loop_replay_records (rows : List StoredRow) (r r' : Registry)
    (h : loop (replayRecord C net) rows r = .ok r') : ∃ added, r'.records = r.records ++ added ∧
      List.Forall₂ (fun row ent => ∃ p, Replayed C net row ent p) rows added := by
  induction rows generalizing r with
  | nil =>
    cases h
    exact ⟨[], by simp, List.Forall₂.nil⟩
  | cons row rest ih =>
    obtain ⟨next, hstep, hrest⟩ := loop_cons_eq_ok.mp h
    obtain ⟨p, hdec, hnet, happly⟩ := (replayRecord_eq_ok ..).mp hstep
    obtain ⟨hder, -⟩ := Registry.applyIssuance_eq_ok.mp happly
    obtain ⟨added, hrecs, hall⟩ := ih _ hrest
    refine ⟨(row.key, recordOf p row.height) :: added, ?_,
      List.Forall₂.cons ⟨p, hdec, hnet, hder, rfl⟩ hall⟩
    rw [hrecs, Registry.records_of_apply C r next p row.height row.key happly,
      append_assoc, singleton_append]

theorem load_mem_iff (h : loadRegistryFromDb C t net = .ok r) (ent : Hash × AssetRecord) :
    ent ∈ r.records ↔ ∃ row ∈ t.records.rows, ∃ p, Replayed C net row ent p := by
  obtain ⟨added, hrecs, hall⟩ := loop_replay_records C net _ _ _ h
  have hadded : r.records = added := by simpa [Registry.empty] using hrecs
  rw [hadded]
  constructor
  · intro hent
    obtain ⟨row, hrow, hrep⟩ := (forall₂_partner hall).2 ent hent
    exact ⟨row, (sortRecords_perm _).mem_iff.mp hrow, hrep⟩
  · rintro ⟨row, hrow, p, hrep⟩
    obtain ⟨ent', hent', p', hrep'⟩ :=
      (forall₂_partner hall).1 row ((sortRecords_perm _).mem_iff.mpr hrow)
    have hp : p = p' := by
      have hdecoded := hrep.decoded.symm.trans hrep'.decoded
      simpa using hdecoded
    rw [hrep.entry_eq, hp, ← hrep'.entry_eq]
    exact hent'

variable {C t net r} in
theorem load_find_iff (h : loadRegistryFromDb C t net = .ok r) (id : Hash) (rcd : AssetRecord) :
    r.find id = some rcd ↔
      ∃ row ∈ t.records.rows, row.key = id ∧ ∃ p, decodeIssuancePayload C row.value = .ok p ∧
        p.descriptor.network = net ∧ rcd = recordOf p row.height := by
  rw [Registry.find_eq_some_iff, load_mem_iff C t net r h]
  constructor
  · rintro ⟨row, hrow, p, hrep⟩
    obtain ⟨hid, hrec⟩ := Prod.mk.inj hrep.entry_eq
    exact ⟨row, hrow, hid.symm, p, hrep.decoded, hrep.network_eq, hrec⟩
  · rintro ⟨row, hrow, rfl, p, hdec, hnet, rfl⟩
    obtain ⟨added, -, hall⟩ := loop_replay_records C net _ _ _ h
    obtain ⟨_, -, p', hrep⟩ :=
      (forall₂_partner hall).1 row ((sortRecords_perm _).mem_iff.mpr hrow)
    have hp : p = p' := by simpa using hdec.symm.trans hrep.decoded
    subst hp
    exact ⟨row, hrow, p, hdec, hnet, hrep.derived, rfl⟩

variable {C t net r} in
theorem load_contains (h : loadRegistryFromDb C t net = .ok r) (id : Hash) :
    r.contains id = t.records.contains id := by
  rw [Bool.eq_iff_iff, Registry.contains_iff, Table.contains_iff, Registry.knownAssets]
  constructor
  · intro hid
    obtain ⟨ent, hent, rfl⟩ := mem_map.mp hid
    obtain ⟨row, hrow, p, hrep⟩ := (load_mem_iff C t net r h ent).mp hent
    exact ⟨row, hrow, (congrArg Prod.fst hrep.entry_eq).symm⟩
  · rintro ⟨row, hrow, rfl⟩
    obtain ⟨added, -, hall⟩ := loop_replay_records C net _ _ _ h
    obtain ⟨ent, -, p, hrep⟩ :=
      (forall₂_partner hall).1 row ((sortRecords_perm _).mem_iff.mpr hrow)
    refine mem_map.mpr ⟨ent, (load_mem_iff C t net r h ent).mpr
      ⟨row, hrow, p, hrep⟩, congrArg Prod.fst hrep.entry_eq⟩

/-- A stored record can be replayed once the records in `earlier` have been: it is an
authorized issuance for this network, and its collection, if it names one, is among them. -/
structure WellIssued (C : Crypto K) (network : NetworkType) (earlier : List StoredRow)
    (row : StoredRow) (p : IssuancePayload) : Prop where
  decoded : decodeIssuancePayload C row.value = .ok p
  network_eq : p.descriptor.network = network
  derived : deriveAssetId C p.descriptor = .ok row.key
  collection : claimsCollection p.descriptor = true →
    ∃ c ∈ earlier, c.key = p.descriptor.collectionId ∧ ∃ pc,
      decodeIssuancePayload C c.value = .ok pc ∧
      Registry.Admits C (recordOf pc c.height) p row.key row.height

/-- Decoding re-encodes, and encoding checks the issuer's signature and that a collection
signature is there exactly when a collection is claimed. -/
theorem decoded_authorized {bytes : List UInt8} {p : IssuancePayload}
    (h : decodeIssuancePayload C bytes = .ok p) :
    verifyIssuanceAuthorization C p.descriptor p.issuerSignature = .ok () ∧
      claimsCollection p.descriptor = p.collectionSignature.isSome := by
  obtain ⟨_, -, -, -, hauth, hclaims, -⟩ :=
    (encodeIssuancePayload_eq_ok C p bytes).mp (encode_of_decode_payload C p bytes h)
  exact ⟨hauth, hclaims⟩

theorem replayRecord_of_wellIssued (earlier : List StoredRow) (row : StoredRow)
    (p : IssuancePayload) (hwell : WellIssued C net earlier row p)
    (hnew : r.contains row.key = false)
    (hearlier : ∀ c ∈ earlier, ∀ pc, decodeIssuancePayload C c.value = .ok pc →
      r.find c.key = some (recordOf pc c.height)) :
    ∃ r', replayRecord C net r row = .ok r' ∧
      r'.records = r.records ++ [(row.key, recordOf p row.height)] := by
  obtain ⟨hauth, hclaims⟩ := decoded_authorized C hwell.decoded
  have hcoll : Registry.checkCollection C r p row.key row.height = .ok () := by
    rw [Registry.checkCollection_eq_ok]
    constructor
    · intro hc
      obtain ⟨c, hmem, hkey, pc, hpc, hadmits⟩ := hwell.collection hc
      exact ⟨recordOf pc c.height, hkey ▸ hearlier c hmem pc hpc, hadmits⟩
    · intro hc
      rw [hc] at hclaims
      simpa using hclaims.symm
  refine ⟨r.emplace row.key (recordOf p row.height), ?_, Registry.records_emplace r _ _ hnew⟩
  rw [replayRecord_eq_ok]
  exact ⟨p, hwell.decoded, hwell.network_eq,
    Registry.applyIssuance_eq_ok.mpr ⟨hwell.derived, hnew, hauth, hcoll, rfl⟩⟩

/-- The registry after some records have been replayed. -/
def Holds (C : Crypto K) (network : NetworkType) (done : List StoredRow) (r : Registry) : Prop :=
  List.Forall₂ (fun row entry => ∃ p, Replayed C network row entry p) done r.records

private theorem holds_not_contains (done : List StoredRow) (r : Registry)
    (h : Holds C net done r) (id : Hash) (hid : id ∉ done.map Row.key) : r.contains id = false := by
  rw [Registry.not_contains_iff]
  intro hmem
  obtain ⟨ent, hent, rfl⟩ := mem_map.mp hmem
  obtain ⟨row, hrow, p, hrep⟩ := (forall₂_partner h).2 ent hent
  have hkey : ent.1 = row.key := congrArg Prod.fst hrep.entry_eq
  exact hid (mem_map.mpr ⟨row, hrow, hkey.symm⟩)

private theorem holds_find (done : List StoredRow) (r : Registry) (h : Holds C net done r)
    (c : StoredRow) (hc : c ∈ done) (pc : IssuancePayload)
    (hpc : decodeIssuancePayload C c.value = .ok pc) :
    r.find c.key = some (recordOf pc c.height) := by
  obtain ⟨ent, hent, p, hrep⟩ := (forall₂_partner h).1 c hc
  have hp : pc = p := by simpa using hpc.symm.trans hrep.decoded
  rw [Registry.find_eq_some_iff, hp, ← hrep.entry_eq]
  exact hent

theorem loop_replay_of_wellIssued (rows done : List StoredRow) (r : Registry)
    (hr : Holds C net done r) (hnd : ((done ++ rows).map Row.key).Nodup)
    (hwell : ∀ pre row post, rows = pre ++ row :: post →
      ∃ p, WellIssued C net (done ++ pre) row p) :
    ∃ r', loop (replayRecord C net) rows r = .ok r' := by
  induction rows generalizing done r with
  | nil => exact ⟨r, rfl⟩
  | cons row rest ih =>
    obtain ⟨p, hp⟩ := hwell [] row rest rfl
    rw [append_nil] at hp
    have hkey : row.key ∉ done.map Row.key := by
      rw [map_append, nodup_append] at hnd
      intro hmem
      exact hnd.2.2 _ hmem row.key (by simp) rfl
    obtain ⟨r', hstep, hrecs⟩ := replayRecord_of_wellIssued C net r done row p hp
      (holds_not_contains C net done r hr row.key hkey) (holds_find C net done r hr)
    have hr' : Holds C net (done ++ [row]) r' := by
      rw [Holds, hrecs]
      exact rel_append hr (List.Forall₂.cons
        ⟨p, hp.decoded, hp.network_eq, hp.derived, rfl⟩ List.Forall₂.nil)
    obtain ⟨r'', hrest⟩ := ih (done ++ [row]) r' hr' (by simpa using hnd) (by
      intro pre row' post hsplit
      simpa using hwell (row :: pre) row' post (by rw [hsplit]; rfl))
    exact ⟨r'', loop_cons_eq_ok.mpr ⟨r', hstep, hrest⟩⟩

/-- Every stored record is well issued with respect to the records sorted before it. -/
def Consistent (C : Crypto K) (network : NetworkType) (t : AssetTables K) : Prop :=
  ∀ row ∈ t.records.rows,
    ∃ p, WellIssued C network (t.records.rows.filter fun c => storedBefore c row) row p

theorem WellIssued.mono {C : Crypto K} {net : NetworkType} {earlier later : List StoredRow}
    {row : StoredRow} {p : IssuancePayload} (h : WellIssued C net earlier row p)
    (hsub : ∀ c ∈ earlier, c ∈ later) : WellIssued C net later row p where
  decoded := h.decoded
  network_eq := h.network_eq
  derived := h.derived
  collection := by
    intro hclaims
    obtain ⟨c, hc, hrest⟩ := h.collection hclaims
    exact ⟨c, hsub c hc, hrest⟩

theorem load_of_consistent {t : AssetTables K} (h : Consistent C net t) :
    ∃ r, loadRegistryFromDb C t net = .ok r := by
  have hperm := sortRecords_perm t.records.rows
  refine loop_replay_of_wellIssued C net _ [] .empty List.Forall₂.nil ?_ ?_
  · rw [nil_append]
    exact (hperm.map Row.key).nodup_iff.mpr t.records.keys_nodup
  · intro pre row post hsplit
    have hrow : row ∈ t.records.rows := hperm.mem_iff.mp (by rw [hsplit]; simp)
    obtain ⟨p, hp⟩ := h row hrow
    refine ⟨p, hp.mono ?_⟩
    intro c hc
    rw [mem_filter] at hc
    exact mem_front_of_before storedBefore_comparesBy hsplit hc.1 hc.2

end Monzero.RegistryReload
