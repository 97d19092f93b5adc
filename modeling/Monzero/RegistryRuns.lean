import Monzero.AssetRuns

/-!
When the registry of a reachable database reloads. In every run whose issuances
carry the node's network, each stored record is an authorized issuance whose
collection is stored at the same height or below. The loader, however, orders the
records of one height by id alone, so it finds a collection in time exactly when
the collection sorts before its members.
-/
namespace Monzero.RegistryRuns

open Bytes Checked IndexedTable Primitives AssetTypes IssuanceCodec AssetRegistry AssetWire AssetDb
  RegistryReload AssetRuns Runs ToyCrypto List
open AssetTables (empty)
open Registry (applyIssuance_eq_ok)

variable {B K : Type}

/-- Every stored record is an authorized issuance of the network whose collection, if it
names one, is stored no later. -/
def Issued (C : Crypto K) (network : NetworkType) (t : AssetTables K) : Prop :=
  ∀ row ∈ t.records.rows,
    ∃ p, WellIssued C network (t.records.rows.filter fun c => c.height ≤ row.height) row p

/-- The collection of every stored member sorts before the member. -/
def CollectionsFirst (C : Crypto K) (t : AssetTables K) : Prop :=
  ∀ row ∈ t.records.rows, ∀ p, decodeIssuancePayload C row.value = .ok p →
    claimsCollection p.descriptor = true →
      ∀ c ∈ t.records.rows, c.key = p.descriptor.collectionId → storedBefore c row = true

/-- The registry holds exactly the stored ids, each with its stored height and payload. -/
def Mirrors (C : Crypto K) (t : AssetTables K) (r : Registry) : Prop :=
  ∀ id record, r.find id = some record ↔
    ∃ row ∈ t.records.rows, row.key = id ∧ ∃ p, decodeIssuancePayload C row.value = .ok p ∧
      record = recordOf p row.height

variable (C : Crypto K) (net : NetworkType) (height : ℕ) (t : AssetTables K)

theorem issued_empty : Issued C net (empty : AssetTables K) := by
  intro row hrow
  simp [empty] at hrow

theorem issued_removeFromHeight [DecidableEq K] (height : ℕ) (h : Issued C net t) :
    Issued C net (t.removeFromHeight height) := by
  intro row hrow
  obtain ⟨hold, hht⟩ := (t.records.mem_removeFromHeight height row).mp hrow
  obtain ⟨p, hp⟩ := h row hold
  refine ⟨p, hp.mono ?_⟩
  intro c hc
  rw [mem_filter, decide_eq_true_eq] at hc ⊢
  exact ⟨(t.records.mem_removeFromHeight height c).mpr ⟨hc.1, by omega⟩, hc.2⟩

/-- The row an issuance is stored as is well issued with respect to the rows that were
there: its collection was found in the registry loaded from them. -/
theorem stored_issuance_wellIssued {reg r : Registry} {i : IssuancePayload} {id : Hash}
    {enc : List UInt8} {height : ℕ} (hload : loadRegistryFromDb C t net = .ok reg)
    (happly : reg.applyIssuance C i height = .ok (r, id))
    (henc : encodeIssuancePayload C i = .ok enc) (hnet : i.descriptor.network = net) :
    WellIssued C net (t.records.rows.filter fun c => c.height ≤ height)
      { key := id, height, value := enc } i where
  decoded := decode_encode_payload C i enc henc
  network_eq := hnet
  derived := (applyIssuance_eq_ok.mp happly).1
  collection := by
    intro hclaims
    obtain ⟨-, -, -, hcoll, -⟩ := applyIssuance_eq_ok.mp happly
    obtain ⟨coll, hfind, hadmits⟩ :=
      (Registry.checkCollection_eq_ok.mp hcoll).1 hclaims
    obtain ⟨c, hc, hkey, pc, hdec, -, rfl⟩ := (load_find_iff hload
      i.descriptor.collectionId coll).mp hfind
    have hht : c.height ≤ height := hadmits.height_le
    exact ⟨c, by simp [hc, hht], hkey, pc, hdec, hadmits⟩

theorem issued_apply [DecidableEq K] (t t' : AssetTables K) (p : AssetTransactionPayload K)
    (car : Hash) (height : ℕ) (ids : List Hash) (h : Issued C net t)
    (hnet : ∀ i, p.issuance = some i → i.descriptor.network = net)
    (happ : applyAssetTransactionToDb C t p net car height = (.ok ids, t')) : Issued C net t' := by
  obtain ⟨reg, hload, ⟨-, hrows⟩ | ⟨i, r, id, enc, hi, happly, henc, hrows⟩⟩ :=
    apply_issuance C t t' happ
  · intro row hrow
    rw [hrows] at hrow ⊢
    exact h row hrow
  · intro row hrow
    have hold : ∀ q : StoredRow → Bool, ∀ c ∈ t.records.rows.filter q,
        c ∈ t'.records.rows.filter q := by
      intro q c hc
      rw [hrows, filter_append]
      exact mem_append_left _ hc
    rw [hrows, mem_append, mem_singleton] at hrow
    rcases hrow with hrow | rfl
    · obtain ⟨q, hq⟩ := h row hrow
      exact ⟨q, hq.mono (hold _)⟩
    · exact ⟨i, (stored_issuance_wellIssued C net t hload happly henc (hnet i hi)).mono (hold _)⟩

/-- Every reachable database holds authorized issuances with their collections. -/
theorem issued_of_run [DecidableEq K] (bs : List B) (evs : List (AssetEvent B K))
    (db : BlockchainDb B K) (run : Run (AssetStep C net) ⟨bs, .empty⟩ evs db)
    (hown : ∀ e ∈ evs, OwnNetwork net e) : Issued C net db.assets :=
  run_invariant C net (Issued C net)
    (fun t p car height ids t' ht hnet happ =>
      issued_apply C net t t' p car height ids ht hnet happ)
    (fun t height ht => issued_removeFromHeight C net t height ht) evs _ db run hown
    (issued_empty C net)

/-- In a database of authorized issuances whose collections sort first, every record finds
its collection among the records sorted before it. -/
theorem consistent_of_issued (h : Issued C net t) (hfst : CollectionsFirst C t) :
    Consistent C net t := by
  intro row hrow
  obtain ⟨p, hp⟩ := h row hrow
  refine ⟨p, hp.decoded, hp.network_eq, hp.derived, ?_⟩
  intro hclaims
  obtain ⟨c, hc, hkey, hrest⟩ := hp.collection hclaims
  have hmem : c ∈ t.records.rows := mem_of_mem_filter hc
  have hbefore := hfst row hrow p hp.decoded hclaims c hmem hkey
  exact ⟨c, mem_filter.mpr ⟨hmem, hbefore⟩, hkey, hrest⟩

/-- A load that succeeds found every collection among the records sorted before. -/
theorem collectionsFirst_of_load {r : Registry} (h : loadRegistryFromDb C t net = .ok r) :
    CollectionsFirst C t := by
  intro row hrow p hdec hclaims c hc hkey
  have hperm := sortRecords_perm t.records.rows
  obtain ⟨pre, post, hsplit⟩ := append_of_mem (hperm.mem_iff.mpr hrow)
  rw [loadRegistryFromDb, hsplit, loop_append, bind_eq_ok] at h
  obtain ⟨r₁, hpre, hrest⟩ := h
  obtain ⟨r₂, hstep, -⟩ := loop_cons_eq_ok.mp hrest
  obtain ⟨p', hdec', -, happly⟩ := (replayRecord_eq_ok ..).mp hstep
  have hp : p' = p := by simpa using hdec'.symm.trans hdec
  subst hp
  obtain ⟨-, -, -, hcoll, -⟩ := applyIssuance_eq_ok.mp happly
  obtain ⟨coll, hfind, -⟩ := (Registry.checkCollection_eq_ok.mp hcoll).1 hclaims
  obtain ⟨added, hrecs, hall⟩ := loop_replay_records C net pre _ r₁ hpre
  rw [Registry.find_eq_some_iff, hrecs] at hfind
  obtain ⟨c', hc', q, hrep⟩ :=
    (forall₂_partner hall).2 _ (by simpa [Registry.empty] using hfind)
  have hkey' : c'.key = c.key :=
    (congrArg Prod.fst hrep.entry_eq).symm.trans hkey.symm
  have hmem' : c' ∈ t.records.rows := hperm.mem_iff.mp (by rw [hsplit]; simp [hc'])
  have hcc' : c' = c := t.records.row_eq_of_key_eq c' c hmem' hc hkey'
  subst hcc'
  have hnd : ((pre ++ row :: post).map Row.key).Nodup := by
    rw [← hsplit]
    exact (hperm.map Row.key).nodup_iff.mpr t.records.keys_nodup
  have hne : c'.key ≠ row.key := by
    rw [map_append, nodup_append] at hnd
    exact hnd.2.2 _ (mem_map.mpr ⟨c', hc', rfl⟩) _ (by simp)
  have hsort := sortRecords_pairwise t.records.rows
  rw [hsplit, pairwise_append] at hsort
  have hafter : storedBefore row c' = false := hsort.2.2 c' hc' row (by simp)
  by_contra hbefore
  exact hne (eq_of_not_storedBefore (by simpa using hbefore) hafter).2

theorem mirrors_of_load {r : Registry} (h : loadRegistryFromDb C t net = .ok r)
    (hiss : Issued C net t) : Mirrors C t r := by
  intro id rcd
  rw [load_find_iff h]
  constructor
  · rintro ⟨row, hrow, hkey, p, hdec, -, hrec⟩
    exact ⟨row, hrow, hkey, p, hdec, hrec⟩
  · rintro ⟨row, hrow, hkey, p, hdec, hrec⟩
    obtain ⟨q, hq⟩ := hiss row hrow
    have hqp : q = p := by simpa using hq.decoded.symm.trans hdec
    exact ⟨row, hrow, hkey, p, hdec, hqp ▸ hq.network_eq, hrec⟩

/-- In every database of authorized issuances the registry reloads, with exactly the stored
records, precisely when no stored member sorts before its collection. -/
theorem reload_iff_collectionsFirst (hiss : Issued C net t) :
    (∃ r, loadRegistryFromDb C t net = .ok r ∧ Mirrors C t r) ↔ CollectionsFirst C t := by
  constructor
  · rintro ⟨r, hload, -⟩
    exact collectionsFirst_of_load C net t hload
  · intro hfst
    obtain ⟨r, hload⟩ :=
      load_of_consistent C net (consistent_of_issued C net t hiss hfst)
    exact ⟨r, hload, mirrors_of_load C net t hload hiss⟩

/-- If the second payload issues a member of the collection the first one issues, the
collection's id sorts before the member's. -/
def SortsFirst (C : Crypto K) (a b : AssetTransactionPayload K × Hash) : Prop :=
  ∀ c m cid mid, a.1.issuance = some c → b.1.issuance = some m →
    deriveAssetId C c.descriptor = .ok cid → deriveAssetId C m.descriptor = .ok mid →
      m.descriptor.collectionId = cid → memcmpLt cid.bytes mid.bytes = true

/-- No block issues a collection together with a member whose id sorts before it. -/
def CollectionsSortFirst (C : Crypto K) : AssetEvent B K → Prop
  | .attach _ payloads => payloads.Pairwise (SortsFirst C)
  | .detach => True

/-- The records at the height of the block under construction come from its payloads. -/
def FromBlock (C : Crypto K) (height : ℕ) (done : List (AssetTransactionPayload K × Hash))
    (t : AssetTables K) : Prop :=
  ∀ row ∈ t.records.rows, row.height < height ∨ row.height = height ∧
    ∃ e ∈ done, ∃ i, e.1.issuance = some i ∧ deriveAssetId C i.descriptor = .ok row.key

/-- The new record of an issuance finds its collection sorted before it, given the order of
the payloads of its block. -/
theorem new_record_after_collection (done : List (AssetTransactionPayload K × Hash))
    (e : AssetTransactionPayload K × Hash) (t : AssetTables K) (i : IssuancePayload) (id : Hash)
    (enc : List UInt8) (hfrom : FromBlock C height done t) (hsort : ∀ a ∈ done, SortsFirst C a e)
    (hiss : e.1.issuance = some i) (hder : deriveAssetId C i.descriptor = .ok id) (c : StoredRow)
    (hc : c ∈ t.records.rows) (hkey : c.key = i.descriptor.collectionId) :
    storedBefore c { key := id, height, value := enc } = true := by
  rw [storedBefore_iff]
  rcases hfrom c hc with hlt | ⟨heq, a, ha, j, hj, hcid⟩
  · exact Or.inl hlt
  · have hlt := hsort a ha j i c.key id hj hiss hcid hder hkey.symm
    exact Or.inr ⟨heq, hlt⟩

/-- One application keeps the stored collections sorted first if the collection of its own
issuance sorts before the new record. -/
theorem collectionsFirst_apply [DecidableEq K] (t t' : AssetTables K)
    (p : AssetTransactionPayload K) (car : Hash) (ids : List Hash)
    (hiss : Issued C net t) (hfst : CollectionsFirst C t)
    (hbefore : ∀ i id enc c, p.issuance = some i → deriveAssetId C i.descriptor = .ok id →
      claimsCollection i.descriptor = true → c ∈ t.records.rows →
      c.key = i.descriptor.collectionId → storedBefore c { key := id, height, value := enc } = true)
    (happ : applyAssetTransactionToDb C t p net car height = (.ok ids, t')) :
    CollectionsFirst C t' := by
  obtain ⟨reg, hload, ⟨-, hrows⟩ | ⟨i, r, id, enc, hi, happly, henc, hrows⟩⟩ :=
    apply_issuance C t t' happ
  · intro row hrow q hq hclaims c hc hkey
    rw [hrows] at hrow hc
    exact hfst row hrow q hq hclaims c hc hkey
  · obtain ⟨hder, hnew, -, hcoll, -⟩ := applyIssuance_eq_ok.mp happly
    have hfresh : ∀ c ∈ t.records.rows, c.key ≠ id := by
      rw [← Table.not_contains_iff, ← load_contains hload]
      exact hnew
    intro row hrow q hq hclaims c hc hkey
    rw [hrows, mem_append, mem_singleton] at hrow hc
    rcases hrow with hrow | rfl
    · rcases hc with hc | rfl
      · exact hfst row hrow q hq hclaims c hc hkey
      · -- The collection of a stored member is stored already, so it is not the new rcd.
        obtain ⟨q', hq'⟩ := hiss row hrow
        have hqq' : q' = q := by simpa using hq'.decoded.symm.trans hq
        subst hqq'
        obtain ⟨c', hc', hkey', -⟩ := hq'.collection hclaims
        exact absurd (hkey'.trans hkey.symm) (hfresh c' (mem_of_mem_filter hc'))
    · have hqi : q = i := by
        simpa using hq.symm.trans (decode_encode_payload C i enc henc)
      subst hqi
      obtain ⟨rcd, hfind, -⟩ := (Registry.checkCollection_eq_ok.mp hcoll).1 hclaims
      obtain ⟨c', hc', hkey', -⟩ := (load_find_iff hload _ _).mp hfind
      rcases hc with hc | rfl
      · exact hbefore q id enc c hi hder hclaims hc hkey
      · exact absurd (hkey'.trans hkey.symm) (hfresh c' hc')

theorem fromBlock_apply [DecidableEq K] (done : List (AssetTransactionPayload K × Hash))
    (t t' : AssetTables K) (p : AssetTransactionPayload K) (car : Hash) (ids : List Hash)
    (hfrom : FromBlock C height done t)
    (happ : applyAssetTransactionToDb C t p net car height = (.ok ids, t')) :
    FromBlock C height (done ++ [(p, car)]) t' := by
  have hold : FromBlock C height (done ++ [(p, car)]) t := by
    intro row hrow
    refine (hfrom row hrow).imp_right ?_
    rintro ⟨hht, e, he, hiss⟩
    exact ⟨hht, e, mem_append_left _ he, hiss⟩
  obtain ⟨reg, -, ⟨-, hrows⟩ | ⟨i, r, id, enc, hi, happly, -, hrows⟩⟩ :=
    apply_issuance C t t' happ
  · intro row hrow
    rw [hrows] at hrow
    exact hold row hrow
  · intro row hrow
    rw [hrows, mem_append, mem_singleton] at hrow
    rcases hrow with hrow | rfl
    · exact hold row hrow
    · have hder := (applyIssuance_eq_ok.mp happly).1
      exact Or.inr ⟨rfl, (p, car), by simp, i, hi, hder⟩

/-- All payloads of a block whose collections sort first keep the stored collections sorted
first. The induction carries the payloads already applied. -/
theorem collectionsFirst_applyAssetPayloads [DecidableEq K]
    (done pls : List (AssetTransactionPayload K × Hash)) (t t' : AssetTables K) (u : Unit)
    (hown : ∀ e ∈ pls, ∀ i, e.1.issuance = some i → i.descriptor.network = net)
    (hsort : (done ++ pls).Pairwise (SortsFirst C)) (hiss : Issued C net t)
    (hfst : CollectionsFirst C t) (hfrom : FromBlock C height done t)
    (h : applyAssetPayloads C net height pls t = (.ok u, t')) : CollectionsFirst C t' := by
  induction pls generalizing done t with
  | nil =>
    cases h
    exact hfst
  | cons e rest ih =>
    obtain ⟨p, car⟩ := e
    obtain ⟨ids, next, happly, hrest⟩ := (applyAssetPayloads_cons_eq_ok ..).mp h
    have hbefore : ∀ a ∈ done, SortsFirst C a (p, car) := by
      rw [pairwise_append] at hsort
      exact fun a ha => hsort.2.2 a ha _ mem_cons_self
    refine ih (done ++ [(p, car)]) next
      (fun e he => hown e (mem_cons_of_mem _ he)) (by simpa using hsort) ?_ ?_ ?_ hrest
    · exact issued_apply C net t next p car height ids hiss (hown _ mem_cons_self) happly
    · refine collectionsFirst_apply C net height t next p car ids hiss hfst ?_ happly
      intro i id enc c hi hder _ hc hkey
      exact new_record_after_collection C height done (p, car) t i id enc hfrom hbefore hi
        hder c hc hkey
    · exact fromBlock_apply C net height done t next p car ids hfrom happly

/-- What every state of a run keeps: authorized issuances, rows below the chain's height, and
collections that sort before their members. -/
structure Reloadable [DecidableEq K] (C : Crypto K) (network : NetworkType)
    (db : BlockchainDb B K) : Prop where
  issued : Issued C network db.assets
  below : db.assets.Below db.height
  first : CollectionsFirst C db.assets

theorem reloadable_step [DecidableEq K] (db db' : BlockchainDb B K) (e : AssetEvent B K)
    (hown : OwnNetwork net e) (hsort : CollectionsSortFirst C e) (hdb : Reloadable C net db)
    (h : AssetStep C net db e db') : Reloadable C net db' := by
  have hbelow := below_step C net h hdb.below
  cases h with
  | attach block payloads t applied =>
    refine ⟨?_, hbelow, ?_⟩
    · refine applyAssetPayloads_invariant C net db.height (Issued C net) payloads ?_
        db.assets t () hdb.issued applied
      intro s p car ids s' hmem hs happ
      exact issued_apply C net s s' p car db.height ids hs (hown _ hmem) happ
    · refine collectionsFirst_applyAssetPayloads C net db.height [] payloads db.assets t ()
        hown hsort hdb.issued hdb.first ?_ applied
      exact fun row hrow => Or.inl (hdb.below.records row hrow)
  | detach nonempty =>
    refine ⟨issued_removeFromHeight C net db.assets _ hdb.issued, hbelow, ?_⟩
    intro row hrow q hq hclaims c hc hkey
    exact hdb.first row ((db.assets.records.mem_removeFromHeight _ row).mp hrow).1 q hq hclaims c
      ((db.assets.records.mem_removeFromHeight _ c).mp hc).1 hkey

/-- In every run from empty asset tables whose issuances carry the node's network and whose
blocks never issue a member that sorts before its own collection, the registry of every
reached database reloads, with exactly the stored ids, heights and payloads. -/
theorem registry_reloads [DecidableEq K] (C : Crypto K) (network : NetworkType)
    (blocks : List B) (events : List (AssetEvent B K)) (db : BlockchainDb B K)
    (run : Run (AssetStep C network) ⟨blocks, .empty⟩ events db)
    (hown : ∀ e ∈ events, OwnNetwork network e)
    (hsort : ∀ e ∈ events, CollectionsSortFirst C e) :
    ∃ r, loadRegistryFromDb C db.assets network = .ok r ∧ Mirrors C db.assets r := by
  have hstart : Reloadable C network (⟨blocks, .empty⟩ : BlockchainDb B K) :=
    ⟨issued_empty C network, ⟨by simp [empty], by simp [empty],
      by simp [empty]⟩, by intro row hrow; simp [empty] at hrow⟩
  have hend := run.invariant (Reloadable C network)
    (fun e => OwnNetwork network e ∧ CollectionsSortFirst C e)
    (fun s e s' hs he hstep => reloadable_step C network s s' e he.1 he.2 hs hstep)
    (fun e he => ⟨hown e he, hsort e he⟩) hstart
  exact (reload_iff_collectionsFirst C network db.assets hend.issued).mpr hend.first

def samplePayloads (nonce : ℕ) : List (AssetTransactionPayload Key × Hash) :=
  [(issue .mainnet (keyOfNat 11) sampleCollection 21, keyOfNat 11),
    (issue .mainnet (keyOfNat 12) (sampleMember nonce) 22, keyOfNat 12)]

/-- The database after that block. -/
def sampleDb (nonce : ℕ) : BlockchainDb Unit Key :=
  { blocks := [()],
    assets := (applyAssetPayloads toy .mainnet 0 (samplePayloads nonce) .empty).2 }

theorem sample_own (nonce : ℕ) :
    ∀ e ∈ [AssetEvent.attach () (samplePayloads nonce)], OwnNetwork .mainnet e := by
  intro e he
  obtain rfl := mem_singleton.mp he
  intro x hx i hi
  rcases mem_cons.mp hx with rfl | hx
  · cases hi
    rfl
  · obtain rfl := mem_singleton.mp hx
    cases hi
    rfl

private theorem sample_sorted (h : memcmpLt (idOf sampleCollection).bytes
    (idOf (sampleMember 0)).bytes = true) :
    ∀ e ∈ [AssetEvent.attach () (samplePayloads 0)], CollectionsSortFirst toy e := by
  intro e he
  obtain rfl := mem_singleton.mp he
  refine pairwise_pair.mpr ?_
  intro c m cid mid hc hm hcid hmid _
  cases hc
  cases hm
  obtain ⟨-, rfl⟩ := (deriveAssetId_eq_ok ..).mp hcid
  obtain ⟨-, rfl⟩ := (deriveAssetId_eq_ok ..).mp hmid
  exact h

/-- A block whose member sorts after its collection leaves a database that reloads. -/
theorem registry_reloads_sample :
    ∃ r, loadRegistryFromDb toy (sampleDb 0).assets .mainnet = .ok r ∧
      Mirrors toy (sampleDb 0).assets r :=
  registry_reloads toy .mainnet [] [.attach () (samplePayloads 0)] (sampleDb 0)
    (run_attach toy .mainnet [] .empty () (samplePayloads 0) (by decide +kernel)) (sample_own 0)
    (sample_sorted (by decide +kernel))

/-- One block issues a collection and then a member whose id sorts first. Both payloads are
accepted, and the database they leave does not load. -/
theorem reload_fails_for_member_sorting_first :
    Run (AssetStep toy .mainnet) ⟨[], .empty⟩ [.attach () (samplePayloads 1)] (sampleDb 1) ∧
      (∀ e ∈ [AssetEvent.attach () (samplePayloads 1)], OwnNetwork .mainnet e) ∧
      idOf sampleCollection ≠ idOf (sampleMember 1) ∧
      loadRegistryFromDb toy (sampleDb 1).assets .mainnet =
        .error "referenced collection is unknown or not a collection" :=
  ⟨run_attach toy .mainnet [] .empty () (samplePayloads 1) (by decide +kernel), sample_own 1,
    by decide +kernel, by decide +kernel⟩

end Monzero.RegistryRuns
