import Monzero.IndependentPayloads
import Monzero.PoolRows

/-!
The asset transactions of the pool. A pool is sound on a chain when every payload in it
passes the checks on the current tables and any two of them are apart. Admission
establishes both for a new transaction as far as the code looks: it verifies the payload
and compares issued assets and key images with the pooled ones, but it does not look at
the network of the issuance nor at the output ids of the others.
-/
namespace Monzero.PoolAssets

open Checked Primitives AssetTypes AssetConfidential AssetWire AssetWireCodec AssetDb
  PoolBlockAgreement RegistryRuns PayloadView IndependentPayloads TxExtra TxMemoryPool PoolRows

/-- The payload of a transaction once assets are active. -/
def envelope (E : Env) (tx : Transaction) : Except String (Option (AssetTransactionPayload Key)) :=
  E.payload hfVersionMonzeroAssets tx

variable (E : Env) (db : Db) {ver : ℕ} {tx : Transaction} {p q : AssetTransactionPayload Key}
  {C : Crypto Key} {cand : Option Hash} {tab : PoolTable} {id : Hash}
  {payload : Option (AssetTransactionPayload Key)}

theorem payload_of_active (tx : Transaction) (h : hfVersionMonzeroAssets ≤ ver) :
    E.payload ver tx = envelope E tx := by
  simp only [envelope, Env.payload, parseNativeAssetTransaction, Nat.not_lt.mpr h, lt_irrefl]

theorem envelope_facts (h : envelope E tx = .ok (some p)) :
    ∃ enc, decodeAssetTransactionPayload E.C enc = .ok p := by
  simp only [envelope, Env.payload, parseNativeAssetTransaction, bind_eq_ok] at h
  obtain ⟨found, -, h⟩ := h
  cases found with
  | none => simp [pure_eq_ok] at h
  | some enc =>
    simp only [bind_eq_ok, failIf_eq_ok, pure_eq_ok, exists_unit, Option.some.injEq] at h
    obtain ⟨-, -, -, -, -, -, dec, hdec, -, -, rfl⟩ := h
    exact ⟨enc, hdec⟩

theorem verify_iff_checked (h : envelope E tx = .ok (some p)) :
    verifyAssetTransactionAgainstDb E.C db p E.assetNetwork p.carrierPrefixHash = .ok () ↔
      ∃ issued ids, prepareAssetTransaction E.C db.assets p E.assetNetwork p.carrierPrefixHash
        db.height = .ok (issued, ids) := by
  obtain ⟨enc, hdec⟩ := envelope_facts E h
  exact verify_iff_prepare db E.assetNetwork _ (decoded_facts hdec).2

theorem assetStage_eq_ok (tab : PoolTable) (tx : Transaction) (id : Hash)
    (hact : hfVersionMonzeroAssets ≤ ver) (pl : Option (AssetTransactionPayload Key)) :
    assetStage E db tab tx id ver = .ok pl ↔ envelope E tx = .ok pl ∧ ∀ p, pl = some p →
        verifyAssetTransactionAgainstDb E.C db p E.assetNetwork p.carrierPrefixHash = .ok () ∧
        ∃ cand, issuanceId E.C p = .ok cand ∧
          ∀ e ∈ tab.rows, e.id ≠ id → conflicts E ver p cand e.tx = false := by
  rw [assetStage, if_neg (Nat.not_lt.mpr hact)]
  simp only [bind_eq_ok, mapError_eq_ok, payload_of_active E tx hact]
  constructor
  · rintro ⟨found, hfound, h⟩
    cases found with
    | none =>
      obtain rfl := (pure_eq_ok _ _).mp h
      exact ⟨hfound, by simp⟩
    | some p =>
      simp only [bind_eq_ok, mapError_eq_ok, failIf_eq_ok, pure_eq_ok, exists_unit] at h
      obtain ⟨hverify, cand, hcand, hconflict, rfl⟩ := h
      refine ⟨hfound, ?_⟩
      intro q hq
      obtain rfl := Option.some.inj hq
      refine ⟨hverify, cand, hcand, fun e he hne => ?_⟩
      simp only [List.any_eq_true, decide_eq_true_eq, not_exists, not_and, Bool.not_eq_true]
        at hconflict
      exact hconflict e he hne
  · rintro ⟨hfound, hchk⟩
    refine ⟨pl, hfound, ?_⟩
    cases pl with
    | none => rfl
    | some p =>
      obtain ⟨hverify, cand, hcand, hnone⟩ := hchk p rfl
      simp only [bind_eq_ok, mapError_eq_ok, failIf_eq_ok, pure_eq_ok, exists_unit, and_true]
      refine ⟨hverify, cand, hcand, ?_⟩
      simp only [List.any_eq_true, decide_eq_true_eq, not_exists, not_and, Bool.not_eq_true]
      exact hnone

/-- Two payloads issue different assets and spend different key images, as far as `add_tx`
compares them. -/
structure Compatible (C : Crypto Key) (p q : AssetTransactionPayload Key) : Prop where
  issued : ∀ i j, p.issuance = some i → q.issuance = some j →
    ∃ a b, deriveAssetId C i.descriptor = .ok a ∧ deriveAssetId C j.descriptor = .ok b ∧ a ≠ b
  keyImages : ∀ proof ∈ p.ownershipProofs, ∀ proof' ∈ q.ownershipProofs,
    proof.keyImage ≠ proof'.keyImage

theorem Compatible.symm (h : Compatible C p q) : Compatible C q p where
  issued := by
    intro i j hi hj
    obtain ⟨a, b, ha, hb, hne⟩ := h.issued j i hj hi
    exact ⟨b, a, hb, ha, hne.symm⟩
  keyImages := fun pf hpf pf' hpf' => (h.keyImages pf' hpf' pf hpf).symm

theorem sameIssuance_eq_false (q : AssetTransactionPayload Key)
    (hcand : issuanceId C p = .ok cand) : sameIssuance C cand q.issuance = false ↔
      ∀ i j, p.issuance = some i → q.issuance = some j → ∃ a b,
        deriveAssetId C i.descriptor = .ok a ∧ deriveAssetId C j.descriptor = .ok b ∧ a ≠ b := by
  cases hi : p.issuance with
  | none =>
    simp only [issuanceId, hi, Except.ok.injEq] at hcand
    subst hcand
    simp [sameIssuance]
  | some i =>
    simp only [issuanceId, hi, bind_eq_ok, pure_eq_ok] at hcand
    obtain ⟨a, ha, rfl⟩ := hcand
    cases hj : q.issuance with
    | none => simp [sameIssuance]
    | some j =>
      cases hb : deriveAssetId C j.descriptor with
      | error message => simp [sameIssuance, hb]
      | ok b => simp [sameIssuance, ha, hb, ne_comm]

/-- A pooled transaction does not conflict exactly when it parses and its payload, if it has
one, is compatible. -/
theorem conflicts_eq_false (ver : ℕ) (pooled : Transaction) (hcand : issuanceId E.C p = .ok cand) :
    conflicts E ver p cand pooled = false ↔ ∃ payload, E.payload ver pooled = .ok payload ∧
        ∀ q, payload = some q → Compatible E.C p q := by
  unfold conflicts
  cases E.payload ver pooled with
  | error message => simp
  | ok payload =>
    cases payload with
    | none => simp
    | some q =>
      simp only [Except.ok.injEq, exists_eq_left', Option.some.injEq, forall_eq',
        Bool.or_eq_false_iff, List.any_eq_false, decide_eq_true_eq, sameIssuance_eq_false q hcand]
      have hkeys : (∀ pf' ∈ q.ownershipProofs,
          pf'.keyImage ∉ p.ownershipProofs.map AssetOwnershipProof.keyImage) ↔
          ∀ pf ∈ p.ownershipProofs, ∀ pf' ∈ q.ownershipProofs,
            pf.keyImage ≠ pf'.keyImage := by
        simp only [List.mem_map, not_exists, not_and]
        exact ⟨fun h a ha b hb => h b hb a ha, fun h b hb a ha => h a ha b hb⟩
      rw [hkeys]
      exact ⟨fun h => ⟨h.1, h.2⟩, fun h => ⟨h.issued, h.keyImages⟩⟩

/-- What the node does not check about an asset transaction: its issuance is for the node's
network, and the hashes of its outputs do not collide. -/
structure Proper (E : Env) (tx : Transaction) : Prop where
  ownNetwork : ∀ p i, envelope E tx = .ok (some p) → p.issuance = some i →
    i.descriptor.network = E.assetNetwork
  free : ∀ p, envelope E tx = .ok (some p) →
    OutputIdsCollisionFree E.C p E.assetNetwork p.carrierPrefixHash

/-- No output of one transaction gets the id of an output of the other. -/
def OutputsApart (E : Env) (tx tx' : Transaction) : Prop :=
  ∀ p q, envelope E tx = .ok (some p) → envelope E tx' = .ok (some q) →
    ∀ e ∈ (payloadOutputs p).zipIdx, ∀ e' ∈ (payloadOutputs q).zipIdx, ∀ id,
      deriveAssetOutputId E.C E.assetNetwork p.carrierPrefixHash e.1 e.2 = .ok id →
        deriveAssetOutputId E.C E.assetNetwork q.carrierPrefixHash e'.1 e'.2 ≠ .ok id

/-- A family of transactions, each with its id, that are proper and share no output id. -/
structure Clean (E : Env) (family : List (Hash × Transaction)) : Prop where
  proper : ∀ a ∈ family, Proper E a.2
  outputs : ∀ a ∈ family, ∀ b ∈ family, a.1 ≠ b.1 → OutputsApart E a.2 b.2

/-- A pool table that belongs to a family of transactions, whose payloads are all pending on
the chain and apart from each other. -/
structure SoundPool (E : Env) (db : Db) (family : List (Hash × Transaction))
    (table : PoolTable) : Prop where
  inside : ∀ e ∈ table.rows, (e.id, e.tx) ∈ family
  parsed : ∀ e ∈ table.rows, ∃ payload, envelope E e.tx = .ok payload
  pending : ∀ e ∈ table.rows, ∀ p, envelope E e.tx = .ok (some p) →
    Pending E.C E.assetNetwork db.height db.assets p
  apart : ∀ e ∈ table.rows, ∀ e' ∈ table.rows, e.id ≠ e'.id → ∀ p q,
    envelope E e.tx = .ok (some p) → envelope E e'.tx = .ok (some q) →
      Apart E.C E.assetNetwork p q

theorem SoundPool.within {E : Env} {db : Db} {family : List (Hash × Transaction)}
    {tab' : PoolTable} (h : SoundPool E db family tab) (hw : Within tab' tab) :
    SoundPool E db family tab' where
  inside := by
    intro e he
    obtain ⟨f, hf, hid, htx⟩ := hw e he
    rw [← hid, ← htx]
    exact h.inside f hf
  parsed := by
    intro e he
    obtain ⟨f, hf, -, htx⟩ := hw e he
    rw [← htx]
    exact h.parsed f hf
  pending := by
    intro e he p hp
    obtain ⟨f, hf, -, htx⟩ := hw e he
    exact h.pending f hf p (htx ▸ hp)
  apart := by
    intro e he e' he' hne p q hp hq
    obtain ⟨f, hf, hid, htx⟩ := hw e he
    obtain ⟨f', hf', hid', htx'⟩ := hw e' he'
    exact h.apart f hf f' hf' (by rwa [hid, hid']) p q (htx ▸ hp) (htx' ▸ hq)

theorem pending_of_assetStage (hact : hfVersionMonzeroAssets ≤ ver)
    (hdb : Reloadable E.C E.assetNetwork db) (hproper : Proper E tx)
    (h : assetStage E db tab tx id ver = .ok payload) (hp : envelope E tx = .ok (some p)) :
    Pending E.C E.assetNetwork db.height db.assets p := by
  obtain ⟨henv, hchk⟩ := (assetStage_eq_ok E db tab tx id hact payload).mp h
  obtain rfl : payload = some p := by simpa using henv.symm.trans hp
  obtain ⟨hverify, -⟩ := hchk p rfl
  refine ⟨(verify_iff_checked E db hp).mp hverify, ?_, fun i hi => hproper.ownNetwork p i hp hi,
    hproper.free p hp⟩
  intro i _ _ row hrow _
  exact hdb.below.records row hrow

theorem apart_of_assetStage (hact : hfVersionMonzeroAssets ≤ ver)
    (h : assetStage E db tab tx id ver = .ok payload) {e : PoolTx} (he : e ∈ tab.rows)
    (hne : e.id ≠ id) (houts : OutputsApart E tx e.tx) (hp : envelope E tx = .ok (some p))
    (hq : envelope E e.tx = .ok (some q)) : Apart E.C E.assetNetwork p q := by
  obtain ⟨henv, hchk⟩ := (assetStage_eq_ok E db tab tx id hact payload).mp h
  obtain rfl : payload = some p := by simpa using henv.symm.trans hp
  obtain ⟨-, cand, hcand, hnone⟩ := hchk p rfl
  obtain ⟨found, hfound, hfacts⟩ :=
    (conflicts_eq_false E ver e.tx hcand).mp (hnone e he hne)
  rw [payload_of_active E e.tx hact, hq] at hfound
  have hcompatible := hfacts q (by simpa using hfound.symm)
  refine ⟨?_, hcompatible.keyImages, houts p q hp hq⟩
  intro i j a hi hj hder hder'
  obtain ⟨b, c, hb, hc, hne⟩ := hcompatible.issued i j hi hj
  rw [hder] at hb
  rw [hder'] at hc
  exact hne ((Except.ok.inj hb).symm.trans (Except.ok.inj hc))

theorem sound_addTx (family : List (Hash × Transaction)) (pool : TxPool) (tx : Transaction)
    (id : Hash) (wt : ℕ) (relay : RelayMethod) (rld : Bool) (ver nic : ℕ) (clock : Clock)
    (hact : hfVersionMonzeroAssets ≤ ver) (hdb : Reloadable E.C E.assetNetwork db)
    (hclean : Clean E family) (hmem : (id, tx) ∈ family) (h : SoundPool E db family pool.table) :
    SoundPool E db family (addTx E db pool tx id wt relay rld ver nic clock).2.table := by
  have hrows := addTx_rows E db pool tx id wt relay rld ver nic clock
  generalize (addTx E db pool tx id wt relay rld ver nic clock).2.table = t at hrows
  refine ⟨?_, ?_, ?_, ?_⟩
  · intro e he
    rcases hrows e he with ⟨f, hf, hid, htx⟩ | ⟨rfl, rfl, -⟩
    · rw [← hid, ← htx]
      exact h.inside f hf
    · exact hmem
  · intro e he
    rcases hrows e he with ⟨f, hf, hid, htx⟩ | ⟨rfl, rfl, payload, hstage⟩
    · rw [← htx]
      exact h.parsed f hf
    · exact ⟨payload, ((assetStage_eq_ok E db _ _ _ hact payload).mp hstage).1⟩
  · intro e he p hp
    rcases hrows e he with ⟨f, hf, hid, htx⟩ | ⟨rfl, rfl, payload, hstage⟩
    · exact h.pending f hf p (htx ▸ hp)
    · exact pending_of_assetStage E db hact hdb (hclean.proper _ hmem) hstage hp
  · intro e he e' he' hne p q hp hq
    rcases hrows e he with ⟨f, hf, hid, htx⟩ | ⟨rfl, rfl, payload, hstage⟩
    · rcases hrows e' he' with ⟨f', hf', hid', htx'⟩ | ⟨rfl, rfl, payload, hstage⟩
      · exact h.apart f hf f' hf' (by rwa [hid, hid']) p q (htx ▸ hp) (htx' ▸ hq)
      · have hne' : f.id ≠ e'.id := by rwa [hid]
        refine (apart_of_assetStage E db hact hstage hf hne' ?_ hq (htx ▸ hp)).symm
        exact hclean.outputs _ hmem _ (h.inside f hf) hne'.symm
    · rcases hrows e' he' with ⟨f', hf', hid', htx'⟩ | ⟨hid', -, -⟩
      · have hne' : f'.id ≠ e.id := by
          rw [hid']
          exact hne.symm
        refine apart_of_assetStage E db hact hstage hf' hne' ?_ hp (htx' ▸ hq)
        exact hclean.outputs _ hmem _ (h.inside f' hf') hne'.symm
      · exact absurd hid'.symm hne

end Monzero.PoolAssets
