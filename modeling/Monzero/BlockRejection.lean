import Monzero.PoolReturns

/-!
Rejecting a block at its asset stage. Every payload that is applied adds a row, so the
tables are those from before the block only if the first payload of the block is the one
that fails. The transactions taken from the pool are offered back to it against the
tables as they are then, and come back when all of them pass the asset stage; the pool is
then the one from before unless its weight limit makes it prune others.
-/
namespace Monzero.BlockRejection

open Checked Primitives AssetConfidential AssetWire AssetDb AssetApplication AssetRuns List
  AcceptedGroups TxExtra TxMemoryPool PoolRows PoolIndex PoolAssets PoolReturns Blockchain
  BlockHandling ToyCrypto ToyNode

section Growth

variable {K : Type} [DecidableEq K]

/-- The number of stored assets and spent key images. -/
def entries (t : AssetTables K) : ℕ := t.records.rows.length + t.keyImages.rows.length

theorem proofs_of_transfer {C : Crypto K} {p : AssetTransactionPayload K} {known : List Hash}
    {net : NetworkType} {car : Hash} {u : Unit} (hnone : p.issuance = none)
    (h : verifyAssetTransactionPayload C p known net car = .ok u) : p.ownershipProofs ≠ [] := by
  obtain ⟨-, -, -, hverify, iid, hiss, howned⟩ :=
    verifyPayload_facts C p h
  rw [hnone] at hiss hverify
  rw [Option.map_none, deriveIssuedId, pure_eq_ok] at hiss
  subst hiss
  obtain ⟨_, hacc⟩ := (verifyTransaction_eq_ok_iff ..).mp hverify
  obtain ⟨b, hb⟩ := exists_mem_of_ne_nil _ hacc.nonempty
  have hbalanced := (hacc.groups b hb).balanced
  simp only [verifyConfidentialAssetBalance, bind_eq_ok, failIf_eq_ok, exists_unit] at hbalanced
  obtain ⟨-, hins, -⟩ := hbalanced
  intro hemp
  obtain ⟨arranged, hperm, hmatch⟩ := howned.matching
  rw [hemp, perm_nil] at hperm
  rw [hperm] at hmatch
  have hall : inputsToProve none p.balances = [] := forall₂_nil_left_iff.mp hmatch
  rw [inputsToProve, flatMap_eq_nil_iff] at hall
  have hnil := hall b hb
  simp only [reduceCtorEq, if_false] at hnil
  exact hins hnil

theorem entries_apply (C : Crypto K) (t t' : AssetTables K) (p : AssetTransactionPayload K)
    (net : NetworkType) (car : Hash) (height : ℕ) (ids : List Hash)
    (h : applyAssetTransactionToDb C t p net car height = (.ok ids, t')) :
    entries t < entries t' := by
  obtain ⟨issued, hprep, -, hadded⟩ := apply_eq_ok.mp h
  obtain ⟨reg, hchk, hiss, -⟩ := (prepare_eq_ok ..).mp hprep
  have hpos : 0 < (recordRows height issued).length + (keyImageRows p height).length := by
    rcases (prepareIssuance_eq_ok ..).mp hiss with ⟨hnone, rfl⟩ | ⟨i, r, id, enc, -, -, -,
      rfl⟩
    · have hpfs := proofs_of_transfer hnone hchk.payload
      have hlen := length_pos_of_ne_nil hpfs
      simp only [recordRows, keyImageRows, length_nil, length_map]
      omega
    · simp only [recordRows, length_cons, length_nil]
      omega
  unfold entries
  rw [hadded.records, hadded.keyImages, length_append, length_append]
  omega

/-- A block whose asset stage returns false has left the tables alone exactly when its first
payload is the one that fails. -/
theorem applyAssetPayloads_rejected (C : Crypto K) (net : NetworkType) (height : ℕ)
    (pls : List (AssetTransactionPayload K × Hash)) (t t' : AssetTables K) (msg : String)
    (h : applyAssetPayloads C net height pls t = (.error (.rejected msg), t')) :
    entries t ≤ entries t' ∧ (t' = t ↔ ∃ q rest, pls = q :: rest ∧
        ∀ x, prepareAssetTransaction C t q.1 net q.2 height ≠ .ok x) := by
  induction pls generalizing t with
  | nil => cases h
  | cons q rest ih =>
    obtain ⟨p, car⟩ := q
    rw [applyAssetPayloads] at h
    cases happly : applyAssetTransactionToDb C t p net car height with
    | mk res next =>
      rw [happly] at h
      cases res with
      | error failure =>
        simp only [Prod.mk.injEq, Except.error.injEq] at h
        obtain ⟨rfl, rfl⟩ := h
        obtain ⟨rfl, hprep⟩ := apply_rejected C t next p net car height msg happly
        refine ⟨le_refl _, fun _ => ⟨(p, car), rest, rfl, ?_⟩, fun _ => rfl⟩
        intro x hx
        rw [hprep] at hx
        cases hx
      | ok ids =>
        obtain ⟨hgrow, -⟩ := ih next h
        have hstep := entries_apply C t next p net car height ids happly
        refine ⟨by omega, ?_, ?_⟩
        · rintro rfl
          omega
        · rintro ⟨q, rest', hcons, hfails⟩
          obtain ⟨rfl, rfl⟩ := List.cons.inj hcons
          obtain ⟨issued, hprep, -⟩ := apply_eq_ok.mp happly
          exact absurd hprep (hfails _)

end Growth

/-- Two pools store the same transactions under the same ids and have the same spent key
images. -/
structure SamePool (a b : TxPool) : Prop where
  stored : ∀ x, x ∈ stored a.table ↔ x ∈ stored b.table
  keyImages : ∀ k id, id ∈ idsOf a.spentKeyImages k ↔ id ∈ idsOf b.spentKeyImages k

variable (E : Env) (db : Db) {version : ℕ} {fast : Bool} {ids : List Hash} {pool : TxPool}
  {supplement : List Transaction} {s : Collecting}

theorem samePool_of_stored {a b : TxPool} (ha : Booked E a) (hb : Booked E b)
    (h : ∀ x, x ∈ stored a.table ↔ x ∈ stored b.table) : SamePool a b := by
  have hidx : ∀ pool : TxPool, Booked E pool → ∀ k id, id ∈ idsOf pool.spentKeyImages k ↔
      ∃ tx, (id, tx) ∈ stored pool.table ∧ .toKey k ∈ tx.vin := by
    intro pool hpool k id
    rw [hpool.index]
    constructor
    · rintro ⟨e, he, rfl, hk⟩
      exact ⟨e.tx, mem_stored.mpr ⟨e, he, rfl, rfl⟩, hk⟩
    · rintro ⟨tx, htx, hk⟩
      obtain ⟨e, he, hid, rfl⟩ := mem_stored.mp htx
      exact ⟨e, he, hid, hk⟩
  refine ⟨h, fun k id => ?_⟩
  rw [hidx a ha, hidx b hb]
  exact exists_congr fun tx => and_congr_left fun _ => h (id, tx)

section Collected

variable (h : collectTxs E db version fast ids
  { pool := pool, supplement := supplement, taken := [] } = (.ok (), s))
include h

theorem payload_from_envelope {q : AssetTransactionPayload Key × Hash}
    (hq : q ∈ assetPayloads s.taken) :
    hfVersionMonzeroAssets ≤ version ∧ ∃ tx, envelope E tx = .ok (some q.1) := by
  obtain ⟨t, ht, hpay⟩ := mem_filterMap.mp hq
  obtain ⟨p, hp, rfl⟩ := Option.map_eq_some_iff.mp hpay
  rcases collectTxs_payload E db version fast ids _ s h t ht with hnil | hblk
  · simp at hnil
  · unfold blockPayload at hblk
    by_cases hact : version ≥ hfVersionMonzeroAssets
    · rw [if_pos hact, payload_of_active E t.tx hact, hp] at hblk
      exact ⟨hact, t.tx, hblk⟩
    · rw [if_neg hact, hp] at hblk
      cases hblk

/-- The asset stage of a block fails on a payload, so assets are active then; and the first
payload can not be prepared exactly when validation refuses it. -/
theorem first_refused_iff {failure : Failure} {t : AssetTables Key}
    (hfailed : applyAssetPayloads E.C E.assetNetwork db.height (assetPayloads s.taken) db.assets =
      (.error failure, t)) :
    hfVersionMonzeroAssets ≤ version ∧ ((∃ q rest, assetPayloads s.taken = q :: rest ∧
          ∀ x, prepareAssetTransaction E.C db.assets q.1 E.assetNetwork q.2 db.height ≠ .ok x) ↔
        ∃ q rest, assetPayloads s.taken = q :: rest ∧
          verifyAssetTransactionAgainstDb E.C db q.1 E.assetNetwork q.2 ≠ .ok ()) := by
  cases hlist : assetPayloads s.taken with
  | nil =>
    rw [hlist] at hfailed
    cases hfailed
  | cons first rest =>
    have hmem : first ∈ assetPayloads s.taken := by
      rw [hlist]
      exact mem_cons_self
    obtain ⟨hact, tx, henv⟩ := payload_from_envelope E db h hmem
    refine ⟨hact, exists_congr fun q => exists_congr fun rest' => and_congr_right fun hq => ?_⟩
    obtain ⟨rfl, -⟩ := List.cons.inj hq
    rw [assetPayloads_carrier s.taken first hmem, Ne, verify_iff_checked E db henv]
    simp

variable (hdivided : Divided E pool s)
include hdivided

theorem taken_iff_listed {e : PoolTx} (he : e ∈ pool.table.rows) :
    (∃ u ∈ fromPool s.taken, (e.id, e.tx) = entryOf u) ↔ e.id ∈ ids := by
  have hpool := collectTxs_pool E db version fast ids _ s h
  constructor
  · rintro ⟨u, hu, heq⟩
    by_contra hnot
    exact PoolTable.get_eq_none_iff.mp (hdivided.returnable.absent u hu) e
      ((hpool e).mpr ⟨he, hnot⟩) (congrArg Prod.fst heq)
  · intro hid
    have hmem := mem_stored.mpr ⟨e, he, rfl, rfl⟩
    rcases (hdivided.stored_iff _).mp hmem with hleft | htaken
    · obtain ⟨f, hf, hfid, -⟩ := mem_stored.mp hleft
      exact absurd (hfid ▸ hid) ((hpool f).mp hf).2
    · exact htaken

/-- The transactions taken from the pool pass the asset stage against it exactly when the pooled
ones that the block lists do. -/
theorem stages_iff_listed (hact : hfVersionMonzeroAssets ≤ version) :
    (∀ u ∈ fromPool s.taken, Stage E db {x | x ∈ stored pool.table} u.id u.tx) ↔
      ∀ e ∈ pool.table.rows, e.id ∈ ids → ∃ payload,
        assetStage E db pool.table e.tx e.id version = .ok payload := by
  constructor
  · intro hall e he hid
    obtain ⟨u, hu, heq⟩ := (taken_iff_listed E db h hdivided he).mpr hid
    obtain ⟨hid', htx'⟩ := Prod.mk.inj heq
    rw [assetStage_iff_stage E db pool.table _ _ _ hact, hid', htx']
    exact hall u hu
  · intro hall u hu
    obtain ⟨e, he, hid, htx⟩ := mem_stored.mp
      ((hdivided.stored_iff (entryOf u)).mpr (Or.inr ⟨u, hu, rfl⟩))
    have hlisted := (taken_iff_listed E db h hdivided he).mp ⟨u, hu, Prod.ext hid htx⟩
    have hstage := (assetStage_iff_stage E db pool.table _ _ _ hact).mp (hall e he hlisted)
    rw [hid, htx] at hstage
    exact hstage

end Collected

/-- A divided pool is whole again after the taken transactions were given back exactly when all
of them pass the asset stage against the pool before it was divided, and none of the others was
pruned. -/
theorem samePool_giveBack_iff (clock : Clock) (hact : hfVersionMonzeroAssets ≤ version)
    (hbooked : Booked E pool) (hdivided : Divided E pool s) :
    SamePool pool (giveBack E db version clock s.pool (fromPool s.taken)) ↔
      (∀ u ∈ fromPool s.taken, Stage E db {x | x ∈ stored pool.table} u.id u.tx) ∧
      ∀ x ∈ stored s.pool.table,
        x ∈ stored (giveBack E db version clock s.pool (fromPool s.taken)).table := by
  have hst : {x | x ∈ stored pool.table} = {x | x ∈ stored s.pool.table} ∪
      {x | ∃ u ∈ fromPool s.taken, x = entryOf u} := by
    ext x
    exact hdivided.stored_iff x
  have hgiven := givenBack_giveBack E db _ clock hact (fromPool s.taken) s.pool hdivided.returnable
  rw [hst, ← passes_iff E db _ hdivided.returnable.nodup]
  constructor
  · intro hsame
    have hleft : ∀ x ∈ stored s.pool.table, _ :=
      fun x hx => (hsame.stored x).mp ((hdivided.stored_iff x).mpr (Or.inl hx))
    refine ⟨hgiven.passes hleft fun u hu => ?_, hleft⟩
    exact (hsame.stored _).mp ((hdivided.stored_iff _).mpr (Or.inr ⟨u, hu, rfl⟩))
  · rintro ⟨hpasses, hleft⟩
    refine samePool_of_stored E hbooked (hgiven.booked hdivided.booked) fun x => ?_
    rw [hdivided.stored_iff]
    constructor
    · rintro (hx | ⟨u, hu, rfl⟩)
      · exact hleft x hx
      · exact (hgiven.returned hpasses u hu).stored
    · exact hgiven.source x

theorem left_iff_unlisted (h : collectTxs E db version fast ids
    { pool := pool, supplement := supplement, taken := [] } = (.ok (), s))
    (x : Hash × Transaction) :
    x ∈ stored s.pool.table ↔ x ∈ stored pool.table ∧ x.1 ∉ ids := by
  obtain ⟨id, tx⟩ := x
  have hpool := collectTxs_pool E db version fast ids _ s h
  simp only [mem_stored, hpool]
  constructor
  · rintro ⟨e, ⟨he, hnot⟩, rfl, rfl⟩
    exact ⟨⟨e, he, rfl, rfl⟩, hnot⟩
  · rintro ⟨⟨e, he, rfl, rfl⟩, hnot⟩
    exact ⟨e, ⟨he, hnot⟩, rfl, rfl⟩

/-- None of the pooled transactions that a block does not list is pruned while its own are given
back. -/
def Unpruned (before after : TxPool) (listed : List Hash) : Prop :=
  ∀ x ∈ stored before.table, x.1 ∉ listed → x ∈ stored after.table

/-- The pool after it got a transaction back from a popped block. -/
def keep (pool : TxPool) (tx : Transaction) : TxPool :=
  (addTx toyEnv startNode.db pool tx (toyHashes.txHash tx) 100 .block true
    hfVersionMonzeroAssets hfVersionMonzeroAssets clock).2

/-- A node with an issuance and a native transaction in its pool. -/
def keptNode : Node := { startNode with pool := keep (keep emptyPool firstIssue) (nativeTx 5 []) }

/-- The issuance of a member whose collection is not there. -/
def orphanMember : Transaction := issuanceTx 3 (sampleMember 0)

theorem booked_keep (tx : Transaction) (keyImage : Key) (hvin : tx.vin = [.toKey keyImage])
    (hbooked : Booked toyEnv pool) (habs : pool.table.get (toyHashes.txHash tx) = none)
    (hstage : (assetStage toyEnv startNode.db pool.table tx (toyHashes.txHash tx)
      hfVersionMonzeroAssets).isOk = true) : Booked toyEnv (keep pool tx) := by
  have hplain : PlainInputs tx.vin := by
    rw [hvin]
    exact ⟨fun input hin => ⟨keyImage, mem_singleton.mp hin⟩, nodup_singleton _⟩
  exact (addedForBlock_addTx toyEnv startNode.db pool _ _ 100 true hfVersionMonzeroAssets clock
    (exists_of_isOk hstage) (by simp [toyEnv]) habs hplain).booked hbooked

theorem kept_booked : Booked toyEnv keptNode.pool := by
  have hempty : Booked toyEnv emptyPool :=
    ⟨by simp [emptyPool, PoolTable.empty], by simp [emptyPool, PoolTable.empty],
      by simp [emptyPool, PoolTable.empty, idsOf], by simp [emptyPool, PoolTable.empty, rowsWeight]⟩
  have hfirst := booked_keep firstIssue (keyOfNat 1) rfl hempty rfl (by decide +kernel)
  have hboth := booked_keep (nativeTx 5 []) (keyOfNat 5) rfl hfirst (by decide +kernel)
    (by decide +kernel)
  simpa only [keptNode] using hboth

end Monzero.BlockRejection
