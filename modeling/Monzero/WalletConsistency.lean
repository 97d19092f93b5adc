import Monzero.AcceptedChain
import Monzero.WalletAssets

/-!
The wallet's transfers against the node's tables. The node applies the payloads of the
listed transactions of a block; the wallet also scans the miner transaction. As long as no
scanned miner transaction carries a payload, every transfer of the wallet is an output of
the node's table, and every spent one has its key image there. Processing transactions
again after a detach passes version zero to the scan, which then does nothing, so only
transfers from below the detached height are left.
-/
namespace Monzero.WalletConsistency

open Bytes Checked IndexedTable Primitives AssetWire AssetWireCodec AssetDb AssetApplication List
  AssetRuns ChainTables AssetRecipient TxExtra TxMemoryPool PoolAssets Blockchain AcceptedChain
  NodeRuns Runs WalletAssets ToyCrypto ToyNode

structure ShownBy (t : AssetTables Key) (td : AssetTransferDetails) : Prop where
  output : ∃ row ∈ t.outputs.rows, row.key = td.outputId ∧ row.height = td.blockHeight ∧
    row.value.assetId = td.assetId ∧ row.value.destination = td.destination
  spent : td.spent = true → t.keyImages.contains td.keyImage = true

/-- The tables hold what a payload creates and spends. -/
structure Holds (C : Crypto Key) (network : NetworkType) (height : ℕ)
    (p : AssetTransactionPayload Key) (t : AssetTables Key) : Prop where
  outputs : ∀ e ∈ (payloadOutputs p).zipIdx, ∀ id,
    deriveAssetOutputId C network p.carrierPrefixHash e.1 e.2 = .ok id →
      ∃ row ∈ t.outputs.rows, row.key = id ∧ row.height = height ∧
        row.value.assetId = e.1.assetId ∧ row.value.destination = e.1.recipient.destination
  keyImages : ∀ proof ∈ p.ownershipProofs, t.keyImages.contains proof.keyImage = true

/-- The rows of the first tables are rows of the second. -/
structure Grows (t t' : AssetTables Key) : Prop where
  outputs : ∀ row ∈ t.outputs.rows, row ∈ t'.outputs.rows
  keyImages : ∀ row ∈ t.keyImages.rows, row ∈ t'.keyImages.rows

variable (E : Env) (C : Crypto Key) (D : Derivations) (W : Wallet) (t : AssetTables Key)
  (txid : Hash) (height : ℕ)

theorem grows_of_extended (t t' : AssetTables Key) (h : Extended height t t') : Grows t t' := by
  obtain ⟨-, ⟨outs, hout, -⟩, kis, hki, -⟩ := h
  refine ⟨fun row hrow => ?_, fun row hrow => ?_⟩
  · rw [hout]
    exact mem_append_left _ hrow
  · rw [hki]
    exact mem_append_left _ hrow

theorem Grows.contains {t t' : AssetTables Key} (h : Grows t t') (ki : Key)
    (hold : t.keyImages.contains ki = true) : t'.keyImages.contains ki = true := by
  obtain ⟨row, hrow, hkey⟩ := (Table.contains_iff _ _).mp hold
  exact (Table.contains_iff _ _).mpr ⟨row, h.keyImages row hrow, hkey⟩

theorem ShownBy.grows {t t' : AssetTables Key} {td : AssetTransferDetails} (h : ShownBy t td)
    (hg : Grows t t') : ShownBy t' td := by
  obtain ⟨row, hrow, hfacts⟩ := h.output
  exact ⟨⟨row, hg.outputs row hrow, hfacts⟩, fun hspent => hg.contains _ (h.spent hspent)⟩

theorem Holds.grows {C : Crypto Key} {net : NetworkType} {height : ℕ}
    {p : AssetTransactionPayload Key} {t t' : AssetTables Key} (h : Holds C net height p t)
    (hg : Grows t t') : Holds C net height p t' := by
  refine ⟨fun e he id hid => ?_, fun pf hpf => hg.contains _ (h.keyImages pf hpf)⟩
  obtain ⟨row, hrow, hfacts⟩ := h.outputs e he id hid
  exact ⟨row, hg.outputs row hrow, hfacts⟩

theorem holds_apply (net : NetworkType) (height : ℕ) (t t' : AssetTables Key)
    (p : AssetTransactionPayload Key) (ids : List Hash)
    (h : applyAssetTransactionToDb C t p net p.carrierPrefixHash height = (.ok ids, t')) :
    Holds C net height p t' := by
  obtain ⟨issued, hprep, -, hadded⟩ := apply_eq_ok.mp h
  obtain ⟨reg, -, -, hids⟩ := (prepare_eq_ok ..).mp hprep
  rw [candidateIds_eq_ok] at hids
  refine ⟨fun e he id hid => ?_, fun pf hpf => ?_⟩
  · obtain ⟨id', hpair, hder, -⟩ := forall₂_zip_partner hids he
    obtain rfl : id = id' := by simpa using hid.symm.trans hder
    have hrow : _ ∈ outputRows p height ids := mem_map_of_mem hpair
    have hmem := mem_append_right t.outputs.rows hrow
    rw [← hadded.outputs] at hmem
    exact ⟨_, hmem, rfl, rfl, rfl, rfl⟩
  · refine (Table.contains_iff _ _).mpr ⟨{ key := pf.keyImage, height := height, value := () },
      ?_, rfl⟩
    rw [hadded.keyImages, mem_append]
    exact Or.inr (mem_map.mpr ⟨pf, hpf, rfl⟩)

theorem holds_applyAssetPayloads (net : NetworkType) (height : ℕ)
    (pls : List (AssetTransactionPayload Key × Hash)) (t t' : AssetTables Key) (u : Unit)
    (hcar : ∀ q ∈ pls, q.2 = q.1.carrierPrefixHash)
    (h : applyAssetPayloads C net height pls t = (.ok u, t')) :
    ∀ q ∈ pls, Holds C net height q.1 t' := by
  induction pls generalizing t with
  | nil => simp
  | cons q rest ih =>
    obtain ⟨p, car⟩ := q
    obtain ⟨ids, next, happly, hrest⟩ := (applyAssetPayloads_cons_eq_ok ..).mp h
    rw [forall_mem_cons] at hcar ⊢
    obtain rfl : car = p.carrierPrefixHash := hcar.1
    refine ⟨?_, ih next hcar.2 hrest⟩
    exact (holds_apply C net height t next p ids happly).grows
      (grows_of_extended height next t' (extended_applyAssetPayloads C net height rest next t' u
        hrest))

theorem mem_markSpent {height : ℕ} {ki : Key} {tds : List AssetTransferDetails}
    {td : AssetTransferDetails} (h : td ∈ markSpent height ki tds) :
    td ∈ tds ∨ ∃ old ∈ tds, old.keyImage = ki ∧
      td = { old with spent := true, spentHeight := height } := by
  induction tds with
  | nil => cases h
  | cons first rest ih =>
    rw [markSpent] at h
    by_cases hown : first.keyImageKnown ∧ first.keyImage = ki
    · rw [if_pos hown] at h
      rcases mem_cons.mp h with rfl | h
      · exact Or.inr ⟨first, mem_cons_self, hown.2, rfl⟩
      · exact Or.inl (mem_cons_of_mem _ h)
    · rw [if_neg hown] at h
      rcases mem_cons.mp h with rfl | h
      · exact Or.inl mem_cons_self
      · rcases ih h with hold | ⟨old, hold, hmarked⟩
        · exact Or.inl (mem_cons_of_mem _ hold)
        · exact Or.inr ⟨old, mem_cons_of_mem _ hold, hmarked⟩

theorem receiveOutput_cases (car : Hash) (out : PayloadOutput Key) (index : ℕ)
    (subs : List (PublicKey × SubaddressIndex)) (tds : List AssetTransferDetails) :
    receiveOutput C D W txid height car out index subs tds = tds ∨ ∃ id dec sub,
        deriveAssetOutputId C W.nettype car out index = .ok id ∧ (∀ td ∈ tds, td.outputId ≠ id) ∧
        receiveOutput C D W txid height car out index subs tds =
          tds ++ [receivedDetails D W txid height out index id dec sub] := by
  induction subs with
  | nil => exact Or.inl rfl
  | cons ent rest ih =>
    rw [receiveOutput]
    split
    · exact ih
    · rename_i dec _
      split
      · exact Or.inl rfl
      · split
        · exact Or.inl rfl
        · rename_i id hid
          split
          · exact Or.inl rfl
          · rename_i hnew
            refine Or.inr ⟨id, dec, ent.2, hid, ?_, rfl⟩
            intro td htd heq
            exact hnew (any_eq_true.mpr ⟨td, htd, decide_eq_true heq⟩)

theorem shown_markSpent {ki : Key} {tds : List AssetTransferDetails}
    (hheld : t.keyImages.contains ki = true) (h : ∀ td ∈ tds, ShownBy t td) :
    ∀ td ∈ markSpent height ki tds, ShownBy t td := by
  intro td htd
  rcases mem_markSpent htd with hold | ⟨old, hold, himg, rfl⟩
  · exact h td hold
  · refine ⟨(h old hold).output, fun _ => ?_⟩
    change t.keyImages.contains old.keyImage = true
    rw [himg]
    exact hheld

theorem shown_receiveOutput {car : Hash} {out : PayloadOutput Key} {index : ℕ}
    (hheld : ∀ id, deriveAssetOutputId C W.nettype car out index = .ok id →
      ∃ row ∈ t.outputs.rows, row.key = id ∧ row.height = height ∧ row.value.assetId = out.assetId ∧
        row.value.destination = out.recipient.destination)
    {subs : List (PublicKey × SubaddressIndex)} {tds : List AssetTransferDetails}
    (h : ∀ td ∈ tds, ShownBy t td) : ∀ td ∈ receiveOutput C D W txid height car out index subs tds,
      ShownBy t td := by
  rcases receiveOutput_cases C D W txid height car out index subs tds with
    hsame | ⟨id, dec, sub, hid, -, hadded⟩
  · rw [hsame]
    exact h
  · rw [hadded]
    intro td htd
    rcases mem_append.mp htd with htd | htd
    · exact h td htd
    · rw [mem_singleton.mp htd]
      exact ⟨hheld id hid, fun hspent => by cases hspent⟩

theorem shown_scanPayload {p : AssetTransactionPayload Key} (hholds : Holds C W.nettype height p t)
    {tds : List AssetTransferDetails} (h : ∀ td ∈ tds, ShownBy t td) :
    ∀ td ∈ scanPayload C D W txid height p tds, ShownBy t td := by
  unfold scanPayload
  refine List.foldlRecOn (motive := fun tds => ∀ td ∈ tds, ShownBy t td) _ _ ?_ ?_
  · refine List.foldlRecOn (motive := fun tds => ∀ td ∈ tds, ShownBy t td) _ _ h ?_
    intro tds htrs pf hpf
    exact shown_markSpent t height (hholds.keyImages pf hpf) htrs
  · intro tds htrs out houtput
    exact shown_receiveOutput C D W t txid height (hholds.outputs out houtput) htrs

/-- The wallet and the node read the same payload from a transaction: an envelope names a public
network, and on a public network the node's asset network is the wallet's network. -/
theorem envelope_of_wallet {tx : Transaction} {ver : ℕ}
    (hact : hfVersionMonzeroAssets ≤ ver) {p : AssetTransactionPayload Key}
    (h : parseNativeAssetTransaction E.C E.H tx.toTransactionPrefix ver E.network = .ok (some p)) :
    E.assetNetwork = E.network ∧ envelope E tx = .ok (some p) := by
  have hpub : E.network.isPublic = true := by
    have hfacts := h
    simp only [parseNativeAssetTransaction, bind_eq_ok] at hfacts
    obtain ⟨found, -, hfacts⟩ := hfacts
    cases found with
    | none => simp [pure_eq_ok] at hfacts
    | some encoded =>
      simp only [bind_eq_ok, failIf_eq_ok, pure_eq_ok, exists_unit, Option.some.injEq, ne_eq,
        not_not] at hfacts
      obtain ⟨-, -, -, -, -, -, dec, hdec, hnet, -, rfl⟩ := hfacts
      have hshape := (decoded_facts hdec).1
      simp only [validateAssetTransactionPayloadShape, bind_eq_ok, failIf_eq_ok, exists_unit,
        Bool.not_eq_false] at hshape
      rw [← hnet]
      exact hshape.2.1
  have hnet : E.assetNetwork = E.network := by
    rw [Env.assetNetwork, if_neg]
    intro hfake
    rw [hfake] at hpub
    cases hpub
  refine ⟨hnet, ?_⟩
  rw [← payload_of_active E tx hact, Env.payload, hnet]
  exact h

theorem shown_transaction (hnet : W.nettype = E.network) {t : AssetTables Key} {txid : Hash}
    {tx : Transaction} {height : ℕ} {ver : ℕ}
    (hholds : hfVersionMonzeroAssets ≤ ver → ∀ p, envelope E tx = .ok (some p) →
      Holds E.C E.assetNetwork height p t)
    {tds : List AssetTransferDetails} (h : ∀ td ∈ tds, ShownBy t td) :
    ∀ td ∈ processNewTransaction E.C E.H D W txid tx height ver false tds, ShownBy t td := by
  unfold processNewTransaction scanAssetOutputs
  by_cases hact : hfVersionMonzeroAssets ≤ ver
  · rw [if_neg (by simp; omega)]
    split
    · exact h
    · exact h
    · rename_i p hprs
      rw [hnet] at hprs
      obtain ⟨hnetwork, henv⟩ := envelope_of_wallet E hact hprs
      have hheld := hholds hact p henv
      rw [hnetwork, ← hnet] at hheld
      exact shown_scanPayload E.C D W t txid height hheld h
  · rw [if_pos (Or.inr (by omega))]
    exact h

theorem scan_without_payload {H : TransactionHashes} (D : Derivations) {W : Wallet} {txid : Hash}
    {tx : Transaction} {height ver : ℕ} (pool : Bool)
    (hnone : ∀ p, parseNativeAssetTransaction C H tx.toTransactionPrefix ver W.nettype ≠
      .ok (some p)) (tds : List AssetTransferDetails) :
    processNewTransaction C H D W txid tx height ver pool tds = tds := by
  unfold processNewTransaction scanAssetOutputs
  split
  · rfl
  · split
    · rfl
    · rfl
    · rename_i p hprs
      exact absurd hprs (hnone p)

/-- No miner transaction that the wallet scans carries a payload. -/
def NoMinerPayload (E : Env) (W : Wallet) (blocks : List StoredBlock) : Prop :=
  W.refreshNoCoinbase = false → ∀ b ∈ blocks, ∀ p,
    parseNativeAssetTransaction E.C E.H b.block.minerTx.toTransactionPrefix
      (W.majorVersion b.block) W.nettype ≠ .ok (some p)

theorem shown_block (hnet : W.nettype = E.network) {db : Db} {b : StoredBlock} {t : AssetTables Key}
    (hacc : Accepted E db b t) (hver : W.majorVersion b.block = E.hardFork db.blocks)
    (hminer : NoMinerPayload E W [b]) {tds : List AssetTransferDetails}
    (h : ∀ td ∈ tds, ShownBy db.assets td) :
    ∀ td ∈ processNewBlockchainEntry E.C E.H D W b db.height tds, ShownBy t td := by
  have hgrows := grows_of_extended db.height db.assets t
    (extended_applyAssetPayloads E.C E.assetNetwork db.height _ db.assets t () hacc.applied)
  have hstart : ∀ td ∈ tds, ShownBy t td := fun td htd => (h td htd).grows hgrows
  have hcar : ∀ q ∈ payloadsOf E (E.hardFork db.blocks) b.txs, q.2 = q.1.carrierPrefixHash := by
    intro q hq
    obtain ⟨tx, -, hpay⟩ := mem_filterMap.mp hq
    split at hpay
    · cases hpay
      rfl
    · cases hpay
  have hholds := holds_applyAssetPayloads E.C E.assetNetwork db.height _ db.assets t () hcar
    hacc.applied
  unfold processNewBlockchainEntry
  split
  · exact hstart
  · have hcoinbase : (if W.refreshNoCoinbase then tds
        else processNewTransaction E.C E.H D W (E.H.txHash b.block.minerTx) b.block.minerTx
          db.height (W.majorVersion b.block) false tds) = tds := by
      cases hrefresh : W.refreshNoCoinbase with
      | true => rfl
      | false =>
        exact scan_without_payload E.C D false (hminer hrefresh b (mem_singleton_self b)) tds
    rw [hcoinbase]
    refine List.foldlRecOn (motive := fun tds => ∀ td ∈ tds, ShownBy t td) _ _ hstart ?_
    intro tds' htrs ent hent
    refine shown_transaction E D W hnet ?_ htrs
    intro hact p hp
    rw [hver] at hact
    refine hholds (p, p.carrierPrefixHash) (mem_filterMap.mpr ⟨ent.2, (of_mem_zip hent).2, ?_⟩)
    rw [blockPayload_of_active E _ _ hact, hp]

theorem shown_built (hnet : W.nettype = E.network)
    (hver : ∀ blocks block, E.checkHeader blocks block = true →
      W.majorVersion block = E.hardFork blocks) {base db : Db} {bs : List StoredBlock}
    (h : Built E base bs db) (hminer : NoMinerPayload E W db.blocks)
    (hbase : ∀ td ∈ scanChain E.C E.H D W base.blocks, ShownBy base.assets td) :
    ∀ td ∈ scanChain E.C E.H D W db.blocks, ShownBy db.assets td := by
  induction h with
  | base => exact hbase
  | @block bs db b t below accepted ih =>
    have hbelow := ih fun hrefresh c hc => hminer hrefresh c (mem_cons_of_mem _ hc)
    refine shown_block E D W hnet accepted (hver _ _ accepted.header) ?_ hbelow
    intro hrefresh c hc
    rw [mem_singleton.mp hc]
    exact hminer hrefresh b mem_cons_self

/-- For every run of a node from a genesis block, and every wallet that scans its chain and no
miner transaction with a payload on it: each transfer of the wallet is in the node's output
table with the same asset, destination and height, and each spent one has its key image in the
node's key image table. -/
theorem wallet_shows_chain_assets (E : Env) (D : Derivations) (W : Wallet) (start node : Node)
    (events : List NodeEvent) (run : Run (NodeStep E) start events node)
    (hgenesis : ∃ genesis, start.db.blocks = [genesis] ∧ genesis.txs = [])
    (hassets : start.db.assets = .empty) (hpool : start.pool.table.rows = [])
    (hnet : W.nettype = E.network)
    (hversion : ∀ blocks block, E.checkHeader blocks block = true →
      W.majorVersion block = E.hardFork blocks)
    (hminer : NoMinerPayload E W node.db.blocks) :
    ∀ td ∈ scanChain E.C E.H D W node.db.blocks,
      (∃ row ∈ node.db.assets.outputs.rows, row.key = td.outputId ∧
        row.height = td.blockHeight ∧ row.value.assetId = td.assetId ∧
        row.value.destination = td.destination) ∧
      (td.spent = true → node.db.assets.keyImages.contains td.keyImage = true) := by
  obtain ⟨genesis, hblocks, htxs⟩ := hgenesis
  have hheight : start.db.height = 1 := by simp [BlockchainDb.height, hblocks]
  have hempty : start.db.assets.Below start.db.height := by
    rw [hassets]
    exact ⟨by simp [AssetTables.empty], by simp [AssetTables.empty], by simp [AssetTables.empty]⟩
  obtain ⟨⟨bs, hbuilt⟩, -⟩ := grown_run E run hheight hempty
    (by simp [PoolAccounts.Canonical, hpool])
  have hnone : scanChain E.C E.H D W start.db.blocks = [] := by
    have hmem : genesis ∈ node.db.blocks := by
      rw [built_blocks E start.db node.db bs hbuilt, hblocks]
      exact mem_append_right _ (mem_singleton_self _)
    rw [hblocks, scanChain, processNewBlockchainEntry, htxs, zip_nil_right]
    split
    · rfl
    · cases hrefresh : W.refreshNoCoinbase with
      | true => rfl
      | false =>
        exact scan_without_payload E.C D false (hminer hrefresh genesis hmem) _
  intro td htd
  have hshown := shown_built E D W hnet hversion hbuilt hminer (by rw [hnone]; simp) td htd
  exact ⟨hshown.output, hshown.spent⟩

/-- Derivations in which the one-time key depends on the shared secret, the index and the spend
key. -/
def sumDerivations : Derivations where
  generateKeyDerivation txPublicKey viewSecretKey :=
    some (keyOfNat (leValue txPublicKey.bytes * leValue viewSecretKey.bytes % 2 ^ 64))
  deriveViewTag _ _ := 0
  derivePublicKey derivation index spendPublicKey :=
    some (keyOfNat (leValue derivation.bytes + 1000 * index + leValue spendPublicKey.bytes))
  derivationToScalar _ _ := Blob.zero 32
  ecdhDecode tuple _ := tuple
  h2d _ := 1

/-- A wallet whose key images are the one-time keys. It owns the outputs to destination 21 that
are the first of their payload. -/
def sumWallet : Wallet where
  nettype := .mainnet
  viewSecretKey := keyOfNat 1
  subaddresses := [(keyOfNat 12, { major := 0, minor := 0 })]
  watchOnly := false
  multisig := false
  backgroundSyncing := false
  keyImageOf destination _ _ _ := some destination
  shouldSkipBlock _ _ := false
  refreshNoCoinbase := false
  majorVersion _ := hfVersionMonzeroAssets

/-- What that wallet shows of a node's chain. -/
def shownTransfers (node : Node) : List AssetTransferDetails :=
  scanChain toy toyHashes sumDerivations sumWallet node.db.blocks

/-- An issuance to the wallet, with enough outputs for a ring. -/
def ringIssuance : AssetTransactionPayload Key :=
  issueTo .mainnet (carrierOf 1) sampleCollection (21 :: (List.range 15).map (100 + ·))

/-- A payload that spends the issued unit and pays it back to the wallet. -/
def payback : AssetTransactionPayload Key :=
  { issuance 2 sampleCollection with
    issuance := none
    ownershipProofs := [
      { assetId := idOf sampleCollection,
        pseudoInput := toy.commit 1 toy.zero,
        keyImage := keyOfNat 21,
        ring := ringOf toy ringIssuance,
        signature :=
          { s := List.replicate 16 toy.zero, c1 := toy.zero, I := keyOfNat 21, D := toy.zero } }] }

def paidTxs : List Transaction := [carry 1 ringIssuance, carry 2 payback]

/-- The node after a block for each of the two transactions. -/
def paidNode : Node :=
  paidTxs.foldl (fun node tx => withBlock node [tx] [tx]) startNode

/-- The wallet shows the spent unit and the one that it got back, and the node has both. -/
theorem wallet_shows_chain_assets_sample :
    (shownTransfers paidNode).map AssetTransferDetails.spent = [true, false] ∧
      ∀ td ∈ shownTransfers paidNode,
        (∃ row ∈ paidNode.db.assets.outputs.rows, row.key = td.outputId ∧
          row.height = td.blockHeight ∧ row.value.assetId = td.assetId ∧
          row.value.destination = td.destination) ∧
        (td.spent = true → paidNode.db.assets.keyImages.contains td.keyImage = true) := by
  have hfacts : (handleBlockToMainChain toyEnv clock startNode (blockOf [carry 1 ringIssuance])
        [carry 1 ringIssuance]).1 = .ok () ∧
      (handleBlockToMainChain toyEnv clock
        (withBlock startNode [carry 1 ringIssuance] [carry 1 ringIssuance])
        (blockOf [carry 2 payback]) [carry 2 payback]).1 = .ok () ∧
      (shownTransfers paidNode).map AssetTransferDetails.spent = [true, false] ∧
      (∀ b ∈ paidNode.db.blocks, b.block.minerTx = minerTx) ∧
      parseNativeAssetTransaction toy toyHashes minerTx.toTransactionPrefix
        hfVersionMonzeroAssets .mainnet = .ok none := by
    decide +kernel
  obtain ⟨hissued, hpaid, hspent, hminers, hplain⟩ := hfacts
  refine ⟨hspent, wallet_shows_chain_assets toyEnv sumDerivations sumWallet startNode paidNode _
    (.cons (.block startNode _ _ _ clock (withBlock_result hissued))
      (.cons (.block _ _ _ _ clock (withBlock_result hpaid)) (.nil _)))
    ⟨_, rfl, rfl⟩ rfl rfl rfl (fun _ _ _ => rfl) ?_⟩
  intro _ b hb p hparse
  rw [hminers b hb] at hparse
  exact absurd (hplain.symm.trans hparse) (by simp)

/-- The node after a block with one issuance to the wallet. -/
def issuedNode : Node := withBlock startNode [firstIssue] [firstIssue]

/-- A miner transaction that carries the issuance of an asset to destination 21. -/
def minerWithEnvelope : Transaction :=
  { minerTx with
    extra := 0x7A :: writeString (((encodeAssetTransactionPayload toy (issue .mainnet
      (toyHashes.prefixHash minerTx.toTransactionPrefix) sampleCollection 21)).toOption).getD []) }

/-- A block with that miner transaction and no other. -/
def minerBlock : Block := { minerTx := minerWithEnvelope, txHashes := [], other := [] }

/-- The node accepts the block and stores no asset; the wallet shows one. -/
theorem wallet_shows_miner_envelope :
    ∃ node, Run (NodeStep toyEnv) startNode [.block minerBlock [] clock] node ∧
      node.db.assets.outputs.rows = [] ∧
      (shownTransfers node).map AssetTransferDetails.amount = [1] := by
  have hfacts : (handleBlockToMainChain toyEnv clock startNode minerBlock []).1 = .ok () ∧
      (handleBlockToMainChain toyEnv clock startNode minerBlock []).2.db.assets.outputs.rows = [] ∧
      (shownTransfers (handleBlockToMainChain toyEnv clock startNode minerBlock []).2).map
        AssetTransferDetails.amount = [1] := by
    decide +kernel
  exact ⟨_, .cons (.block startNode _ _ _ clock (Prod.ext hfacts.1 rfl)) (.nil _), hfacts.2⟩

/-- Nothing was received or spent from a height on. -/
def UntouchedFrom (height : ℕ) (transfers : List AssetTransferDetails) : Prop :=
  ∀ td ∈ transfers, td.blockHeight < height ∧ (td.spent = true → td.spentHeight < height)

/-- Detaching changes nothing exactly when nothing was received or spent from the height on. -/
theorem detach_eq_self_iff {tds : List AssetTransferDetails} :
    detachAssetTransfers height tds = tds ↔ UntouchedFrom height tds := by
  unfold detachAssetTransfers
  constructor
  · intro h td htd
    -- An element of the result has passed the filter, and it is the image of some transfer.
    have hall : ∀ td ∈ tds, td.blockHeight < height := by
      intro td htd
      rw [← h] at htd
      have hkept := (mem_filter.mp htd).2
      rw [decide_eq_true_eq] at hkept
      omega
    refine ⟨hall td htd, fun hspent => ?_⟩
    by_contra hlate
    have hkeep : ∀ x ∈ tds.map fun td =>
        if td.spent = true ∧ td.spentHeight ≥ height then
          { td with spent := false, spentHeight := 0 }
        else td, decide (¬x.blockHeight ≥ height) = true := by
      intro x hx
      obtain ⟨y, hy, rfl⟩ := mem_map.mp hx
      have hlow := hall y hy
      rw [decide_eq_true_eq]
      split
      · exact Nat.not_le.mpr hlow
      · exact Nat.not_le.mpr hlow
    rw [filter_eq_self.mpr hkeep] at h
    have hsame := map_inj_left.mp (h.trans (map_id tds).symm) td htd
    rw [if_pos ⟨hspent, Nat.not_lt.mp hlate⟩, id_eq] at hsame
    rw [← hsame] at hspent
    cases hspent
  · intro h
    have hmap : (tds.map fun td =>
        if td.spent = true ∧ td.spentHeight ≥ height then
          { td with spent := false, spentHeight := 0 }
        else td) = tds := by
      refine (map_congr_left fun td htd => ?_).trans (map_id tds)
      rw [if_neg, id_eq]
      rintro ⟨hspent, hlate⟩
      have hlow := (h td htd).2 hspent
      omega
    rw [hmap, filter_eq_self]
    intro td htd
    rw [decide_eq_true_eq]
    have hlow := (h td htd).1
    omega

theorem process_inactive (H : TransactionHashes) (D : Derivations) (W : Wallet)
    (es : List ProcessTxEntry) (pool : ProcessTxEntry → Bool) (tds : List AssetTransferDetails) :
    es.foldl (fun tds ent => processNewTransaction C H D W ent.txHash ent.tx
      ent.blockHeight 0 (pool ent) tds) tds = tds := by
  induction es with
  | nil => rfl
  | cons ent rest ih =>
    rw [foldl_cons]
    have hskip : processNewTransaction C H D W ent.txHash ent.tx ent.blockHeight 0
        (pool ent) tds = tds := by
      rw [processNewTransaction, scanAssetOutputs, if_pos (Or.inr (by decide))]
    rw [hskip]
    exact ih

/-- For every scanned chain, every height and whatever transactions are processed again after
detaching at it, by either driver: the transfers are those of the plain scan exactly when the
scan found nothing received or spent from the height on. -/
theorem reprocessing_keeps_transfers_iff (C : Crypto Key) (H : TransactionHashes)
    (D : Derivations) (W : Wallet) (blocks : List StoredBlock) (height : ℕ)
    (entries : List ProcessTxEntry) :
    (processScanTxs C H D W entries (detachAssetTransfers height (scanChain C H D W blocks)) =
        scanChain C H D W blocks ↔ UntouchedFrom height (scanChain C H D W blocks)) ∧
      (processBackgroundCache C H D W height entries (scanChain C H D W blocks) =
        scanChain C H D W blocks ↔ UntouchedFrom height (scanChain C H D W blocks)) := by
  refine ⟨?_, ?_⟩
  · rw [processScanTxs, process_inactive C H D W entries ProcessTxEntry.inPool]
    exact detach_eq_self_iff height
  · rw [processBackgroundCache, process_inactive C H D W entries fun _ => false]
    exact detach_eq_self_iff height

/-- The wallet scans a block that sends it an asset, detaches at its height and processes the
transaction again: the asset is gone, by both drivers. -/
theorem reprocessing_loses_transfer :
    (shownTransfers issuedNode).map AssetTransferDetails.amount = [1] ∧
      processScanTxs toy toyHashes sumDerivations sumWallet
        [{ txHash := toyHashes.txHash firstIssue, tx := firstIssue, blockHeight := 1,
           inPool := false }] (detachAssetTransfers 1 (shownTransfers issuedNode)) = [] ∧
      processBackgroundCache toy toyHashes sumDerivations sumWallet 1
        [{ txHash := toyHashes.txHash firstIssue, tx := firstIssue, blockHeight := 1,
           inPool := false }] (shownTransfers issuedNode) = [] := by
  decide +kernel

end Monzero.WalletConsistency
