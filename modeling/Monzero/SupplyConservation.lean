import Monzero.BalanceConservation
import Monzero.ChainTables
import Monzero.Clsag

/-!
The fixed supply of every registered asset is conserved by every run. One application
adds to the stored outputs what it consumes and issues, less what it burns; over a
chain these add up, and a detached block takes its part away again. The amounts
consumed are those of stored outputs.
-/
namespace Monzero.SupplyConservation

open Bytes Checked IndexedTable Primitives AssetTypes IssuanceCodec AssetRegistry List
  AssetConfidential AssetWire AssetDb AssetApplication AssetRuns ChainTables Runs
  BalanceConservation Ledger Clsag ToyCrypto
open AssetTables (empty)

variable {B K : Type} [DecidableEq K] {C : Crypto K} {order : ℕ}

/-- The stored outputs, with the amounts they hide. -/
def storedEntries (I : Ideal C order) (t : AssetTables K) : List (Hash × ℕ) :=
  t.outputs.rows.map fun r => (r.value.assetId, I.amount r.value.commitment)

/-- The supply a stored issuance declares. -/
def declaredSupply (C : Crypto K) (encoded : List UInt8) : ℕ :=
  match decodeIssuancePayload C encoded with
  | .ok i => i.descriptor.atomicSupply.toNat
  | .error _ => 0

/-- The registered assets, with their supplies. -/
def registeredEntries (C : Crypto K) (t : AssetTables K) : List (Hash × ℕ) :=
  t.records.rows.map fun r => (r.key, declaredSupply C r.value)

/-- The amounts that payloads burn. -/
def burnedTotal (I : Ideal C order) (a : Hash)
    (payloads : List (AssetTransactionPayload K × Hash)) : ℕ :=
  total a (payloads.flatMap fun e => burnedEntries I e.1)

/-- The amounts that the ownership proofs of payloads consume. -/
def consumedTotal (I : Ideal C order) (a : Hash)
    (payloads : List (AssetTransactionPayload K × Hash)) : ℕ :=
  total a (payloads.flatMap fun e => consumedEntries I e.1)

variable {t t' : AssetTables K} {proof : AssetOwnershipProof K} {car : Hash} {u : Unit}
  {p : AssetTransactionPayload K} {ids : List Hash} {height : ℕ}
  {history : List (AssetTransactionPayload K × Hash)} {chain : PayloadChain K}

/-- What the database check of an ownership proof establishes: every ring member is a stored output
of the asset, and the signature verifies over the ring. -/
theorem ownership_facts {net : NetworkType}
    (h : verifyAssetOwnershipAgainstDb C t proof net car = .ok u) :
    (∀ member ∈ proof.ring, ∃ row ∈ t.outputs.rows, row.value.assetId = proof.assetId ∧
        row.value.commitment = member.publicOutput.mask) ∧
      ∃ msg, C.verRctCLSAGSimple msg { proof.signature with I := proof.keyImage }
        (proof.ring.map AssetRingMember.publicOutput) proof.pseudoInput = true := by
  simp only [verifyAssetOwnershipAgainstDb, verifyAssetOwnershipProof, bind_eq_ok, failIf_eq_ok,
    exists_unit, checkAll_eq_ok, Bool.not_eq_true, Bool.not_eq_false] at h
  obtain ⟨-, hring, msg, -, -, hsig⟩ := h
  refine ⟨?_, msg, hsig⟩
  intro member hmem
  have hst := hring member hmem
  unfold checkRingMemberAgainstDb at hst
  split at hst
  · cases hst
  · rename_i row hget
    simp only [bind_eq_ok, failIf_eq_ok, exists_unit, not_or, not_not, ne_eq] at hst
    obtain ⟨⟨hasset, hpf⟩, -, hmask⟩ := hst
    exact ⟨row, t.outputs.mem_of_get _ _ hget, hasset.trans hpf, hmask⟩

variable (I : Ideal C order) (network : NetworkType)

/-- An accepted proof consumes the amount of a stored output of its asset. -/
theorem proof_consumes {net : NetworkType}
    (h : verifyAssetOwnershipAgainstDb C t proof net car = .ok u) :
    ∃ row ∈ t.outputs.rows, row.value.assetId = proof.assetId ∧
      I.amount row.value.commitment = I.amount proof.pseudoInput := by
  obtain ⟨hring, msg, hsig⟩ := ownership_facts h
  obtain ⟨key, hkey, hamt, -⟩ := I.linked _ _ _ _ hsig
  obtain ⟨member, hmem, rfl⟩ := mem_map.mp hkey
  obtain ⟨row, hrow, hasset, hmask⟩ := hring member hmem
  refine ⟨row, hrow, hasset, ?_⟩
  rw [hmask, Ideal.amount, Ideal.amount, hamt]

omit [DecidableEq K] in
theorem map_outputRows (height : ℕ) (h : ids.length = (payloadOutputs p).length) :
    (outputRows p height ids).map (fun r => (r.value.assetId, I.amount r.value.commitment)) =
      createdEntries I p := by
  have hsnd : (ids.zip (payloadOutputs p).zipIdx).map Prod.snd = (payloadOutputs p).zipIdx :=
    map_snd_zip (by simp [h])
  have houts : (ids.zip (payloadOutputs p).zipIdx).map (fun e => e.2.1) = payloadOutputs p :=
    calc (ids.zip (payloadOutputs p).zipIdx).map (fun e => e.2.1)
        = ((ids.zip (payloadOutputs p).zipIdx).map Prod.snd).map Prod.fst := by
          rw [map_map]; rfl
      _ = (payloadOutputs p).zipIdx.map Prod.fst := by rw [hsnd]
      _ = payloadOutputs p := zipIdx_map_fst 0 _
  rw [createdEntries, ← houts, map_map, outputRows, map_map]
  rfl

omit [DecidableEq K] in
theorem map_recordRows {reg : Registry} {iss : Option IssuancePayload}
    {issued : Option (Hash × List UInt8)} {iid : Option Hash}
    (hder : deriveIssuedId C (iss.map IssuancePayload.descriptor) = .ok iid)
    (h : prepareIssuance C reg height iss = .ok issued) :
    (recordRows height issued).map (fun r => (r.key, declaredSupply C r.value)) =
      issuedEntries (iss.map IssuancePayload.descriptor) iid := by
  rcases (prepareIssuance_eq_ok ..).mp h with ⟨rfl, rfl⟩ | ⟨i, r, id, enc, rfl, happly, henc,
    rfl⟩
  · rfl
  · obtain ⟨hid, -⟩ := Registry.applyIssuance_eq_ok.mp happly
    simp only [Option.map_some, deriveIssuedId, bind_eq_ok, pure_eq_ok, hid, Except.ok.injEq,
      exists_eq_left'] at hder
    have hdec := decode_encode_payload C i enc henc
    simp [recordRows, declaredSupply, hdec, ← hder, issuedEntries]

/-- What is stored and burned of an asset is what was consumed of it and its registered
supply; stored amounts fit 64 bits. -/
structure Conserved (I : Ideal C order) (history : List (AssetTransactionPayload K × Hash))
    (t : AssetTables K) : Prop where
  bounded : ∀ e ∈ storedEntries I t, e.2 < 2 ^ 64
  totals : ∀ a, total a (storedEntries I t) + burnedTotal I a history =
    consumedTotal I a history + total a (registeredEntries C t)

theorem apply_conserves {net : NetworkType} (hconserved : Conserved I history t)
    (h : applyAssetTransactionToDb C t p net car height = (.ok ids, t')) :
    Conserved I (history ++ [(p, car)]) t' := by
  obtain ⟨issued, hprep, -, happ⟩ := apply_eq_ok.mp h
  obtain ⟨reg, hchk, hiss, hids⟩ := (prepare_eq_ok ..).mp hprep
  have hpfs : ∀ proof ∈ p.ownershipProofs, I.Bounded proof.pseudoInput := by
    intro proof hpf
    obtain ⟨row, hrow, -, hamount⟩ := proof_consumes I (hchk.owned proof hpf)
    rw [Ideal.Bounded, ← hamount]
    exact hconserved.bounded _ (mem_map_of_mem hrow)
  obtain ⟨iid, hder, hcreated, htotals⟩ :=
    payload_conserves I hchk.payload hpfs
  have hlen : ids.length = (payloadOutputs p).length := by
    have hforall := (candidateIds_eq_ok ..).mp hids
    rw [← hforall.length_eq, length_zipIdx]
  have hout : storedEntries I t' = storedEntries I t ++ createdEntries I p := by
    rw [storedEntries, happ.outputs, map_append, map_outputRows I height hlen, storedEntries]
  have hrec : registeredEntries C t' = registeredEntries C t ++
      issuedEntries (p.issuance.map IssuancePayload.descriptor) iid := by
    rw [registeredEntries, happ.records, map_append, map_recordRows hder hiss, registeredEntries]
  refine ⟨?_, fun a => ?_⟩
  · intro e he
    rw [hout, mem_append] at he
    rcases he with he | he
    · exact hconserved.bounded e he
    · exact hcreated e he
  · have hbefore := hconserved.totals a
    have hmoved := htotals a
    simp only [burnedTotal, consumedTotal, hout, hrec, flatMap_append, flatMap_cons,
      flatMap_nil, append_nil, total_append] at hbefore ⊢
    omega

theorem attached_conserves (h : Attached C network chain t) : Conserved I (accepted chain) t := by
  refine attached_history C network (Conserved I) ?_ ?_ chain t h
  · exact ⟨by simp [storedEntries, empty], fun a => rfl⟩
  · intro history t p car height ids t' hconserved happly
    exact apply_conserves I hconserved happly

omit [DecidableEq K] in
theorem total_registeredEntries (C : Crypto K) {row : Row Hash (List UInt8)}
    (hrow : row ∈ t.records.rows) :
    total row.key (registeredEntries C t) = declaredSupply C row.value := by
  refine total_of_nodup _ ?_ (row.key, _) (mem_map_of_mem hrow)
  rw [registeredEntries, map_map]
  exact t.records.keys_nodup

/-- In every reachable database and for every registered asset, what is stored of it, less
what accepted ownership proofs consumed, plus what was burned, is its fixed supply. -/
theorem supply_conserved (I : Ideal C order) (network : NetworkType)
    (events : List (AssetEvent B K)) (db : BlockchainDb B K)
    (run : Run (AssetStep C network) ⟨[], .empty⟩ events db) (row : Row Hash (List UInt8))
    (hrow : row ∈ db.assets.records.rows) :
    ∃ issuance, decodeIssuancePayload C row.value = .ok issuance ∧
      (total row.key (storedEntries I db.assets) : ℤ) -
          consumedTotal I row.key (accepted (chainAfter [] events)) +
          burnedTotal I row.key (accepted (chainAfter [] events)) =
        issuance.descriptor.atomicSupply.toNat := by
  obtain ⟨hattached, -⟩ := run_attached C network [] run .nil rfl
  obtain ⟨issuance, hdecode⟩ := attached_records_decode C network hattached row hrow
  have hsupply := total_registeredEntries C hrow
  simp only [declaredSupply, hdecode] at hsupply
  have htotal := (attached_conserves I network hattached).totals row.key
  refine ⟨issuance, hdecode, ?_⟩
  omega

/-- Primitives whose commitments and one-time keys are plain pairs of numbers. -/
def visible : Crypto (ℕ × ℕ) where
  cnFastHash := polynomialHash
  checkKey _ := true
  checkSignature digest key signature := signature = sign digest key
  keyBytes key := keyOfNat (key.1 + 2 ^ 128 * key.2)
  hashToKey digest := (leValue digest.bytes, 0)
  identity := (1, 0)
  zero := (0, 0)
  isInMainSubgroup _ := true
  commit amount mask := (amount.toNat, mask.2)
  addKeys keys := keys.sum
  scalarmult8 key := key
  bulletproofPlusVerify proof := some (proof.V.all fun v => v.1 < 2 ^ 64)
  verRctCLSAGSimple _ signature ring offset :=
    ring.any fun member => member.mask.1 = offset.1 ∧ signature.I = member.dest

/-- The primitives of `visible` are ideal. -/
def visibleIdeal : Ideal visible curveOrder where
  opening key := (key.1, key.2)
  order_large := by decide
  commit_zero _ := rfl
  addKeys_opening keys := map_list_sum
    ((Nat.castAddMonoidHom (ZMod curveOrder)).prodMap (Nat.castAddMonoidHom (ZMod curveOrder))) keys
  range := by
    intro proof hproof v hv
    have hall : proof.V.all (fun v => v.1 < 2 ^ 64) = true := Option.some.inj hproof
    have hlt : v.1 < 2 ^ 64 := by simpa using all_eq_true.mp hall v hv
    have horder : 2 ^ 64 < curveOrder := by decide
    show (v.1 : ZMod curveOrder).val < 2 ^ 64
    rw [ZMod.val_natCast_of_lt (hlt.trans horder)]
    exact hlt
  keyImage key := key
  linked := by
    intro message signature ring offset h
    obtain ⟨member, hmember, hlink⟩ := any_eq_true.mp h
    obtain ⟨hamount, himage⟩ := of_decide_eq_true hlink
    exact ⟨member, hmember, congrArg Nat.cast hamount, himage⟩

def visibleProof (commitments : List (ℕ × ℕ)) : BulletproofPlus (ℕ × ℕ) where
  V := commitments
  A := 0
  A1 := 0
  B := 0
  r1 := 0
  s1 := 0
  d1 := 0
  L := [0]
  R := [0]

def visibleRecipient (destination : ℕ) : AssetRecipientData (ℕ × ℕ) where
  destination := (destination, 0)
  txPublicKey := keyOfNat 9
  encryptedAmount := { mask := 0, amount := 0 }
  viewTag := 0

def sampleDescriptor : IssuanceDescriptor :=
  { unitDescriptor .mainnet .fungible 1 (keyOfNat 0) (keyOfNat 0) with atomicSupply := 20 }

/-- Twenty units, issued to sixteen outputs. -/
def sampleIssuance : AssetTransactionPayload (ℕ × ℕ) where
  version := assetTransactionWireVersion
  network := .mainnet
  carrierPrefixHash := keyOfNat 1
  issuance := some (signedIssuance sampleDescriptor)
  balances := [
    { assetId := idOf sampleDescriptor,
      pseudoInputs := [{ sourceAssetId := idOf sampleDescriptor, commitment := (20, 0) }],
      outputs := (5, 0) :: List.replicate 15 (1, 0),
      burns := [],
      rangeProofs := [visibleProof ((5, 0) :: List.replicate 15 (1, 0))] }]
  outputRecipients := [(List.range 16).map fun i => visibleRecipient (100 + i)]
  ownershipProofs := []

/-- A transfer that spends the output of five units and burns two of them. -/
def sampleTransfer : AssetTransactionPayload (ℕ × ℕ) where
  version := assetTransactionWireVersion
  network := .mainnet
  carrierPrefixHash := keyOfNat 2
  issuance := none
  balances := [
    { assetId := idOf sampleDescriptor,
      pseudoInputs := [{ sourceAssetId := idOf sampleDescriptor, commitment := (5, 7) }],
      outputs := [(3, 1)],
      burns := [(2, 6)],
      rangeProofs := [visibleProof [(3, 1), (2, 6)]] }]
  outputRecipients := [[visibleRecipient 200]]
  ownershipProofs := [
    { assetId := idOf sampleDescriptor,
      pseudoInput := (5, 7),
      keyImage := (100, 0),
      ring := ringOf visible sampleIssuance,
      signature := { s := List.replicate 16 0, c1 := 0, I := 0, D := 0 } }]

/-- The database after the issuance. -/
def sampleIssued : BlockchainDb Unit (ℕ × ℕ) :=
  ⟨[()], (applyAssetPayloads visible .mainnet 0 [(sampleIssuance, keyOfNat 1)] .empty).2⟩

/-- A database with the block of the transfer attached. -/
def withTransfer (db : BlockchainDb Unit (ℕ × ℕ)) : BlockchainDb Unit (ℕ × ℕ) :=
  ⟨() :: db.blocks,
    (applyAssetPayloads visible .mainnet db.height [(sampleTransfer, keyOfNat 2)] db.assets).2⟩

def sampleEvents : List (AssetEvent Unit (ℕ × ℕ)) :=
  [.attach () [(sampleIssuance, keyOfNat 1)], .attach () [(sampleTransfer, keyOfNat 2)], .detach,
    .attach () [(sampleTransfer, keyOfNat 2)]]

theorem issuance_attached :
    AssetStep visible .mainnet ⟨[], .empty⟩ (.attach () [(sampleIssuance, keyOfNat 1)])
      sampleIssued :=
  step_attach visible .mainnet ⟨[], .empty⟩ () (by decide +kernel)

theorem transfer_attached :
    AssetStep visible .mainnet sampleIssued (.attach () [(sampleTransfer, keyOfNat 2)])
      (withTransfer sampleIssued) :=
  step_attach visible .mainnet sampleIssued () (by decide +kernel)

theorem popBlock_withTransfer : (withTransfer sampleIssued).popBlock = sampleIssued := by
  have hemp : (⟨[], .empty⟩ : BlockchainDb Unit (ℕ × ℕ)).assets.Below 0 :=
    ⟨by simp [empty], by simp [empty], by simp [empty]⟩
  exact popBlock_attach transfer_attached (below_step visible .mainnet issuance_attached hemp)

theorem sample_run : Run (AssetStep visible .mainnet) ⟨[], .empty⟩ sampleEvents
    (withTransfer (withTransfer sampleIssued).popBlock) := by
  refine .cons issuance_attached (.cons transfer_attached
    (.cons (.detach (withTransfer sampleIssued) (by simp [withTransfer])) (.cons ?_ (.nil _))))
  rw [popBlock_withTransfer]
  exact transfer_attached

/-- The supply is conserved on a chain with an issuance, a transfer that burns two units and
a detached block. -/
theorem supply_conserved_sample :
    ∃ row ∈ (withTransfer (withTransfer sampleIssued).popBlock).assets.records.rows,
      ∃ issuance, decodeIssuancePayload visible row.value = .ok issuance ∧
        (total row.key (storedEntries visibleIdeal
            (withTransfer (withTransfer sampleIssued).popBlock).assets) : ℤ) -
            consumedTotal visibleIdeal row.key (accepted (chainAfter [] sampleEvents)) +
            burnedTotal visibleIdeal row.key (accepted (chainAfter [] sampleEvents)) =
          issuance.descriptor.atomicSupply.toNat := by
  obtain ⟨row, hrow⟩ : ∃ row,
      row ∈ (withTransfer (withTransfer sampleIssued).popBlock).assets.records.rows :=
    exists_mem_of_ne_nil _ (by
      obtain ⟨added, hrows, -⟩ := (extended_attach transfer_attached).records
      rw [popBlock_withTransfer, hrows]
      exact append_ne_nil_of_left_ne_nil (by decide +kernel) added)
  exact ⟨row, hrow, supply_conserved visibleIdeal .mainnet sampleEvents _ sample_run row hrow⟩

/-- Two runs that end on the same chain leave the same asset tables, whatever blocks were attached
and detached on the way. -/
theorem tables_of_same_chain (C : Crypto K) (network : NetworkType)
    (events events' : List (AssetEvent B K)) (db db' : BlockchainDb B K)
    (run : Run (AssetStep C network) ⟨[], .empty⟩ events db)
    (run' : Run (AssetStep C network) ⟨[], .empty⟩ events' db')
    (hchain : chainAfter [] events = chainAfter [] events') : db.assets = db'.assets := by
  obtain ⟨hatt, -⟩ := run_attached C network [] run .nil rfl
  obtain ⟨hatt', -⟩ := run_attached C network [] run' .nil rfl
  rw [hchain] at hatt
  exact attached_unique C network _ _ _ hatt hatt'

theorem tables_of_same_chain_sample :
    (withTransfer (withTransfer sampleIssued).popBlock).assets =
      (withTransfer sampleIssued).assets :=
  tables_of_same_chain visible .mainnet sampleEvents
    [.attach () [(sampleIssuance, keyOfNat 1)], .attach () [(sampleTransfer, keyOfNat 2)]] _ _
    sample_run (.cons issuance_attached (.cons transfer_attached (.nil _))) rfl

end Monzero.SupplyConservation
