import Monzero.RegistryReload
import Monzero.Runs

/-!
Runs of the asset database: blocks whose asset payloads are applied in order at
the height of the block, and blocks detached from the top. A step lemma says what
one application adds; the rules at the end lift what it keeps to whole runs.
-/
namespace Monzero.AssetRuns

open Primitives IssuanceCodec AssetWire AssetDb AssetApplication Runs List

variable {B K : Type} [DecidableEq K]

/-- The loop of `handle_block_to_main_chain` over the asset payloads of a block, each with
the carrier hash it is checked against. It stops at the first failure and leaves the tables
as they are then. -/
def applyAssetPayloads (C : Crypto K) (network : NetworkType) (height : ℕ) :
    List (AssetTransactionPayload K × Hash) → AssetTables K →
      Except Failure Unit × AssetTables K
  | [], t => (.ok (), t)
  | (p, carrier) :: rest, t =>
      match applyAssetTransactionToDb C t p network carrier height with
      | (.ok _, t') => applyAssetPayloads C network height rest t'
      | (.error e, t') => (.error e, t')

variable (C : Crypto K) (t t' : AssetTables K) (net : NetworkType) (height : ℕ)

theorem applyAssetPayloads_cons_eq_ok (p : AssetTransactionPayload K) (car : Hash)
    (rest : List (AssetTransactionPayload K × Hash)) (t t' : AssetTables K) (u : Unit) :
    applyAssetPayloads C net height ((p, car) :: rest) t = (.ok u, t') ↔
      ∃ ids next, applyAssetTransactionToDb C t p net car height = (.ok ids, next) ∧
        applyAssetPayloads C net height rest next = (.ok u, t') := by
  rw [applyAssetPayloads]
  rcases applyAssetTransactionToDb C t p net car height with ⟨_ | ids, next⟩
  · simp
  · simp

theorem applyAssetPayloads_invariant (I : AssetTables K → Prop)
    (pls : List (AssetTransactionPayload K × Hash))
    (hstep : ∀ t p car ids t', (p, car) ∈ pls → I t →
      applyAssetTransactionToDb C t p net car height = (.ok ids, t') → I t') (t t' : AssetTables K)
    (u : Unit) (hI : I t) (h : applyAssetPayloads C net height pls t = (.ok u, t')) : I t' := by
  induction pls generalizing t with
  | nil =>
    cases h
    exact hI
  | cons e rest ih =>
    obtain ⟨p, car⟩ := e
    obtain ⟨ids, next, happly, hrest⟩ := (applyAssetPayloads_cons_eq_ok ..).mp h
    exact ih (fun t p c ids t' he => hstep t p c ids t' (mem_cons_of_mem _ he)) next
      (hstep t p car ids next mem_cons_self hI happly) hrest

inductive AssetEvent (B K : Type)
  | attach (block : B) (payloads : List (AssetTransactionPayload K × Hash))
  | detach

/-- A block is attached when all its payloads apply at its height; the top block can be
detached. -/
inductive AssetStep (C : Crypto K) (network : NetworkType) :
    BlockchainDb B K → AssetEvent B K → BlockchainDb B K → Prop
  | attach (db : BlockchainDb B K) (block : B)
      (payloads : List (AssetTransactionPayload K × Hash)) (t : AssetTables K)
      (applied : applyAssetPayloads C network db.height payloads db.assets = (.ok (), t)) :
      AssetStep C network db (.attach block payloads)
        (BlockchainDb.addBlock { db with assets := t } block)
  | detach (db : BlockchainDb B K) (nonempty : db.blocks ≠ []) :
      AssetStep C network db .detach db.popBlock

theorem step_attach (db : BlockchainDb B K) (block : B)
    {pls : List (AssetTransactionPayload K × Hash)}
    (h : (applyAssetPayloads C net db.height pls db.assets).1 = .ok ()) :
    AssetStep C net db (.attach block pls) ⟨block :: db.blocks,
      (applyAssetPayloads C net db.height pls db.assets).2⟩ :=
  .attach db block pls _ (Prod.ext h rfl)

theorem run_attach (bs : List B) (t : AssetTables K) (block : B)
    (pls : List (AssetTransactionPayload K × Hash))
    (h : (applyAssetPayloads C net bs.length pls t).1 = .ok ()) :
    Run (AssetStep C net) ⟨bs, t⟩ [.attach block pls]
      ⟨block :: bs, (applyAssetPayloads C net bs.length pls t).2⟩ :=
  .cons (step_attach C net ⟨bs, t⟩ block h) (.nil _)

/-- The issuances of an event carry the given network. -/
def OwnNetwork (network : NetworkType) : AssetEvent B K → Prop
  | .attach _ payloads => ∀ e ∈ payloads, ∀ i, e.1.issuance = some i →
      i.descriptor.network = network
  | .detach => True

/-- A property of the tables that one application at any height and a rollback keep holds
after every run whose issuances carry the network. -/
theorem run_invariant (I : AssetTables K → Prop) (happly : ∀ t p car height ids t', I t →
      (∀ i, p.issuance = some i → i.descriptor.network = net) →
      applyAssetTransactionToDb C t p net car height = (.ok ids, t') → I t')
    (hremove : ∀ t height, I t → I (t.removeFromHeight height)) (evs : List (AssetEvent B K))
    (db db' : BlockchainDb B K) (run : Run (AssetStep C net) db evs db')
    (hown : ∀ e ∈ evs, OwnNetwork net e) (hI : I db.assets) : I db'.assets := by
  refine run.invariant (fun db => I db.assets) (OwnNetwork net) ?_ hown hI
  intro s e s' hs he hstep
  cases hstep with
  | attach block payloads t applied =>
    refine applyAssetPayloads_invariant C net s.height I payloads ?_ s.assets t () hs applied
    intro t p car ids t' hmem ht happ
    exact happly t p car s.height ids t' ht (fun i hi => he _ hmem i hi) happ
  | detach nonempty => exact hremove s.assets _ hs

/-- What the issuance of a successful application went through: it was registered at the
height in the loaded registry, and its encoding is the row that was stored. -/
theorem apply_issuance {p : AssetTransactionPayload K} {net : NetworkType} {car : Hash} {height : ℕ}
    {ids : List Hash} (h : applyAssetTransactionToDb C t p net car height = (.ok ids, t')) :
    ∃ reg, loadRegistryFromDb C t net = .ok reg ∧
      ((p.issuance = none ∧ t'.records.rows = t.records.rows) ∨ ∃ i r id enc, p.issuance = some i ∧
          reg.applyIssuance C i height = .ok (r, id) ∧ encodeIssuancePayload C i = .ok enc ∧
          t'.records.rows = t.records.rows ++ [{ key := id, height, value := enc }]) := by
  obtain ⟨issued, hprep, -, happ⟩ := apply_eq_ok.mp h
  obtain ⟨reg, hchk, hiss, -⟩ := (prepare_eq_ok ..).mp hprep
  refine ⟨reg, hchk.loaded, ?_⟩
  rcases (prepareIssuance_eq_ok ..).mp hiss with ⟨hnone, rfl⟩ | ⟨i, r, id, enc, hi, happly,
    henc, rfl⟩
  · exact Or.inl ⟨hnone, by simpa [recordRows] using happ.records⟩
  · exact Or.inr ⟨i, r, id, enc, hi, happly, henc, happ.records⟩

theorem apply_heights {p : AssetTransactionPayload K} {net : NetworkType} {car : Hash} {height : ℕ}
    {ids : List Hash} (h : applyAssetTransactionToDb C t p net car height = (.ok ids, t')) :
    (∀ r ∈ t'.records.rows, r ∈ t.records.rows ∨ r.height = height) ∧
      (∀ r ∈ t'.outputs.rows, r ∈ t.outputs.rows ∨ r.height = height) ∧
      ∀ r ∈ t'.keyImages.rows, r ∈ t.keyImages.rows ∨ r.height = height := by
  obtain ⟨issued, -, -, happ⟩ := apply_eq_ok.mp h
  refine ⟨?_, ?_, ?_⟩ <;> intro r hr
  · rw [happ.records, mem_append] at hr
    refine hr.imp_right fun hr => ?_
    rcases issued with _ | ⟨id, enc⟩
    · simp [recordRows] at hr
    · rw [mem_singleton.mp hr]
  · rw [happ.outputs, mem_append] at hr
    refine hr.imp_right fun hr => ?_
    obtain ⟨e, -, rfl⟩ := mem_map.mp hr
    rfl
  · rw [happ.keyImages, mem_append] at hr
    refine hr.imp_right fun hr => ?_
    obtain ⟨pf, -, rfl⟩ := mem_map.mp hr
    rfl

theorem below_applyAssetPayloads {pls : List (AssetTransactionPayload K × Hash)}
    {t t' : AssetTables K} {u : Unit} (hbelow : t.Below (height + 1))
    (h : applyAssetPayloads C net height pls t = (.ok u, t')) : t'.Below (height + 1) := by
  refine applyAssetPayloads_invariant C net height (fun t => t.Below (height + 1)) pls
    ?_ t t' u hbelow h
  intro s p car ids s' _ hs happ
  obtain ⟨hrec, hout, hki⟩ := apply_heights C s s' happ
  refine ⟨fun r hr => ?_, fun r hr => ?_, fun r hr => ?_⟩
  · rcases hrec r hr with hold | hnew
    · exact hs.records r hold
    · omega
  · rcases hout r hr with hold | hnew
    · exact hs.outputs r hold
    · omega
  · rcases hki r hr with hold | hnew
    · exact hs.keyImages r hold
    · omega

omit [DecidableEq K] in
theorem below_mono {t : AssetTables K} (h h' : ℕ) (hle : h ≤ h') (hbelow : t.Below h) :
    t.Below h' where
  records := fun r hr => lt_of_lt_of_le (hbelow.records r hr) hle
  outputs := fun r hr => lt_of_lt_of_le (hbelow.outputs r hr) hle
  keyImages := fun r hr => lt_of_lt_of_le (hbelow.keyImages r hr) hle

theorem below_removeFromHeight (t : AssetTables K) {height : ℕ} :
    (t.removeFromHeight height).Below height where
  records := fun r hr => ((t.records.mem_removeFromHeight height r).mp hr).2
  outputs := fun r hr => ((t.outputs.mem_removeFromHeight height r).mp hr).2
  keyImages := fun r hr => ((t.keyImages.mem_removeFromHeight height r).mp hr).2

theorem below_step {db db' : BlockchainDb B K} {e : AssetEvent B K}
    (h : AssetStep C net db e db') (hbelow : db.assets.Below db.height) :
    db'.assets.Below db'.height := by
  cases h with
  | attach block payloads t applied =>
    exact below_applyAssetPayloads C net db.height (below_mono _ _ (Nat.le_succ _) hbelow) applied
  | detach nonempty =>
    have hht : db.popBlock.height = db.height - 1 := by
      simp [BlockchainDb.popBlock, BlockchainDb.height]
    rw [hht]
    exact below_removeFromHeight db.assets

end Monzero.AssetRuns
