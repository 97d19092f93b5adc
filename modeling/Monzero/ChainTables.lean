import Monzero.AssetRuns

/-!
The asset tables as a function of the chain. Detaching a block removes exactly the
rows its payloads appended, so after any run of attached and detached blocks the
tables are those that the blocks still on the chain give when they are attached in
order to empty tables.
-/
namespace Monzero.ChainTables

open IndexedTable Primitives IssuanceCodec AssetWire AssetDb AssetApplication AssetRuns Runs List
open AssetTables (empty ext)
open BlockchainDb (ext height popBlock)

variable {B K : Type} [DecidableEq K]

/-- The blocks of a chain that asset code sees: their payloads, newest block first. -/
abbrev PayloadChain (K : Type) := List (List (AssetTransactionPayload K × Hash))

/-- The chain after one more event. -/
def chainStep (chain : PayloadChain K) : AssetEvent B K → PayloadChain K
  | .attach _ payloads => payloads :: chain
  | .detach => chain.tail

/-- The chain a list of events leaves on top of a chain. -/
def chainAfter (chain : PayloadChain K) (events : List (AssetEvent B K)) : PayloadChain K :=
  events.foldl chainStep chain

/-- The tables that the blocks of a chain give, attached in order to empty tables. -/
inductive Attached (C : Crypto K) (network : NetworkType) :
    PayloadChain K → AssetTables K → Prop
  | nil : Attached C network [] .empty
  | cons {chain : PayloadChain K} {payloads : List (AssetTransactionPayload K × Hash)}
      {t t' : AssetTables K} (parent : Attached C network chain t)
      (applied : applyAssetPayloads C network chain.length payloads t = (.ok (), t')) :
      Attached C network (payloads :: chain) t'

variable (C : Crypto K) (net : NetworkType) (height : ℕ) (chain : PayloadChain K)
  (t t' : AssetTables K)

theorem attached_below {t : AssetTables K} (h : Attached C net chain t) : t.Below chain.length := by
  induction h with
  | nil => exact ⟨by simp [empty], by simp [empty],
      by simp [empty]⟩
  | cons parent applied ih =>
    exact below_applyAssetPayloads C net _ (below_mono _ _ (Nat.le_succ _) ih) applied

theorem attached_unique (h : Attached C net chain t) (h' : Attached C net chain t') : t = t' := by
  induction h generalizing t' with
  | nil =>
    cases h'
    rfl
  | cons _ applied ih =>
    cases h' with
    | cons parent' applied' =>
      obtain rfl := ih _ parent'
      exact (Prod.mk.inj (applied.symm.trans applied')).2

structure Extended (height : ℕ) (t t' : AssetTables K) : Prop where
  records : ∃ added, t'.records.rows = t.records.rows ++ added ∧ ∀ r ∈ added, r.height = height
  outputs : ∃ added, t'.outputs.rows = t.outputs.rows ++ added ∧ ∀ r ∈ added, r.height = height
  keyImages : ∃ added, t'.keyImages.rows = t.keyImages.rows ++ added ∧
    ∀ r ∈ added, r.height = height

theorem rows_extended_trans {α : Type} {P : α → Prop} {l m n : List α}
    (h : ∃ added, m = l ++ added ∧ ∀ r ∈ added, P r)
    (h' : ∃ added, n = m ++ added ∧ ∀ r ∈ added, P r) :
    ∃ added, n = l ++ added ∧ ∀ r ∈ added, P r := by
  obtain ⟨first, rfl, hfst⟩ := h
  obtain ⟨second, rfl, hsnd⟩ := h'
  refine ⟨first ++ second, append_assoc .., ?_⟩
  intro r hr
  rcases mem_append.mp hr with hr | hr
  · exact hfst r hr
  · exact hsnd r hr

theorem extended_apply {p : AssetTransactionPayload K} {net : NetworkType} {car : Hash} {height : ℕ}
    {ids : List Hash} (h : applyAssetTransactionToDb C t p net car height = (.ok ids, t')) :
    Extended height t t' := by
  obtain ⟨issued, -, -, happ⟩ := apply_eq_ok.mp h
  refine ⟨⟨_, happ.records, ?_⟩, ⟨_, happ.outputs, ?_⟩, ⟨_, happ.keyImages, ?_⟩⟩
  · intro r hr
    rcases issued with _ | ⟨id, enc⟩
    · simp [recordRows] at hr
    · rw [mem_singleton.mp hr]
  · intro r hr
    obtain ⟨e, -, rfl⟩ := mem_map.mp hr
    rfl
  · intro r hr
    obtain ⟨pf, -, rfl⟩ := mem_map.mp hr
    rfl

theorem extended_applyAssetPayloads (pls : List (AssetTransactionPayload K × Hash))
    (t t' : AssetTables K) (u : Unit)
    (h : applyAssetPayloads C net height pls t = (.ok u, t')) : Extended height t t' := by
  refine applyAssetPayloads_invariant C net height (Extended height t) pls ?_ t t' u
    ⟨⟨[], by simp⟩, ⟨[], by simp⟩, ⟨[], by simp⟩⟩ h
  intro s p car ids s' _ hs happly
  have hnext := extended_apply C s s' happly
  exact ⟨rows_extended_trans hs.records hnext.records, rows_extended_trans hs.outputs hnext.outputs,
    rows_extended_trans hs.keyImages hnext.keyImages⟩

theorem removeFromHeight_of_extended (hbelow : t.Below height) (h : Extended height t t') :
    t'.removeFromHeight height = t := by
  obtain ⟨⟨records, hrec, hrecAt⟩, ⟨outs, hout, houtAt⟩, ⟨kis, hki, hkiAt⟩⟩ := h
  refine ext ?_ ?_ ?_
  · exact Table.removeFromHeight_append hrec hbelow.records
      fun r hr => (hrecAt r hr).ge
  · exact Table.removeFromHeight_append hout hbelow.outputs
      fun r hr => (houtAt r hr).ge
  · exact Table.removeFromHeight_append hki hbelow.keyImages
      fun r hr => (hkiAt r hr).ge

variable {db db' : BlockchainDb B K} {block : B}
  {pls : List (AssetTransactionPayload K × Hash)}

theorem extended_attach {C : Crypto K} {net : NetworkType}
    (h : AssetStep C net db (.attach block pls) db') : Extended db.height db.assets db'.assets := by
  cases h with
  | attach _ _ t applied =>
    exact extended_applyAssetPayloads C net db.height pls db.assets t () applied

theorem popBlock_attach {C : Crypto K} {net : NetworkType}
    (h : AssetStep C net db (.attach block pls) db')
    (hbelow : db.assets.Below db.height) : db'.popBlock = db := by
  have hextended := extended_attach h
  cases h with
  | attach _ _ t applied =>
    exact ext rfl (removeFromHeight_of_extended db.height db.assets t hbelow hextended)

theorem attached_detach {t : AssetTables K} (h : Attached C net chain t) (hne : chain ≠ []) :
    Attached C net chain.tail (t.removeFromHeight (chain.length - 1)) := by
  cases h with
  | nil => exact absurd rfl hne
  | cons parent applied =>
    rename_i rest pls below
    have hundo := removeFromHeight_of_extended rest.length below t
      (attached_below C net rest parent)
      (extended_applyAssetPayloads C net rest.length pls below t () applied)
    rw [tail_cons, length_cons, Nat.add_sub_cancel, hundo]
    exact parent

/-- The payloads of a chain in the order in which they were applied. -/
def accepted (chain : PayloadChain K) : List (AssetTransactionPayload K × Hash) :=
  chain.reverse.flatten

omit [DecidableEq K] in
theorem accepted_cons (pls : List (AssetTransactionPayload K × Hash))
    (chain : PayloadChain K) : accepted (pls :: chain) = accepted chain ++ pls := by
  simp [accepted]

/-- A relation between the payloads applied so far and the tables that one application keeps
is kept by a block. -/
theorem applyAssetPayloads_history
    (R : List (AssetTransactionPayload K × Hash) → AssetTables K → Prop)
    (hstep : ∀ history t p car height ids t', R history t →
      applyAssetTransactionToDb C t p net car height = (.ok ids, t') → R (history ++ [(p, car)]) t')
    (pls history : List (AssetTransactionPayload K × Hash)) (t t' : AssetTables K) (u : Unit)
    (hR : R history t) (h : applyAssetPayloads C net height pls t = (.ok u, t')) :
    R (history ++ pls) t' := by
  induction pls generalizing history t with
  | nil =>
    cases h
    rw [append_nil]
    exact hR
  | cons e rest ih =>
    obtain ⟨p, car⟩ := e
    obtain ⟨ids, next, happly, hrest⟩ := (applyAssetPayloads_cons_eq_ok ..).mp h
    have hnext := ih _ next (hstep history t p car height ids next hR happly) hrest
    rw [append_assoc] at hnext
    exact hnext

theorem attached_history (R : List (AssetTransactionPayload K × Hash) → AssetTables K → Prop)
    (hemp : R [] .empty) (hstep : ∀ history t p car height ids t', R history t →
      applyAssetTransactionToDb C t p net car height = (.ok ids, t') →
      R (history ++ [(p, car)]) t') (chain : PayloadChain K) (t : AssetTables K)
    (h : Attached C net chain t) : R (accepted chain) t := by
  induction h with
  | nil => exact hemp
  | cons parent applied ih =>
    rw [accepted_cons]
    exact applyAssetPayloads_history C net _ R hstep _ _ _ _ () ih applied

/-- The records of a chain's tables are encoded issuances. -/
theorem attached_records_decode {chain : PayloadChain K} {t : AssetTables K}
    (h : Attached C net chain t) :
    ∀ r ∈ t.records.rows, ∃ i, decodeIssuancePayload C r.value = .ok i := by
  refine attached_history C net
    (fun _ t => ∀ r ∈ t.records.rows, ∃ i, decodeIssuancePayload C r.value = .ok i)
    (by simp [empty]) ?_ chain t h
  intro history t p car height ids t' ht happly r hr
  obtain ⟨reg, -, ⟨-, hrows⟩ | ⟨i, _, id, enc, -, -, henc, hrows⟩⟩ :=
    apply_issuance C t t' happly
  · rw [hrows] at hr
    exact ht r hr
  · rw [hrows, mem_append, mem_singleton] at hr
    rcases hr with hr | rfl
    · exact ht r hr
    · exact ⟨i, decode_encode_payload C i enc henc⟩

theorem run_attached {evs : List (AssetEvent B K)}
    (chain : PayloadChain K) (run : Run (AssetStep C net) db evs db')
    (h : Attached C net chain db.assets) (hht : db.height = chain.length) :
    Attached C net (chainAfter chain evs) db'.assets ∧
      db'.height = (chainAfter chain evs).length := by
  induction run generalizing chain with
  | nil s => exact ⟨h, hht⟩
  | cons head tail ih =>
    cases head with
    | attach block pls t applied =>
      refine ih (pls :: chain) (.cons h ?_) ?_
      · rw [← hht]
        exact applied
      · simp only [BlockchainDb.addBlock, height, length_cons] at hht ⊢
        rw [hht]
    | detach nonempty =>
      have hne : chain ≠ [] := by
        intro hnil
        rw [hnil] at hht
        exact nonempty (length_eq_zero_iff.mp hht)
      refine ih chain.tail ?_ ?_
      · simp only [popBlock]
        rw [hht]
        exact attached_detach C net chain h hne
      · simp only [popBlock, height, length_tail] at hht ⊢
        rw [hht]

end Monzero.ChainTables
