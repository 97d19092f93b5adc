import Monzero.AssetRpc
import Monzero.ChainTables

/-!
Pages of the asset tables tile them. Rows have different ids, so sorting by height and id
puts each of them at one index, and requests that follow each other return each row once.
Rows of later blocks have greater heights and are sorted behind, so the row at an index
stays there as the chain grows.
-/
namespace Monzero.AssetPaging

open Bytes Checked IndexedTable Primitives IssuanceCodec AssetDb ComparatorSort Paging TxExtra List
  AssetRpc ChainTables

variable {ν ν' : Type}

/-! ### The order of the rows -/

/-- What the rows are compared by. -/
def rowKey (row : Row Hash ν) : ℕ ×ₗ List ℕ := toLex (row.height, digits row.key)

theorem enumeratedBefore_compares : ComparesBy (enumeratedBefore (ν := ν)) rowKey := by
  intro a b
  rw [enumeratedBefore, rowKey, rowKey, Prod.Lex.toLex_lt_toLex]
  by_cases h : a.height = b.height
  · simp [h, memcmpLt_iff]
  · simp [h]

/-- The rows of a table in the order of height and id, each once. -/
structure InOrder (rows stored : List (Row Hash ν)) : Prop where
  perm : rows.Perm stored
  ascending : rows.Pairwise fun a b =>
    a.height < b.height ∨ a.height = b.height ∧ memcmpLt a.key.bytes b.key.bytes = true

/-- No two rows have the same id. -/
def Distinct (rows : List (Row Hash ν)) : Prop := (rows.map Row.key).Nodup

variable {rows : List (Row Hash ν)}

theorem Distinct.eq_of_rowKey (h : Distinct rows) :
    ∀ a ∈ rows, ∀ b ∈ rows, rowKey a = rowKey b → a = b := by
  intro a ha b hb hkey
  obtain ⟨-, hid⟩ := Prod.mk.inj (toLex.injective hkey)
  exact inj_on_of_nodup_map h ha hb (digits_injective hid)

theorem sorted_inOrder (h : Distinct rows) : InOrder (sortBy enumeratedBefore rows) rows where
  perm := sortBy_perm _ _
  ascending := by
    have hkeys : (rows.map rowKey).Nodup :=
      List.Nodup.map_on (fun a ha b hb => h.eq_of_rowKey a ha b hb) (List.Nodup.of_map _ h)
    refine (sortBy_strict enumeratedBefore_compares hkeys).imp ?_
    intro a b hab
    rw [rowKey, rowKey, Prod.Lex.toLex_lt_toLex] at hab
    rwa [memcmpLt_iff]

theorem sortBy_grown {added : List (Row Hash ν)} (h : Distinct (rows ++ added))
    (habove : ∀ r ∈ rows, ∀ a ∈ added, r.height < a.height) :
    sortBy enumeratedBefore (rows ++ added) =
      sortBy enumeratedBefore rows ++ sortBy enumeratedBefore added := by
  refine sortBy_append enumeratedBefore_compares ?_ h.eq_of_rowKey
  intro r hr a ha
  rw [rowKey, rowKey, Prod.Lex.toLex_lt_toLex]
  exact Or.inl (habove r hr a ha)

/-! ### Pages -/

/-- A count the two requests accept. -/
def AcceptedCount (count : UInt64) : Prop := count ≠ 0 ∧ count ≤ 1000

/-- Requests answer with the pages of a list: each with its part of the list, and requests that
follow each other over all indexes with the whole list. -/
structure Tiles {ε : Type} (answer : UInt64 × UInt64 → Except RpcError (List ε))
    (entries : List ε) : Prop where
  page : ∀ r, AcceptedCount r.2 →
    answer r = .ok ((entries.drop r.1.toNat).take r.2.toNat)
  cover : ∀ requests stop, (∀ r ∈ requests, AcceptedCount r.2) → Consecutive 0 requests stop →
    entries.length ≤ stop → ∃ answers, mapAll answer requests = .ok answers ∧
      answers.flatten = entries

theorem tiles_of_page {ε : Type} {answer : UInt64 × UInt64 → Except RpcError (List ε)} {es : List ε}
    (h : ∀ r, AcceptedCount r.2 → answer r = .ok ((es.drop r.1.toNat).take r.2.toNat)) :
    Tiles answer es where
  page := h
  cover requests stop hcounts hconsecutive hstop := by
    refine ⟨requests.map fun r => (es.drop r.1.toNat).take r.2.toNat, ?_, ?_⟩
    · rw [mapAll_eq_ok, forall₂_map_right_iff, forall₂_same]
      exact fun r hr => h r (hcounts r hr)
    · rw [← flatMap_def]
      exact flatMap_cover hconsecutive hstop

/-- The request for one page of outputs. -/
def outputsRequest (assetId : List UInt8) (r : UInt64 × UInt64) : AssetOutputsRequest where
  assetId := assetId
  offset := r.1
  count := r.2
  indices := []
  outputIds := []

def outputsPage (version : ℕ) (t : AssetTables Key) (assetId : List UInt8)
    (r : UInt64 × UInt64) : Except RpcError (List AssetOutputEntry) := do
  let response ← onGetAssetOutputs version t (outputsRequest assetId r)
  return response.outputs

def assetsPage (C : Crypto Key) (version : ℕ) (t : AssetTables Key) (r : UInt64 × UInt64) :
    Except RpcError (List AssetEntry) := do
  let response ← onGetAssets C version t { offset := r.1, count := r.2 }
  return response.assets

/-- The stored outputs that pass a filter. -/
def matchingOutputs (t : AssetTables Key) (filter : Option Hash) :
    List (Row Hash (AssetOutputData Key)) :=
  t.outputs.rows.filter fun row => filter.all fun id => row.value.assetId = id

theorem matchingOutputs_distinct (t : AssetTables Key) (filter : Option Hash) :
    Distinct (matchingOutputs t filter) :=
  t.outputs.keys_nodup.sublist (filter_sublist.map _)

theorem acceptedCount_iff (count : UInt64) : AcceptedCount count ↔ ¬(count = 0 ∨ count > 1000) := by
  rw [AcceptedCount, not_or, gt_iff_lt, UInt64.not_lt]

theorem outputsPage_eq (ver : ℕ) (t : AssetTables Key) (aid : List UInt8)
    (filter : Option Hash) (hfilter : readFilter aid = .ok filter)
    (hsize : t.outputs.rows.length < 2 ^ 64) (r : UInt64 × UInt64) (hcnt : AcceptedCount r.2) :
    outputsPage ver t aid r = .ok
      ((((enumeratedOutputs t filter).map assetOutputEntry).drop r.1.toNat).take r.2.toNat) := by
  have hlen : (enumeratedOutputs t filter).length < 2 ^ 64 := by
    rw [enumeratedOutputs, (sortBy_perm _ _).length_eq]
    exact (length_filter_le _ _).trans_lt hsize
  have hsel : (outputsRequest aid r).isSelected = false := rfl
  have hguard : ¬(((outputsRequest aid r).isSelected = false ∧
      ((outputsRequest aid r).count = 0 ∨ (outputsRequest aid r).count > 1000)) ∨
      (outputsRequest aid r).indices.length + (outputsRequest aid r).outputIds.length > 1000) := by
    simpa [outputsRequest, AssetOutputsRequest.isSelected] using (acceptedCount_iff r.2).mp hcnt
  have hindices : selectedIndices (enumeratedOutputs t filter) (outputsRequest aid r) =
      .ok (pageIndices (enumeratedOutputs t filter).length r.1 r.2) := by
    rw [selectedIndices, hsel, if_neg (by simp)]
    exact congrArg _ (orderedSet_range')
  rw [outputsPage, onGetAssetOutputs, failIf_of_not _ hguard]
  simp only [ok_bind]
  rw [show readFilter (outputsRequest aid r).assetId = .ok filter from hfilter]
  simp only [ok_bind, hindices]
  rw [← map_drop, ← map_take, ← pick_page hlen]
  rfl

/-- A stored asset as it is read. -/
structure ReadAs (C : Crypto Key) (row : Row Hash (List UInt8))
    (record : Row Hash IssuancePayload) : Prop where
  key : record.key = row.key
  height : record.height = row.height
  payload : decodeIssuancePayload C row.value = .ok record.value

theorem readRecord_eq_ok_iff (C : Crypto Key) (row : Row Hash (List UInt8))
    (rcd : Row Hash IssuancePayload) : readRecord C row = .ok rcd ↔ ReadAs C row rcd := by
  rw [readRecord]
  cases hdec : decodeIssuancePayload C row.value with
  | error e =>
    constructor
    · intro h
      cases h
    · intro h
      have hpay := h.payload
      rw [hdec] at hpay
      cases hpay
  | ok payload =>
    constructor
    · intro h
      cases h
      exact ⟨rfl, rfl, hdec⟩
    · intro h
      have hpay := h.payload
      rw [hdec, Except.ok.injEq] at hpay
      rw [← h.key, ← h.height, hpay]

variable {C : Crypto Key} {rows : List (Row Hash (List UInt8))}
  {collected : List (Row Hash IssuancePayload)}

theorem readAs_distinct (h : List.Forall₂ (ReadAs C) rows collected) (hrows : Distinct rows) :
    Distinct collected := by
  have hkeys : rows.map Row.key = collected.map Row.key := by
    rw [← forall₂_eq_eq_eq, forall₂_map_left_iff, forall₂_map_right_iff]
    exact h.imp fun _ _ hread => hread.key.symm
  rwa [Distinct, ← hkeys]

theorem assetsPage_eq (C : Crypto Key) (ver : ℕ) (t : AssetTables Key)
    (collected : List (Row Hash IssuancePayload))
    (hread : List.Forall₂ (ReadAs C) t.records.rows collected)
    (hsize : t.records.rows.length < 2 ^ 64) (r : UInt64 × UInt64) (hcnt : AcceptedCount r.2) :
    assetsPage C ver t r = .ok
      ((((sortBy enumeratedBefore collected).map assetEntry).drop r.1.toNat).take r.2.toNat) := by
  have hcollect : mapAll (readRecord C) t.records.rows = .ok collected := by
    rw [mapAll_eq_ok]
    exact hread.imp fun _ _ => (readRecord_eq_ok_iff ..).mpr
  have hlen : (sortBy enumeratedBefore collected).length < 2 ^ 64 := by
    rwa [(sortBy_perm _ _).length_eq, ← hread.length_eq]
  rw [assetsPage, onGetAssets, failIf_of_not _ ((acceptedCount_iff r.2).mp hcnt)]
  simp only [ok_bind, hcollect]
  rw [← map_drop, ← map_take, ← pick_page hlen]
  rfl

/-! ### Growth -/

structure GrownAbove (t t' : AssetTables Key) : Prop where
  records : ∃ added, t'.records.rows = t.records.rows ++ added ∧
    ∀ a ∈ added, ∀ r ∈ t.records.rows, r.height < a.height
  outputs : ∃ added, t'.outputs.rows = t.outputs.rows ++ added ∧
    ∀ a ∈ added, ∀ r ∈ t.outputs.rows, r.height < a.height

theorem grownAbove_applyAssetPayloads {C : Crypto Key} {net : NetworkType} {height : ℕ}
    {pls : List (AssetWire.AssetTransactionPayload Key × Hash)} {t t' : AssetTables Key} {u : Unit}
    (hbelow : t.Below height) (h : AssetRuns.applyAssetPayloads C net height pls t = (.ok u, t')) :
    GrownAbove t t' := by
  have hextended := extended_applyAssetPayloads C net height pls t t' u h
  obtain ⟨records, hrecs, hheights⟩ := hextended.records
  obtain ⟨outs, houts, hheights'⟩ := hextended.outputs
  refine ⟨⟨records, hrecs, fun a ha r hr => ?_⟩, ⟨outs, houts, fun a ha r hr => ?_⟩⟩
  · rw [hheights a ha]
    exact hbelow.records r hr
  · rw [hheights' a ha]
    exact hbelow.outputs r hr

theorem rows_above_trans {l m n : List (Row Hash ν)}
    (h : ∃ added, m = l ++ added ∧ ∀ a ∈ added, ∀ r ∈ l, r.height < a.height)
    (h' : ∃ added, n = m ++ added ∧ ∀ a ∈ added, ∀ r ∈ m, r.height < a.height) :
    ∃ added, n = l ++ added ∧ ∀ a ∈ added, ∀ r ∈ l, r.height < a.height := by
  obtain ⟨second, hsecond, habove⟩ := h'
  refine rows_extended_trans h ⟨second, hsecond, fun a ha r hr => habove a ha r ?_⟩
  obtain ⟨first, rfl, -⟩ := h
  exact mem_append_left _ hr

variable {t t' : AssetTables Key}

theorem GrownAbove.trans {t'' : AssetTables Key} (h : GrownAbove t t')
    (h' : GrownAbove t' t'') : GrownAbove t t'' :=
  ⟨rows_above_trans h.records h'.records, rows_above_trans h.outputs h'.outputs⟩

theorem grownAbove_attached (C : Crypto Key) (net : NetworkType) (chain : PayloadChain Key)
    (t : AssetTables Key) (h : Attached C net chain t) (more : PayloadChain Key)
    (t' : AssetTables Key) (h' : Attached C net (more ++ chain) t') : GrownAbove t t' := by
  induction more generalizing t' with
  | nil =>
    obtain rfl := attached_unique C net chain t t' h h'
    exact ⟨⟨[], by simp⟩, ⟨[], by simp⟩⟩
  | cons payloads rest ih =>
    cases h' with
    | cons parent applied =>
      exact (ih _ parent).trans (grownAbove_applyAssetPayloads
        (attached_below C net _ parent) applied)

theorem enumeratedOutputs_grown (h : GrownAbove t t') (filter : Option Hash) :
    ∃ more, enumeratedOutputs t' filter = enumeratedOutputs t filter ++ more := by
  obtain ⟨added, hrows, habove⟩ := h.outputs
  have hdis := matchingOutputs_distinct t' filter
  rw [matchingOutputs, hrows, filter_append] at hdis
  rw [enumeratedOutputs, hrows, filter_append, sortBy_grown hdis]
  · exact ⟨_, rfl⟩
  · intro r hr a ha
    exact habove a (mem_filter.mp ha).1 r (mem_filter.mp hr).1

variable {collected' : List (Row Hash IssuancePayload)}

theorem readAs_grown {added : List (Row Hash (List UInt8))}
    (h : List.Forall₂ (ReadAs C) rows collected)
    (h' : List.Forall₂ (ReadAs C) (rows ++ added) collected') :
    ∃ more, collected' = collected ++ more ∧ List.Forall₂ (ReadAs C) added more := by
  induction h generalizing collected' with
  | nil => exact ⟨collected', rfl, h'⟩
  | @cons row record _ _ hread _ ih =>
    obtain ⟨rcd', rest, hread', hrest, rfl⟩ := forall₂_cons_left_iff.mp h'
    obtain ⟨more, rfl, hmore⟩ := ih hrest
    have hsame : rcd' = record := Except.ok.inj
      (((readRecord_eq_ok_iff ..).mpr hread').symm.trans ((readRecord_eq_ok_iff ..).mpr hread))
    exact ⟨more, by rw [hsame, cons_append], hmore⟩

theorem sorted_records_grown (h : GrownAbove t t')
    (hread : List.Forall₂ (ReadAs C) t.records.rows collected)
    (hread' : List.Forall₂ (ReadAs C) t'.records.rows collected') :
    ∃ more, sortBy enumeratedBefore collected' = sortBy enumeratedBefore collected ++ more := by
  obtain ⟨added, hrows, habove⟩ := h.records
  have hdis := readAs_distinct hread' t'.records.keys_nodup
  rw [hrows] at hread'
  obtain ⟨more, rfl, hmore⟩ := readAs_grown hread hread'
  refine ⟨_, sortBy_grown hdis ?_⟩
  intro r hr a ha
  obtain ⟨row, hrow, hreadRow⟩ := (forall₂_partner hread).2 r hr
  obtain ⟨new, hnew, hreadNew⟩ := (forall₂_partner hmore).2 a ha
  rw [hreadRow.height, hreadNew.height]
  exact habove new hnew row hrow

/-- Two answers to one request: the entries of the first come first in the second. -/
def Continues {ε : Type} (answer answer' : Except RpcError (List ε)) : Prop :=
  ∃ entries entries', answer = .ok entries ∧ answer' = .ok entries' ∧ entries <+: entries'

/-- Tables that fit the 64-bit sizes of the answers, with records that decode. -/
structure Enumerable (C : Crypto Key) (t : AssetTables Key) : Prop where
  outputs_lt : t.outputs.rows.length < 2 ^ 64
  records_lt : t.records.rows.length < 2 ^ 64
  records_decode : ∀ row ∈ t.records.rows, ∃ p, decodeIssuancePayload C row.value = .ok p

/-- The tables of a chain with few enough rows. -/
theorem attached_enumerable {net : NetworkType} {chain : PayloadChain Key}
    (h : Attached C net chain t) (houts : t.outputs.rows.length < 2 ^ 64)
    (hrecs : t.records.rows.length < 2 ^ 64) : Enumerable C t :=
  ⟨houts, hrecs, attached_records_decode C net h⟩

theorem Enumerable.exists_read (h : Enumerable C t) :
    ∃ collected, List.Forall₂ (ReadAs C) t.records.rows collected := by
  refine exists_forall₂ _ fun row hrow => ?_
  obtain ⟨p, hp⟩ := h.records_decode row hrow
  exact ⟨{ key := row.key, height := row.height, value := p }, rfl, rfl, hp⟩

section Sample

open ToyCrypto

def sampleBlock : List (AssetWire.AssetTransactionPayload Key × Hash) :=
  [(issue .mainnet (keyOfNat 7) sampleCollection 21, keyOfNat 7)]

def laterBlock : List (AssetWire.AssetTransactionPayload Key × Hash) :=
  [(issue .mainnet (keyOfNat 8) (unitDescriptor .mainnet .collection 2 nullHash nullHash) 22,
    keyOfNat 8)]

/-- The tables of a block that issues one collection, and with a block above that issues
another. -/
def firstTables : AssetTables Key :=
  (AssetRuns.applyAssetPayloads toy .mainnet 0 sampleBlock .empty).2

def secondTables : AssetTables Key :=
  (AssetRuns.applyAssetPayloads toy .mainnet 1 laterBlock firstTables).2

theorem sample_applied :
    AssetRuns.applyAssetPayloads toy .mainnet 0 sampleBlock .empty = (.ok (), firstTables) ∧
      AssetRuns.applyAssetPayloads toy .mainnet 1 laterBlock firstTables =
        (.ok (), secondTables) := by
  have hresults : (AssetRuns.applyAssetPayloads toy .mainnet 0 sampleBlock .empty).1 = .ok () ∧
      (AssetRuns.applyAssetPayloads toy .mainnet 1 laterBlock firstTables).1 = .ok () := by
    decide +kernel
  exact ⟨Prod.fst_eq_iff.mp hresults.1, Prod.fst_eq_iff.mp hresults.2⟩

theorem sample_rows : firstTables.records.rows.length = 1 ∧ firstTables.outputs.rows.length = 1 ∧
    secondTables.records.rows.length = 2 ∧ secondTables.outputs.rows.length = 2 := by
  decide +kernel

theorem first_attached : Attached toy .mainnet [sampleBlock] firstTables :=
  .cons .nil sample_applied.1

theorem second_attached : Attached toy .mainnet [laterBlock, sampleBlock] secondTables :=
  .cons first_attached sample_applied.2

theorem first_enumerable : Enumerable toy firstTables := by
  obtain ⟨hrecs, houts, -⟩ := sample_rows
  exact attached_enumerable first_attached (by omega) (by omega)

theorem second_enumerable : Enumerable toy secondTables := by
  obtain ⟨-, -, hrecs, houts⟩ := sample_rows
  exact attached_enumerable second_attached (by omega) (by omega)

theorem sample_grown : GrownAbove firstTables secondTables :=
  grownAbove_applyAssetPayloads (attached_below toy .mainnet _ first_attached) sample_applied.2

theorem grownAbove_attached_issue :
    firstTables.records.rows.length = 1 ∧ firstTables.outputs.rows.length = 1 ∧
      secondTables.records.rows.length = 2 ∧ GrownAbove firstTables secondTables := by
  obtain ⟨hrecs, houts, hmore, -⟩ := sample_rows
  exact ⟨hrecs, houts, hmore, grownAbove_attached toy .mainnet [sampleBlock] firstTables
    first_attached [laterBlock] secondTables second_attached⟩

end Sample

end Monzero.AssetPaging
