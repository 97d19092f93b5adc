import Monzero.StoredTable
import Monzero.ChainTables

/-!
The six asset tables as LMDB holds them. An addition makes two puts, into a table and into
its height index, and a popped block removes rows by walking the index from its height on.
Application of a payload reads the tables only and writes both. Every store that these
operations reach is the stored form of tables whose index mirrors their rows, so popping
undoes attaching exactly, index entries included.
-/
namespace Monzero.AssetStore

open Checked StoredTable Primitives AssetWire AssetDb AssetRuns ChainTables Runs ToyCrypto

/-- `m_asset_records` with `m_asset_heights`, `m_asset_outputs` with `m_asset_output_heights`,
`m_asset_key_images` with `m_asset_key_image_heights`. -/
@[ext]
structure StoredTables (K : Type) where
  records : Store Hash (List UInt8)
  outputs : Store Hash (AssetOutputData K)
  keyImages : Store K Unit

namespace StoredTables

variable {K : Type}

def empty : StoredTables K := ⟨.empty, .empty, .empty⟩

/-- The tables as the functions that look up or enumerate rows see them. -/
def contents (s : StoredTables K) : AssetTables K :=
  ⟨s.records.contents, s.outputs.contents, s.keyImages.contents⟩

def ofTables (t : AssetTables K) : StoredTables K :=
  ⟨.ofTable t.records, .ofTable t.outputs, .ofTable t.keyImages⟩

theorem contents_ofTables (t : AssetTables K) : (ofTables t).contents = t := by
  simp [contents, ofTables]

variable [DecidableEq K]

/-- The three walks of `pop_block`. -/
def removeFromHeight (s : StoredTables K) (height : ℕ) : StoredTables K :=
  ⟨s.records.removeFromHeight height, s.outputs.removeFromHeight height,
    s.keyImages.removeFromHeight height⟩

theorem removeFromHeight_ofTables (t : AssetTables K) (height : ℕ) :
    (ofTables t).removeFromHeight height = ofTables (t.removeFromHeight height) := by
  simp only [removeFromHeight, ofTables, Store.removeFromHeight_ofTable,
    AssetTables.removeFromHeight]

/-- Each of the three tables is indexed: one entry for each row and no other entry. -/
structure Indexed (s : StoredTables K) : Prop where
  records : s.records.Indexed
  outputs : s.outputs.Indexed
  keyImages : s.keyImages.Indexed

theorem indexed_ofTables (t : AssetTables K) : (ofTables t).Indexed :=
  ⟨Store.indexed_ofTable, Store.indexed_ofTable, Store.indexed_ofTable⟩

end StoredTables

open StoredTables

variable {B K : Type} [DecidableEq K]

/-- `add_asset_record`, `add_asset_key_image` and `add_asset_output` with their two puts. -/
def writeStored (s : StoredTables K) : AssetWrite K → Except String Unit × StoredTables K
  | .record row =>
      let (result, records) := s.records.add row
        "Attempting to add an asset record that already exists"
        "Error indexing asset record height: MDB_KEYEXIST: Key/data pair already exists"
      (result, { s with records })
  | .keyImage row =>
      let (result, keyImages) := s.keyImages.add row
        "Attempting to spend an asset key image that already exists"
        "Error indexing asset key image height: MDB_KEYEXIST: Key/data pair already exists"
      (result, { s with keyImages })
  | .output row =>
      let (result, outputs) := s.outputs.add row
        "Attempting to add an asset output that already exists"
        "Error indexing asset output height: MDB_KEYEXIST: Key/data pair already exists"
      (result, { s with outputs })

theorem writeStored_ofTables (t : AssetTables K) (w : AssetWrite K) :
    writeStored (ofTables t) w = settle ofTables t (writeAsset t w) := by
  cases w with
  | record row =>
    simp only [writeStored, ofTables, Store.add_ofTable, writeAsset]
    cases t.records.add row "Attempting to add an asset record that already exists" <;> rfl
  | keyImage row =>
    simp only [writeStored, ofTables, Store.add_ofTable, writeAsset]
    cases t.keyImages.add row "Attempting to spend an asset key image that already exists" <;> rfl
  | output row =>
    simp only [writeStored, ofTables, Store.add_ofTable, writeAsset]
    cases t.outputs.add row "Attempting to add an asset output that already exists" <;> rfl

def applyToStore (C : Crypto K) (s : StoredTables K) (p : AssetTransactionPayload K)
    (expectedNetwork : NetworkType) (expectedCarrierPrefixHash : Hash) (height : ℕ) :
    Except Failure (List Hash) × StoredTables K :=
  match prepareAssetTransaction C s.contents p expectedNetwork expectedCarrierPrefixHash height with
  | .error message => (.error (.rejected message), s)
  | .ok (issued, ids) =>
      match performEach writeStored (assetWrites p height issued ids) s with
      | (.error message, s') => (.error (.thrown message), s')
      | (.ok _, s') => (.ok ids, s')

variable (C : Crypto K) (net : NetworkType)

theorem applyToStore_ofTables (t : AssetTables K) (p : AssetTransactionPayload K)
    (net : NetworkType) (car : Hash) (height : ℕ) : applyToStore C (ofTables t) p net car height =
      ((applyAssetTransactionToDb C t p net car height).1,
        ofTables (applyAssetTransactionToDb C t p net car height).2) := by
  unfold applyToStore applyAssetTransactionToDb
  rw [contents_ofTables]
  cases prepareAssetTransaction C t p net car height with
  | error message => rfl
  | ok prepared =>
    obtain ⟨issued, ids⟩ := prepared
    dsimp only
    rw [performEach_image writeStored writeAsset ofTables writeStored_ofTables]
    rcases performAll writeAsset (assetWrites p height issued ids) t with ⟨_ | _, t'⟩ <;> rfl

/-- The payloads of a block applied to the stored tables, up to the first that fails. -/
def applyPayloadsToStore (C : Crypto K) (network : NetworkType) (height : ℕ) :
    List (AssetTransactionPayload K × Hash) → StoredTables K → Except Failure Unit × StoredTables K
  | [], s => (.ok (), s)
  | (p, carrier) :: rest, s =>
      match applyToStore C s p network carrier height with
      | (.ok _, s') => applyPayloadsToStore C network height rest s'
      | (.error e, s') => (.error e, s')

theorem applyPayloadsToStore_ofTables (height : ℕ)
    (pls : List (AssetTransactionPayload K × Hash)) (t : AssetTables K) :
    applyPayloadsToStore C net height pls (ofTables t) = ((applyAssetPayloads C net height pls t).1,
        ofTables (applyAssetPayloads C net height pls t).2) := by
  induction pls generalizing t with
  | nil => rfl
  | cons e rest ih =>
    obtain ⟨p, car⟩ := e
    rw [applyPayloadsToStore, applyAssetPayloads, applyToStore_ofTables]
    rcases applyAssetTransactionToDb C t p net car height with ⟨_ | ids, t'⟩
    · rfl
    · exact ih t'

/-- The blocks, newest first, and the stored asset tables. -/
@[ext]
structure StoredDb (B K : Type) where
  blocks : List B
  assets : StoredTables K

namespace StoredDb

omit [DecidableEq K] in
def height (db : StoredDb B K) : ℕ := db.blocks.length

def popBlock (db : StoredDb B K) : StoredDb B K :=
  { blocks := db.blocks.tail, assets := db.assets.removeFromHeight (db.height - 1) }

end StoredDb

/-- A block offered to the database: it is added when all its payloads apply at its height.
A failure leaves the tables as they are then. -/
def offerBlock (C : Crypto K) (network : NetworkType) (db : StoredDb B K) (block : B)
    (payloads : List (AssetTransactionPayload K × Hash)) : Except Failure Unit × StoredDb B K :=
  match applyPayloadsToStore C network db.height payloads db.assets with
  | (.error e, s) => (.error e, { db with assets := s })
  | (.ok (), s) => (.ok (), { blocks := block :: db.blocks, assets := s })

/-- A block that is added, with the payloads it applies. -/
def attachBlock (C : Crypto K) (network : NetworkType) (db : StoredDb B K)
    (block : B × List (AssetTransactionPayload K × Hash)) : Except Failure (StoredDb B K) :=
  match offerBlock C network db block.1 block.2 with
  | (.error e, _) => .error e
  | (.ok (), db') => .ok db'

/-- Any block may be offered, and the top block may be popped. -/
inductive StoreStep (C : Crypto K) (network : NetworkType) :
    StoredDb B K → AssetEvent B K → StoredDb B K → Prop
  | offer (db : StoredDb B K) (block : B)
      (payloads : List (AssetTransactionPayload K × Hash)) :
      StoreStep C network db (.attach block payloads) (offerBlock C network db block payloads).2
  | pop (db : StoredDb B K) (nonempty : db.blocks ≠ []) :
      StoreStep C network db .detach db.popBlock

/-- A database whose store is that of some tables, all of whose rows lie below its height. -/
def Consistent (db : StoredDb B K) : Prop :=
  ∃ t : AssetTables K, db.assets = ofTables t ∧ t.Below db.height

theorem attachBlock_eq_ok (bs : List B) (t : AssetTables K) (block : B)
    (pls : List (AssetTransactionPayload K × Hash)) (db : StoredDb B K) :
    attachBlock C net ⟨bs, ofTables t⟩ (block, pls) = .ok db ↔
      ∃ t', applyAssetPayloads C net bs.length pls t = (.ok (), t') ∧
        db = ⟨block :: bs, ofTables t'⟩ := by
  unfold attachBlock offerBlock
  dsimp only [StoredDb.height]
  rw [applyPayloadsToStore_ofTables]
  rcases applyAssetPayloads C net bs.length pls t with ⟨_ | _, t'⟩
  · simp
  · simp [eq_comm]

theorem popBlock_attachBlock (db db' : StoredDb B K)
    (block : B × List (AssetTransactionPayload K × Hash)) (hdb : Consistent db)
    (h : attachBlock C net db block = .ok db') : db'.popBlock = db ∧ Consistent db' := by
  obtain ⟨bs, assets⟩ := db
  obtain ⟨t, hassets, hbelow⟩ := hdb
  subst hassets
  obtain ⟨t', happ, rfl⟩ := (attachBlock_eq_ok ..).mp h
  have hextended := extended_applyAssetPayloads C net bs.length block.2 t t' () happ
  constructor
  · show StoredDb.mk bs ((ofTables t').removeFromHeight bs.length) = _
    rw [removeFromHeight_ofTables, removeFromHeight_of_extended bs.length t t' hbelow hextended]
  · exact ⟨t', rfl, below_applyAssetPayloads C net bs.length
      (below_mono _ _ (Nat.le_succ _) hbelow) happ⟩

theorem consistent_attachBlocks (bs : List (B × List (AssetTransactionPayload K × Hash)))
    (db db' : StoredDb B K) (hdb : Consistent db)
    (h : loop (attachBlock C net) bs db = .ok db') : Consistent db' :=
  loop_invariant Consistent (fun s b s' _ hs hstep =>
    (popBlock_attachBlock C net s s' b hs hstep).2) hdb h

theorem pop_attachBlocks (start : StoredDb B K) (hstart : Consistent start)
    (bs : List (B × List (AssetTransactionPayload K × Hash))) (db : StoredDb B K)
    (h : loop (attachBlock C net) bs start = .ok db) (k : ℕ) (hk : k ≤ bs.length) :
    loop (attachBlock C net) (bs.take k) start = .ok (StoredDb.popBlock^[bs.length - k] db) := by
  -- induction on the bs from the last one, which the first pop undoes
  induction bs using List.reverseRecOn generalizing db with
  | nil =>
    rw [List.take_nil, h]
    simp
  | append_singleton before last ih =>
    rw [loop_append, bind_eq_ok] at h
    obtain ⟨mid, hbefore, hlast⟩ := h
    obtain ⟨db', hstep, hend⟩ := loop_cons_eq_ok.mp hlast
    cases hend
    by_cases hall : k = (before ++ [last]).length
    · rw [hall, List.take_length, Nat.sub_self, loop_append, hbefore]
      exact hlast
    · have hlen : (before ++ [last]).length = before.length + 1 := by simp
      have hle : k ≤ before.length := by omega
      have hpop := (popBlock_attachBlock C net mid db last
        (consistent_attachBlocks C net before start mid hstart hbefore) hstep).1
      have hcnt : (before ++ [last]).length - k = (before.length - k) + 1 := by omega
      rw [List.take_append_of_le_length hle, hcnt, Function.iterate_succ_apply, hpop]
      exact ih mid hbefore hle

theorem run_attachBlocks (bs : List (B × List (AssetTransactionPayload K × Hash)))
    (db db' : StoredDb B K) (h : loop (attachBlock C net) bs db = .ok db') :
    Run (StoreStep C net) db (bs.map fun b => .attach b.1 b.2) db' := by
  induction bs generalizing db with
  | nil =>
    cases h
    exact .nil _
  | cons b rest ih =>
    obtain ⟨next, hstep, hrest⟩ := loop_cons_eq_ok.mp h
    have hnext : (offerBlock C net db b.1 b.2).2 = next := by
      unfold attachBlock at hstep
      split at hstep
      · cases hstep
      · rename_i hoffer
        cases hstep
        rw [hoffer]
    refine .cons ?_ (ih next hrest)
    rw [← hnext]
    exact .offer db b.1 b.2

theorem run_ofTables {evs : List (AssetEvent B K)} {db db' : StoredDb B K}
    (run : Run (StoreStep C net) db evs db') (hdb : ∃ t, db.assets = ofTables t) :
    ∃ t, db'.assets = ofTables t := by
  refine run.invariant (fun db => ∃ t, db.assets = ofTables t) (fun _ => True) ?_
    (fun _ _ => trivial) hdb
  intro s e s' hs _ hstep
  obtain ⟨t, ht⟩ := hs
  cases hstep with
  | offer block pls =>
    unfold offerBlock
    rw [ht, applyPayloadsToStore_ofTables]
    rcases applyAssetPayloads C net s.height pls t with ⟨_ | _, t'⟩
    · exact ⟨t', rfl⟩
    · exact ⟨t', rfl⟩
  | pop nonempty =>
    refine ⟨t.removeFromHeight (s.height - 1), ?_⟩
    show s.assets.removeFromHeight (s.height - 1) = _
    rw [ht, removeFromHeight_ofTables]

/-- Detaching is exact. Popping blocks leaves the six tables that the blocks below give on
their own, and in every reachable state, refused blocks included, each row has exactly one
index entry, under its own height, and every entry belongs to a row. -/
theorem detach_exact (C : Crypto K) (network : NetworkType) (base : List B) :
    (∀ (blocks : List (B × List (AssetTransactionPayload K × Hash))) (db : StoredDb B K),
      loop (attachBlock C network) blocks ⟨base, .empty⟩ = .ok db → ∀ k ≤ blocks.length,
        loop (attachBlock C network) (blocks.take k) ⟨base, .empty⟩ =
          .ok (StoredDb.popBlock^[blocks.length - k] db)) ∧
      ∀ (events : List (AssetEvent B K)) (db : StoredDb B K),
        Run (StoreStep C network) ⟨base, .empty⟩ events db → db.assets.Indexed := by
  have hstart : Consistent (⟨base, .empty⟩ : StoredDb B K) :=
    ⟨.empty, rfl, ⟨by simp [AssetTables.empty], by simp [AssetTables.empty],
      by simp [AssetTables.empty]⟩⟩
  constructor
  · intro blocks db h k hk
    exact pop_attachBlocks C network _ hstart blocks db h k hk
  · intro events db run
    obtain ⟨t, ht⟩ := run_ofTables C network run ⟨.empty, rfl⟩
    rw [ht]
    exact indexed_ofTables t

def sampleBlocks : List (Unit × List (AssetTransactionPayload Key × Hash)) :=
  [((), [(issue .mainnet (keyOfNat 20) sampleCollection 30, keyOfNat 20)]),
   ((), [(issue .mainnet (keyOfNat 21) (sampleMember 0) 31, keyOfNat 21),
         (issue .mainnet (keyOfNat 22) (sampleMember 1) 32, keyOfNat 22)])]

theorem detach_exact_sample :
    ∃ db, loop (attachBlock toy .mainnet) sampleBlocks ⟨[], .empty⟩ = .ok db ∧
      db.assets.records.index.length = 3 ∧ db.assets.Indexed ∧
      loop (attachBlock toy .mainnet) (sampleBlocks.take 1) ⟨[], .empty⟩ = .ok db.popBlock := by
  have hok : (loop (attachBlock toy .mainnet) sampleBlocks ⟨[], .empty⟩).toOption.map
      (fun db => db.assets.records.index.length) = some 3 := by decide +kernel
  obtain ⟨db, hdb, hlength⟩ : ∃ db, loop (attachBlock toy .mainnet) sampleBlocks ⟨[], .empty⟩ =
      .ok db ∧ db.assets.records.index.length = 3 := by
    cases hdb : loop (attachBlock toy .mainnet) sampleBlocks ⟨[], .empty⟩ with
    | error e =>
      rw [hdb] at hok
      cases hok
    | ok db =>
      rw [hdb] at hok
      exact ⟨db, rfl, Option.some.inj hok⟩
  have hrun : Run (StoreStep toy .mainnet) ⟨[], .empty⟩
      (sampleBlocks.map fun b => .attach b.1 b.2) db :=
    run_attachBlocks toy .mainnet sampleBlocks _ db hdb
  exact ⟨db, hdb, hlength, (detach_exact toy .mainnet []).2 _ db hrun,
    (detach_exact toy .mainnet []).1 sampleBlocks db hdb 1 (by decide)⟩

end Monzero.AssetStore
