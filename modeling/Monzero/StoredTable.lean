import Monzero.IndexedTable

/-!
An indexed table as it is stored: a map from keys to rows and, apart from it, a set of
height and key pairs. A put writes the map and then the pair set, each refusing what it
already holds; a rollback walks the pairs from a height on and deletes, for each, the row
under its key and then the pair. Nothing ties the two together but these operations, and
they keep the pairs in step with the rows: on stores that come from tables they are the
operations of the tables.
-/
namespace Monzero.StoredTable

open IndexedTable List

variable {κ ν ε : Type}

/-- The rows of the map and the pairs of the height index. -/
@[ext]
structure Store (κ ν : Type) where
  rows : List (Row κ ν)
  index : List (ℕ × κ)
  keys_nodup : (rows.map Row.key).Nodup
  entries_nodup : index.Nodup

namespace Store

def empty : Store κ ν := ⟨[], [], nodup_nil, nodup_nil⟩

/-- The table that the rows of a store make up, whatever its index holds. -/
def contents (s : Store κ ν) : Table κ ν := ⟨s.rows, s.rows.map Row.entry, s.keys_nodup, rfl⟩

private theorem nodup_entries {rows : List (Row κ ν)} (h : (rows.map Row.key).Nodup) :
    (rows.map Row.entry).Nodup := by
  have hkeys : (rows.map Row.entry).map Prod.snd = rows.map Row.key := by
    rw [map_map]
    rfl
  exact List.Nodup.of_map Prod.snd (hkeys ▸ h)

def ofTable (t : Table κ ν) : Store κ ν :=
  ⟨t.rows, t.index, t.keys_nodup, t.mirrored ▸ nodup_entries t.keys_nodup⟩

@[simp] theorem contents_ofTable (t : Table κ ν) : (ofTable t).contents = t :=
  Table.eq_of_rows_eq rfl

private theorem nodup_put (s : Store κ ν) (r : Row κ ν)
    (h : ∀ q ∈ s.rows, q.key ≠ r.key) : ((s.rows ++ [r]).map Row.key).Nodup := by
  rw [map_append, nodup_append]
  refine ⟨s.keys_nodup, by simp, ?_⟩
  intro a ha b hb
  obtain ⟨q, hq, rfl⟩ := mem_map.mp ha
  rw [map_singleton, mem_singleton] at hb
  rw [hb]
  exact h q hq

variable [DecidableEq κ]

/-- The put into the map, which does not overwrite. -/
def putRow (s : Store κ ν) (r : Row κ ν) (exists_ : ε) : Except ε (Store κ ν) :=
  if h : ∀ q ∈ s.rows, q.key ≠ r.key then
    .ok { s with rows := s.rows ++ [r], keys_nodup := s.nodup_put r h }
  else .error exists_

/-- The put into the index, which takes no pair twice. -/
def putEntry (s : Store κ ν) (e : ℕ × κ) (duplicate : ε) : Except ε (Store κ ν) :=
  if h : e ∉ s.index then
    .ok { s with
          index := s.index ++ [e]
          entries_nodup := by
            rw [nodup_append]
            exact ⟨s.entries_nodup, by simp, fun a ha b hb =>
              mem_singleton.mp hb ▸ fun hab => h (hab ▸ ha)⟩ }
  else .error duplicate

/-- The two puts of an addition; a failed second put leaves the row of the first. -/
def add (s : Store κ ν) (r : Row κ ν) (exists_ duplicate : ε) : Except ε Unit × Store κ ν :=
  match s.putRow r exists_ with
  | .error e => (.error e, s)
  | .ok s' =>
      match s'.putEntry r.entry duplicate with
      | .error e => (.error e, s')
      | .ok s'' => (.ok (), s'')

/-- One turn of the cursor walk: the row under the key of the pair, then the pair. -/
def deleteEntry (s : Store κ ν) (e : ℕ × κ) : Store κ ν where
  rows := s.rows.filter fun r => r.key ≠ e.2
  index := s.index.filter (· ≠ e)
  keys_nodup := s.keys_nodup.sublist (filter_sublist.map _)
  entries_nodup := s.entries_nodup.filter _

/-- The walk over the pairs from a height on. -/
def removeFromHeight (s : Store κ ν) (height : ℕ) : Store κ ν :=
  (s.index.filter fun e => height ≤ e.1).foldl deleteEntry s

/-- What a walk deletes is decided by the set of pairs it visits, not by their order. -/
theorem walk_eq (es : List (ℕ × κ)) (s : Store κ ν) :
    (es.foldl deleteEntry s).rows = s.rows.filter (fun r => r.key ∉ es.map Prod.snd) ∧
      (es.foldl deleteEntry s).index = s.index.filter (· ∉ es) := by
  induction es generalizing s with
  | nil => simp
  | cons e rest ih =>
    obtain ⟨hrows, hidx⟩ := ih (s.deleteEntry e)
    rw [foldl_cons, hrows, hidx]
    constructor
    · show (s.rows.filter fun r => r.key ≠ e.2).filter _ = _
      rw [filter_filter]
      apply filter_congr
      intro r _
      rw [← Bool.decide_and, decide_eq_decide, map_cons, mem_cons, not_or, and_comm]
    · show (s.index.filter (· ≠ e)).filter _ = _
      rw [filter_filter]
      apply filter_congr
      intro a _
      rw [← Bool.decide_and, decide_eq_decide, mem_cons, not_or, and_comm]

/-- Each row has one index entry, under its own height, and every entry is a row's. -/
structure Indexed (s : Store κ ν) : Prop where
  one : ∀ r ∈ s.rows, (s.index.filter fun e => e.2 = r.key) = [r.entry]
  live : ∀ e ∈ s.index, ∃ r ∈ s.rows, r.entry = e

theorem indexed_ofTable {t : Table κ ν} : (ofTable t).Indexed := by
  constructor
  · intro r hmem
    have hr : r ∈ t.rows := hmem
    show (t.index.filter fun e => e.2 = r.key) = [r.entry]
    rw [t.mirrored, filter_map]
    have hself : (t.rows.filter fun q => q.key = r.key) = [r] := by
      obtain ⟨before, after, hsplit⟩ := append_of_mem hr
      have hnd := t.keys_nodup
      rw [hsplit, map_append, map_cons, nodup_append, nodup_cons] at hnd
      obtain ⟨-, ⟨hafter, -⟩, hbefore⟩ := hnd
      have hout : ∀ q ∈ before ++ after, q.key ≠ r.key := by
        intro q hq
        rcases mem_append.mp hq with hq | hq
        · exact hbefore _ (mem_map_of_mem hq) _ mem_cons_self
        · intro hkey
          exact hafter (hkey ▸ mem_map_of_mem hq)
      rw [hsplit, filter_append, filter_cons_of_pos (by simp),
        filter_eq_nil_iff.mpr, filter_eq_nil_iff.mpr, nil_append]
      · intro q hq
        simpa using hout q (mem_append_right _ hq)
      · intro q hq
        simpa using hout q (mem_append_left _ hq)
    exact congrArg (List.map Row.entry) hself
  · intro e he
    have hmem : e ∈ t.rows.map Row.entry := t.mirrored ▸ he
    exact mem_map.mp hmem

/-- On a stored table an addition is that of the table: the second put never fails. -/
theorem add_ofTable (t : Table κ ν) (r : Row κ ν) (exists_ dup : ε) :
    (ofTable t).add r exists_ dup = Checked.settle ofTable t (t.add r exists_) := by
  by_cases hnew : t.contains r.key = false
  · have hput : ∀ q ∈ (ofTable t).rows, q.key ≠ r.key := (t.not_contains_iff _).mp hnew
    have hent : r.entry ∉ t.index := by
      rw [t.mirrored]
      intro hmem
      obtain ⟨q, hq, hqr⟩ := mem_map.mp hmem
      exact hput q hq (congrArg Prod.snd hqr)
    simp only [add, putRow, dif_pos hput, putEntry, Table.add, dif_pos hnew]
    rw [dif_pos (show r.entry ∉ (ofTable t).index from hent)]
    rfl
  · have hput : ¬∀ q ∈ (ofTable t).rows, q.key ≠ r.key := by
      intro hall
      exact hnew ((t.not_contains_iff _).mpr hall)
    simp [add, putRow, dif_neg hput, Table.add, dif_neg hnew, Checked.settle]

theorem removeFromHeight_ofTable (t : Table κ ν) (height : ℕ) :
    (ofTable t).removeFromHeight height = ofTable (t.removeFromHeight height) := by
  obtain ⟨hrows, hidx⟩ :=
    walk_eq ((ofTable t).index.filter fun e => height ≤ e.1) (ofTable t)
  refine Store.ext hrows (hidx.trans ?_)
  show t.index.filter _ = t.index.filter fun e => e.1 < height
  apply filter_congr
  intro e he
  have hmem : e ∈ (ofTable t).index := he
  simp [hmem]

end Store

end Monzero.StoredTable
