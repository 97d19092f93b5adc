import Monzero.Checked
import Mathlib.Data.List.Nodup

/-!
A key-value table with a secondary index by height. Rows are added once and
never changed; a rollback walks the index from a height upwards and deletes
the rows it names together with the index entries. The structure carries the
two facts that make the walk correct: no key is stored twice, and the index
names exactly the stored rows.
-/
namespace Monzero.IndexedTable

open List

structure Row (κ ν : Type) where
  key : κ
  height : ℕ
  value : ν
deriving DecidableEq

variable {κ ν ε : Type}

def Row.entry (r : Row κ ν) : ℕ × κ := (r.height, r.key)

@[ext]
structure Table (κ ν : Type) where
  rows : List (Row κ ν)
  index : List (ℕ × κ)
  keys_nodup : (rows.map Row.key).Nodup
  mirrored : index = rows.map Row.entry
deriving DecidableEq

namespace Table

def empty : Table κ ν := ⟨[], [], nodup_nil, rfl⟩

@[simp] theorem rows_empty : (empty : Table κ ν).rows = [] := rfl

theorem eq_of_rows_eq {t u : Table κ ν} (h : t.rows = u.rows) : t = u :=
  Table.ext h (by rw [t.mirrored, u.mirrored, h])

variable (t : Table κ ν) (height : ℕ) (key : κ) (r : Row κ ν)

theorem row_eq_of_key_eq (r s : Row κ ν) (hr : r ∈ t.rows) (hs : s ∈ t.rows) (h : r.key = s.key) :
    r = s :=
  inj_on_of_nodup_map t.keys_nodup hr hs h

def keysFrom (t : Table κ ν) (height : ℕ) : List κ :=
  (t.index.filter fun e => height ≤ e.1).map Prod.snd

theorem mem_keysFrom (hr : r ∈ t.rows) : r.key ∈ t.keysFrom height ↔ height ≤ r.height := by
  simp only [keysFrom, t.mirrored, mem_map, mem_filter, decide_eq_true_eq]
  constructor
  · rintro ⟨-, ⟨⟨s, hs, rfl⟩, hht⟩, hkey⟩
    rwa [t.row_eq_of_key_eq s r hs hr hkey] at hht
  · intro hht
    exact ⟨r.entry, ⟨⟨r, hr, rfl⟩, hht⟩, rfl⟩

variable [DecidableEq κ]

def get (t : Table κ ν) (key : κ) : Option (Row κ ν) := t.rows.find? fun r => r.key = key

def contains (t : Table κ ν) (key : κ) : Bool := t.rows.any fun r => r.key = key

theorem contains_iff : t.contains key = true ↔ ∃ r ∈ t.rows, r.key = key := by
  simp [contains]

theorem not_contains_iff : t.contains key = false ↔ ∀ r ∈ t.rows, r.key ≠ key := by
  simp [contains]

theorem key_of_get (h : t.get key = some r) : r.key = key := by
  simpa using find?_some h

theorem mem_of_get (h : t.get key = some r) : r ∈ t.rows := mem_of_find?_eq_some h

theorem get_of_mem (hr : r ∈ t.rows) : t.get r.key = some r := by
  cases hget : t.get r.key with
  | none => simpa using find?_eq_none.mp hget r hr
  | some s =>
    have hs := t.row_eq_of_key_eq s r (t.mem_of_get _ s hget) hr (t.key_of_get _ s hget)
    rw [hs]

theorem get_eq_some_iff : t.get key = some r ↔ r ∈ t.rows ∧ r.key = key := by
  constructor
  · intro h
    exact ⟨t.mem_of_get key r h, t.key_of_get key r h⟩
  · rintro ⟨hr, rfl⟩
    exact t.get_of_mem r hr

theorem get_eq_none_iff : t.get key = none ↔ t.contains key = false := by
  simp [get, contains]

theorem get_isSome : (t.get key).isSome = t.contains key := by
  cases h : t.contains key with
  | false => rw [(t.get_eq_none_iff key).mpr h]; rfl
  | true =>
    obtain ⟨r, hr, rfl⟩ := (t.contains_iff key).mp h
    rw [t.get_of_mem r hr]; rfl

theorem contains_congr {t u : Table κ ν} {key : κ} (h : t.get key = u.get key) :
    t.contains key = u.contains key := by
  rw [← t.get_isSome, ← u.get_isSome, h]

private theorem nodup_append_row (h : t.contains r.key = false) :
    ((t.rows ++ [r]).map Row.key).Nodup := by
  rw [map_append, nodup_append]
  refine ⟨t.keys_nodup, by simp, ?_⟩
  intro a ha b hb
  obtain ⟨s, hs, rfl⟩ := mem_map.mp ha
  obtain rfl : b = r.key := by simpa using hb
  exact (t.not_contains_iff _).mp h s hs

/-- A put that refuses to overwrite: it fails when the key is stored. The index then
has no such entry either, so the index put that follows cannot fail. -/
def add (t : Table κ ν) (r : Row κ ν) (message : ε) : Except ε (Table κ ν) :=
  if h : t.contains r.key = false then
    .ok ⟨t.rows ++ [r], t.index ++ [r.entry], t.nodup_append_row r h, by simp [t.mirrored]⟩
  else .error message

theorem add_eq_ok (msg : ε) (u : Table κ ν) :
    t.add r msg = .ok u ↔ t.contains r.key = false ∧ u.rows = t.rows ++ [r] := by
  unfold add
  split
  case isTrue h =>
    simp only [Except.ok.injEq, h, true_and]
    exact ⟨fun hu => hu ▸ rfl, fun hu => eq_of_rows_eq hu.symm⟩
  case isFalse h => simp [h]

theorem add_of_not_contains (msg : ε) (h : t.contains r.key = false) :
    ∃ u, t.add r msg = .ok u ∧ u.rows = t.rows ++ [r] := by
  simp [add, h, ↓reduceDIte]

/-- Rows that can be added one after the other: their keys are new and distinct. -/
def Fresh (t : Table κ ν) (rows : List (Row κ ν)) : Prop :=
  (∀ r ∈ rows, t.contains r.key = false) ∧ (rows.map Row.key).Nodup

/-- Adding rows one after the other succeeds exactly when they are fresh, and then
appends them. -/
theorem loop_add_eq_ok (rows : List (Row κ ν)) (msg : ε) (u : Table κ ν) :
    Checked.loop (fun t r => t.add r msg) rows t = .ok u ↔
      t.Fresh rows ∧ u.rows = t.rows ++ rows := by
  induction rows generalizing t with
  | nil =>
    simp only [Checked.loop_nil, Except.ok.injEq, append_nil]
    exact ⟨fun h => ⟨⟨by simp, by simp⟩, h ▸ rfl⟩, fun h => eq_of_rows_eq h.2.symm⟩
  | cons r rest ih =>
    rw [Checked.loop_cons_eq_ok]
    simp only [Fresh, add_eq_ok, ih, forall_mem_cons, map_cons, nodup_cons,
      mem_map, not_exists, not_and]
    constructor
    · rintro ⟨t', ⟨hr, ht'⟩, ⟨hfresh, hnd⟩, hu⟩
      simp only [not_contains_iff, ht', mem_append, mem_singleton] at hfresh
      refine ⟨⟨⟨hr, fun s hs => (t.not_contains_iff _).mpr fun q hq => hfresh s hs q (Or.inl hq)⟩,
        fun s hs => (hfresh s hs r (Or.inr rfl)).symm, hnd⟩, ?_⟩
      rw [hu, ht', append_assoc, singleton_append]
    · rintro ⟨⟨⟨hr, hfresh⟩, hnew, hnd⟩, hu⟩
      obtain ⟨t', -, ht'⟩ := t.add_of_not_contains r msg hr
      refine ⟨t', ⟨hr, ht'⟩, ⟨?_, hnd⟩, by rw [hu, ht', append_assoc]; rfl⟩
      intro s hs
      rw [not_contains_iff, ht']
      intro q hq
      rcases mem_append.mp hq with hq | hq
      · exact (t.not_contains_iff _).mp (hfresh s hs) q hq
      · rw [mem_singleton.mp hq]
        exact fun hkey => hnew s hs hkey.symm

theorem exists_append_of_fresh (rows : List (Row κ ν)) (h : t.Fresh rows) :
    ∃ u : Table κ ν, u.rows = t.rows ++ rows := by
  have hnd : ((t.rows ++ rows).map Row.key).Nodup := by
    rw [map_append, nodup_append]
    refine ⟨t.keys_nodup, h.2, ?_⟩
    intro a ha b hb
    obtain ⟨r, hr, rfl⟩ := mem_map.mp ha
    obtain ⟨s, hs, rfl⟩ := mem_map.mp hb
    exact (t.not_contains_iff _).mp (h.1 s hs) r hr
  exact ⟨⟨t.rows ++ rows, _, hnd, rfl⟩, rfl⟩

private theorem filter_keysFrom : (t.rows.filter fun r => r.key ∉ t.keysFrom height) =
      t.rows.filter fun r => r.height < height := by
  refine filter_congr fun r hr => ?_
  rw [decide_eq_decide, t.mem_keysFrom height r hr, Nat.not_le]

/-- Delete every row the index lists at `height` or above, with its index entry. -/
def removeFromHeight (t : Table κ ν) (height : ℕ) : Table κ ν where
  rows := t.rows.filter fun r => r.key ∉ t.keysFrom height
  index := t.index.filter fun e => e.1 < height
  keys_nodup := t.keys_nodup.sublist (filter_sublist.map _)
  mirrored := by
    rw [t.filter_keysFrom, t.mirrored, filter_map]
    rfl

@[simp] theorem rows_removeFromHeight :
    (t.removeFromHeight height).rows = t.rows.filter fun r => r.height < height :=
  t.filter_keysFrom height

theorem mem_removeFromHeight :
    r ∈ (t.removeFromHeight height).rows ↔ r ∈ t.rows ∧ r.height < height := by
  rw [rows_removeFromHeight, mem_filter, decide_eq_true_eq]

theorem get_removeFromHeight :
    (t.removeFromHeight height).get key = (t.get key).filter fun r => r.height < height := by
  ext r
  simp only [get_eq_some_iff, rows_removeFromHeight, mem_filter, decide_eq_true_eq,
    Option.filter_eq_some_iff]
  tauto

theorem contains_removeFromHeight_of_not (h : t.contains key = false) :
    (t.removeFromHeight height).contains key = false := by
  rw [not_contains_iff] at h ⊢
  intro r hr
  exact h r ((t.mem_removeFromHeight height r).mp hr).1

theorem removeFromHeight_of_below (h : ∀ r ∈ t.rows, r.height < height) :
    t.removeFromHeight height = t := by
  apply eq_of_rows_eq
  rw [rows_removeFromHeight, filter_eq_self]
  intro r hr
  simpa using h r hr

theorem removeFromHeight_append {t u : Table κ ν} {height : ℕ} {added : List (Row κ ν)}
    (hrows : u.rows = t.rows ++ added) (hbelow : ∀ r ∈ t.rows, r.height < height)
    (habove : ∀ r ∈ added, height ≤ r.height) : u.removeFromHeight height = t := by
  have hadded : (added.filter fun r => r.height < height) = [] := by
    rw [filter_eq_nil_iff]
    intro r hr
    simpa using habove r hr
  apply eq_of_rows_eq
  rw [rows_removeFromHeight, hrows, filter_append, hadded, append_nil,
    ← rows_removeFromHeight, t.removeFromHeight_of_below height hbelow]

section Extension

variable {t u : Table κ ν} {added : List (Row κ ν)}

theorem get_append_of_contains (hrows : u.rows = t.rows ++ added) {key : κ}
    (h : t.contains key = true) : u.get key = t.get key := by
  obtain ⟨r, hr, rfl⟩ := (t.contains_iff key).mp h
  have hu : r ∈ u.rows := by rw [hrows]; exact mem_append_left _ hr
  rw [t.get_of_mem r hr, u.get_of_mem r hu]

theorem get_append_of_fresh (hrows : u.rows = t.rows ++ added) (key : κ)
    (h : ∀ r ∈ added, r.key ≠ key) : u.get key = t.get key := by
  ext r
  rw [get_eq_some_iff, get_eq_some_iff, hrows, mem_append]
  constructor
  · rintro ⟨hr | hr, hkey⟩
    · exact ⟨hr, hkey⟩
    · exact absurd hkey (h r hr)
  · rintro ⟨hr, hkey⟩
    exact ⟨Or.inl hr, hkey⟩

end Extension

end Table

end Monzero.IndexedTable
