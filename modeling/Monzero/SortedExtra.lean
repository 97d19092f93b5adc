import Monzero.AddedEnvelope
import Monzero.Buckets

/-!
The sorted extra field. The fields that were read are written again kind by kind, each with a
tag given by hand. Padding comes last, where it is read as padding again, so sorting only
reorders: the fields are the same, those of one kind stay in order, and a sorted extra field
is left as it is.
-/
namespace Monzero.SortedExtra

open Bytes TxExtra TxExtraCodec TxExtraRoundTrip Buckets List

/-- The tag of the variant that a field is. -/
def fieldTag : TxExtraField → UInt8
  | .padding _ => 0x00
  | .pubKey _ => 0x01
  | .nonce _ => 0x02
  | .mergeMiningTag _ _ => 0x03
  | .additionalPubKeys _ => 0x04
  | .monzeroAsset _ => 0x7A
  | .mysteriousMinergate _ => 0xDE

/-- `do_serialize` of a field without its tag; a field beyond its limit is refused. -/
def storeField : TxExtraField → Option (List UInt8)
  | .padding size =>
      if txExtraPaddingMaxCount < size then none else some (List.replicate (size - 1) 0)
  | .pubKey key => some key.bytes
  | .nonce data => if txExtraNonceMaxCount < data.length then none else some (writeString data)
  | .mergeMiningTag depth root => some (writeString (writeVarint depth ++ root.bytes))
  | .additionalPubKeys keys => some (writeVarint keys.length ++ keys.flatMap Blob.bytes)
  | .monzeroAsset data =>
      if txExtraMonzeroAssetMaxCount < data.length then none else some (writeString data)
  | .mysteriousMinergate data => some (writeString data)

/-- `pick`: the first field of a kind is written and erased, as long as there is one. -/
def pick (tag : UInt8) : ℕ → List TxExtraField → Option (List UInt8 × List TxExtraField)
  | 0, fields => some ([], fields)
  | fuel + 1, fields =>
      match fields.find? (fieldTag · = tag) with
      | none => some ([], fields)
      | some f => do
          let stored ← storeField f
          let (later, rest) ← pick tag fuel (fields.eraseP (fieldTag · = tag))
          return (tag :: (stored ++ later), rest)

/-- The calls of `pick`, one after the other. -/
def pickAll : List UInt8 → List TxExtraField → Option (List UInt8 × List TxExtraField)
  | [], fields => some ([], fields)
  | tag :: tags, fields => do
      let (written, rest) ← pick tag fields.length fields
      let (later, rest) ← pickAll tags rest
      return (written ++ later, rest)

/-- The kinds in the order of the calls. -/
def sortOrder : List UInt8 := [0x01, 0x04, 0x02, 0x03, 0x7A, 0xDE, 0x00]

/-- The reading loop of `sort_tx_extra`: the fields up to the first that cannot be read, and the
bytes from there on. -/
def readUntil : ℕ → List UInt8 → List TxExtraField × List UInt8
  | _, [] => ([], [])
  | 0, s => ([], s)
  | fuel + 1, s =>
      match readField s with
      | none => ([], s)
      | some (field, rest) => (field :: (readUntil fuel rest).1, (readUntil fuel rest).2)

def sortTxExtra (extra : List UInt8) (allowPartial : Bool) : Option (List UInt8) :=
  if extra = [] then some []
  else
    let (fields, unread) := readUntil extra.length extra
    if unread ≠ [] ∧ allowPartial = false then none
    else
      match pickAll sortOrder fields with
      | none => none
      | some (sorted, left) => if left ≠ [] then none else some (sorted ++ unread)

theorem writeField_eq_cons (f : TxExtraField) :
    writeField f = fieldTag f :: (writeField f).tail := by
  cases f <;> rfl

/-- Fields that are within the limits of their kind. -/
def Storable (f : TxExtraField) : Prop := storeField f = some (writeField f).tail

theorem storable_of_writable {f : TxExtraField} (h : Writable f) : Storable f := by
  cases f with
  | padding size => exact h.elim
  | pubKey key => rfl
  | nonce data => exact if_neg (Nat.not_lt.mpr h)
  | mergeMiningTag depth root => rfl
  | additionalPubKeys keys => rfl
  | monzeroAsset data => exact if_neg (Nat.not_lt.mpr h)
  | mysteriousMinergate data => rfl

variable {size : ℕ}

theorem storable_padding (h : size ≤ txExtraPaddingMaxCount) :
    Storable (.padding size) := if_neg (Nat.not_lt.mpr h)

theorem pick_eq (tag : UInt8) (fuel : ℕ) (fs : List TxExtraField)
    (hstorable : ∀ f ∈ fs, Storable f) (hfuel : fs.length ≤ fuel) :
    pick tag fuel fs = some ((fs.filter (fieldTag · = tag)).flatMap writeField,
      fs.filter (fieldTag · ≠ tag)) := by
  induction fuel generalizing fs with
  | zero =>
    rw [length_eq_zero_iff.mp (Nat.le_zero.mp hfuel)]
    rfl
  | succ fuel ih =>
    rw [pick]
    split
    · rename_i hnone
      have hother : ∀ f ∈ fs, fieldTag f ≠ tag := by simpa using hnone
      rw [filter_eq_nil_iff.mpr (by simpa using hother), filter_eq_self.mpr (by simpa using hother)]
      rfl
    · rename_i f hfind
      obtain ⟨hf, front, back, rfl, hfront⟩ := find?_eq_some_iff_append.mp hfind
      have htag : fieldTag f = tag := of_decide_eq_true hf
      have hnone : front.filter (fieldTag · = tag) = [] :=
        filter_eq_nil_iff.mpr (by simpa using hfront)
      have herase : (front ++ f :: back).eraseP (fieldTag · = tag) = front ++ back := by
        rw [eraseP_append_right _ (by simpa using hfront)]
        simp [htag]
      have hst : storeField f = some (writeField f).tail := hstorable f (by simp)
      rw [length_append, length_cons] at hfuel
      rw [herase, hst, ih (front ++ back)]
      · simp only [filter_append, hnone, nil_append, htag, filter_cons,
          decide_true, if_true, flatMap_cons, Option.bind_eq_bind, Option.bind_some,
          Option.pure_def, ne_eq, not_true_eq_false, decide_false, Bool.false_eq_true, if_false,
          Option.some.injEq, Prod.mk.injEq, and_true]
        rw [← cons_append, ← htag, ← writeField_eq_cons]
      · intro g hg
        refine hstorable g ?_
        rw [mem_append, mem_cons]
        exact (mem_append.mp hg).imp_right Or.inr
      · rw [length_append]
        omega

theorem pickAll_eq (tags : List UInt8) (hnd : tags.Nodup) (fs : List TxExtraField)
    (hstorable : ∀ f ∈ fs, Storable f) :
    pickAll tags fs = some ((gather fieldTag tags fs).flatMap writeField,
      fs.filter (fieldTag · ∉ tags)) := by
  induction tags generalizing fs with
  | nil => simp [pickAll]
  | cons tag tags ih =>
    obtain ⟨hnot, htags⟩ := nodup_cons.mp hnd
    rw [pickAll, pick_eq tag _ fs hstorable le_rfl]
    simp only [Option.bind_eq_bind, Option.bind_some, Option.pure_def]
    rw [ih htags _ fun f hf => hstorable f (mem_filter.mp hf).1]
    simp only [Option.bind_some, Option.some.injEq, Prod.mk.injEq]
    refine ⟨?_, ?_⟩
    · rw [gather_filter_ne hnot, gather_cons, flatMap_append]
    · rw [filter_filter]
      refine filter_congr fun f _ => ?_
      simp [Bool.and_comm]

theorem fieldTag_mem_sortOrder (f : TxExtraField) : fieldTag f ∈ sortOrder := by
  cases f <;> simp [fieldTag, sortOrder]

theorem nodup_sortOrder : sortOrder.Nodup := by decide

theorem readFields_eq_readUntil (fuel : ℕ) (s : List UInt8) : readFields fuel s =
      if (readUntil fuel s).2 = [] then some (readUntil fuel s).1 else none := by
  induction fuel generalizing s with
  | zero =>
    cases s with
    | nil => rfl
    | cons b rest => simp [readFields, readUntil]
  | succ fuel ih =>
    cases s with
    | nil => rfl
    | cons b rest =>
      rw [readFields, readUntil]
      · cases hread : readField (b :: rest) with
        | none => simp
        | some r =>
          obtain ⟨f, later⟩ := r
          simp only [Option.bind_eq_bind, Option.bind_some, ih, Option.pure_def]
          split <;> simp
      · simp
      · simp

theorem readField_padding {s rest : List UInt8} (h : readField s = some (.padding size, rest)) :
    0 < size ∧ size ≤ txExtraPaddingMaxCount := by
  cases s with
  | nil => cases h
  | cons tag after =>
    rw [readField] at h
    split_ifs at h with htag hzeros
    · cases h
      exact ⟨Nat.succ_pos _, hzeros.2⟩
    all_goals
      simp [readLimited, readMergeMiningTag, Option.bind_eq_some_iff] at h

variable {e : List UInt8} {fields : List TxExtraField}

theorem parsed_padding (h : Parsed e fields)
    (hmem : .padding size ∈ fields) : 0 < size ∧ size ≤ txExtraPaddingMaxCount := by
  induction h with
  | nil => cases hmem
  | cons read later ih =>
    rcases mem_cons.mp hmem with rfl | hlater
    · exact readField_padding read
    · exact ih hlater

theorem readField_writeField_padding (hpos : 0 < size) (hsize : size ≤ txExtraPaddingMaxCount) :
    readField (writeField (.padding size)) = some (.padding size, []) := by
  rw [writeField, readField, if_pos rfl, if_pos, length_replicate, Nat.sub_add_cancel hpos]
  refine ⟨by simp, ?_⟩
  rw [length_replicate]
  omega

theorem parsed_storable (h : Parsed e fields) : ∀ f ∈ fields, Storable f := by
  rcases parsed_writable h with hall | ⟨front, size, rfl, hfront⟩
  · exact fun f hf => storable_of_writable (hall f hf)
  · intro f hf
    rcases mem_append.mp hf with hf | hf
    · exact storable_of_writable (hfront f hf)
    · rw [mem_singleton.mp hf]
      exact storable_padding (parsed_padding h (by simp)).2

theorem sortTxExtra_eq (e : List UInt8) : sortTxExtra e false =
      (parseTxExtra e).map fun fields => (gather fieldTag sortOrder fields).flatMap writeField := by
  by_cases hemp : e = []
  · subst hemp
    rfl
  have hprs : parseTxExtra e = if (readUntil e.length e).2 = [] then
      some (readUntil e.length e).1 else none := readFields_eq_readUntil e.length e
  rw [sortTxExtra, if_neg hemp]
  dsimp only
  by_cases hread : (readUntil e.length e).2 = []
  · rw [if_pos hread] at hprs
    have hstorable := parsed_storable (parsed_of_parseTxExtra hprs)
    have hleft : (readUntil e.length e).1.filter (fieldTag · ∉ sortOrder) = [] :=
      filter_eq_nil_iff.mpr fun f _ => by simp [fieldTag_mem_sortOrder f]
    rw [if_neg (fun h => h.1 hread), pickAll_eq sortOrder nodup_sortOrder _ hstorable, hprs,
      hleft, hread]
    simp
  · rw [if_neg hread] at hprs
    rw [if_pos ⟨hread, rfl⟩, hprs]
    rfl

theorem parsed_gather (h : Parsed e fields) :
    Parsed ((gather fieldTag sortOrder fields).flatMap writeField)
      (gather fieldTag sortOrder fields) := by
  rcases parsed_writable h with hall | ⟨front, size, rfl, hfront⟩
  · have hwritable : ∀ f ∈ gather fieldTag sortOrder fields, Writable f :=
      fun f hf => hall f (mem_gather.mp hf).1
    simpa using parsed_written_append hwritable .nil
  · have hwritable : ∀ f ∈ gather fieldTag sortOrder front, Writable f :=
      fun f hf => hfront f (mem_gather.mp hf).1
    have hsplit : gather fieldTag sortOrder (front ++ [.padding size]) =
        gather fieldTag sortOrder front ++ [.padding size] :=
      gather_concat [0x01, 0x04, 0x02, 0x03, 0x7A, 0xDE] (by decide) rfl
    have hmem : .padding size ∈ front ++ [.padding size] := by simp
    obtain ⟨hpos, hsize⟩ := parsed_padding h hmem
    have hpadding : Parsed (writeField (.padding size)) [.padding size] :=
      .cons (readField_writeField_padding hpos hsize) .nil
    rw [hsplit, flatMap_append, flatMap_singleton]
    exact parsed_written_append hwritable hpadding

theorem envelopes_gather (fs : List TxExtraField) :
    envelopes (gather fieldTag sortOrder fs) = envelopes fs := by
  have hfilter (l : List TxExtraField) :
      envelopes l = envelopes (l.filter (fieldTag · = 0x7A)) := by
    induction l with
    | nil => rfl
    | cons f rest ih => cases f <;> simp_all [envelopes, fieldTag]
  rw [hfilter, filter_gather nodup_sortOrder (by decide), ← hfilter]

/-- Sorting only reorders, is done once, and keeps the envelope. -/
theorem sort_tx_extra_reorders (e s : List UInt8) (h : sortTxExtra e false = some s) :
    ∃ fields sorted, parseTxExtra e = some fields ∧ parseTxExtra s = some sorted ∧
      sorted.Perm fields ∧
      (∀ f, sorted.filter (fieldTag · = fieldTag f) = fields.filter (fieldTag · = fieldTag f)) ∧
      sortTxExtra s false = some s ∧
      getMonzeroAssetTxExtra s = getMonzeroAssetTxExtra e := by
  rw [sortTxExtra_eq, Option.map_eq_some_iff] at h
  obtain ⟨fields, hparse, rfl⟩ := h
  have hsorted := parseTxExtra_of_parsed (parsed_gather (parsed_of_parseTxExtra hparse))
  refine ⟨fields, gather fieldTag sortOrder fields, hparse, hsorted,
    gather_perm nodup_sortOrder fun f _ => fieldTag_mem_sortOrder f, fun f => ?_, ?_, ?_⟩
  · exact filter_gather nodup_sortOrder (fieldTag_mem_sortOrder f)
  · rw [sortTxExtra_eq, hsorted, Option.map_some, gather_gather nodup_sortOrder]
  · rw [getMonzeroAssetTxExtra, getMonzeroAssetTxExtra, hsorted, hparse]
    simp only [envelopes_gather]

/-- An envelope, a nonce and two bytes of padding: the nonce comes first. -/
theorem sort_tx_extra_envelope :
    sortTxExtra [0x7A, 0x01, 0x05, 0x02, 0x01, 0x07, 0x00, 0x00] false =
        some [0x02, 0x01, 0x07, 0x7A, 0x01, 0x05, 0x00, 0x00] ∧
      getMonzeroAssetTxExtra [0x02, 0x01, 0x07, 0x7A, 0x01, 0x05, 0x00, 0x00] =
        getMonzeroAssetTxExtra [0x7A, 0x01, 0x05, 0x02, 0x01, 0x07, 0x00, 0x00] := by
  have hsort : sortTxExtra [0x7A, 0x01, 0x05, 0x02, 0x01, 0x07, 0x00, 0x00] false =
      some [0x02, 0x01, 0x07, 0x7A, 0x01, 0x05, 0x00, 0x00] := by decide +kernel
  obtain ⟨_, _, _, _, _, _, _, henvelope⟩ := sort_tx_extra_reorders _ _ hsort
  exact ⟨hsort, henvelope⟩

end Monzero.SortedExtra
