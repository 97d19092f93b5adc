import Monzero.BlockQueues

/-!
The requested hashes and the spans of a block queue. Whatever is requested is listed by a span
after every sequence of calls. The converse holds while no two spans list one hash. Two
reservations of different connections may overlap, and then the end of one of them takes hashes
of the other out of the index.
-/
namespace Monzero.SpanIndex

open Bytes Primitives OrderedByKey MarkIndex BlockQueues BlockQueue

variable {β : Type}

inductive Call (β : Type)
  | reserveSpan (r : SpanRequest)
  | addBlocks (height : UInt64) (bcel : List β) (connectionId : Uuid)
  | flushSpans (connectionId : Uuid) (all : Bool)
  | flushStaleSpans (liveConnections : Finset Uuid)
  | removeSpan (startBlockHeight : UInt64)
  | removeSpans (connectionId : Uuid) (startBlockHeight : UInt64)

/-- The queue after a call. A call that throws leaves it as it was. -/
def perform (q : BlockQueue β) : Call β → BlockQueue β
  | .reserveSpan r =>
      match q.reserveSpan r with
      | .ok reserved => reserved.2
      | .error _ => q
  | .addBlocks height bcel connectionId => q.addBlocks height bcel connectionId
  | .flushSpans connectionId all => q.flushSpans connectionId all
  | .flushStaleSpans liveConnections => q.flushStaleSpans liveConnections
  | .removeSpan startBlockHeight => (q.removeSpan startBlockHeight).2
  | .removeSpans connectionId startBlockHeight => q.removeSpans connectionId startBlockHeight

/-- An empty queue after some calls. -/
def run (calls : List (Call β)) : BlockQueue β := calls.foldl perform .empty

theorem run_concat (calls : List (Call β)) (c : Call β) :
    run (calls ++ [c]) = perform (run calls) c := by
  rw [run, List.foldl_concat, run]

/-- Every requested hash is listed by a span. -/
def RequestedListed (q : BlockQueue β) : Prop :=
  ∀ h, q.requested h = true → ∃ s ∈ q.blocks, h ∈ s.hashes

/-- The requested hashes are those that the spans list. -/
def Mirrors (q : BlockQueue β) : Prop :=
  ∀ h, q.requested h = true ↔ ∃ s ∈ q.blocks, h ∈ s.hashes

/-- No two spans list one hash. -/
def SpansApart (q : BlockQueue β) : Prop :=
  ∀ s ∈ q.blocks.elems, ∀ t ∈ q.blocks.elems, s ≠ t → ∀ h ∈ s.hashes, h ∉ t.hashes

instance [DecidableEq β] (q : BlockQueue β) : Decidable (SpansApart q) := by
  unfold SpansApart
  infer_instance

variable (q : BlockQueue β)

theorem mem_marked (h : Hash) : h ∈ q.index.marked ↔ q.requested h = true := by
  rw [requested, decide_eq_true_eq]
  exact Iff.rfl

theorem mem_listed (h : Hash) :
    h ∈ ⋃ s ∈ q.index.items, s.listed ↔ ∃ s ∈ q.blocks, h ∈ s.hashes := by
  simp only [Set.mem_iUnion₂, exists_prop]
  exact Iff.rfl

theorem requestedListed_iff : RequestedListed q ↔ q.index.Sound := by
  simp only [RequestedListed, ← mem_marked, ← mem_listed]
  exact Iff.rfl

theorem mirrors_iff : Mirrors q ↔ q.index.Exact := by
  simp only [Mirrors, ← mem_marked, ← mem_listed]
  exact Set.ext_iff.symm

theorem spansApart_iff : SpansApart q ↔ q.index.Apart := Iff.rfl

/-- One call drops spans, inserts one without hashes, and at last gives one its hashes. -/
theorem changes_perform (c : Call β) : Index.Changes q.index (perform q c).index := by
  have hquiet : ∀ q' : BlockQueue β, Relation.ReflTransGen Index.Quiet q.index q'.index →
      Index.Changes q.index q'.index := fun q' steps => ⟨q'.index, steps, .inl rfl⟩
  cases c with
  | reserveSpan r =>
    cases h : q.findSpan r with
    | none =>
      simp only [perform, reserveSpan_of_none h]
      exact hquiet q .refl
    | some found =>
      obtain ⟨height, count, hashes⟩ := found
      simp only [perform, reserveSpan_of_some h]
      set inserted := q.insertSpan (.scheduled height count r.connectionId)
      obtain ⟨y, steps, hy⟩ := changes_setSpanHashes inserted height r.connectionId hashes
      exact ⟨y, (quiet_insertSpan q rfl).trans steps, hy⟩
  | addBlocks height bcel connectionId => exact changes_addBlocks q height bcel connectionId
  | flushSpans connectionId all => exact hquiet _ (quiet_eraseWhere q _)
  | flushStaleSpans liveConnections => exact hquiet _ (quiet_eraseWhere q _)
  | removeSpan startBlockHeight => exact hquiet _ (quiet_removeSpan q startBlockHeight)
  | removeSpans connectionId startBlockHeight => exact hquiet _ (quiet_eraseWhere q _)

theorem sound_run (calls : List (Call β)) : (run calls).index.Sound := by
  induction calls using List.reverseRecOn with
  | nil => exact fun h hh => absurd hh (Finset.notMem_empty h)
  | append_singleton calls c ih =>
    rw [run_concat]
    exact (changes_perform (run calls) c).sound ih

theorem exact_empty : (empty : BlockQueue β).index.Exact := by
  rw [← mirrors_iff]
  intro h
  simp [requested, empty, KeyedSet.mem_empty]

theorem exact_run {calls : List (Call β)}
    (hapart : ∀ k < calls.length, SpansApart (run (calls.take k))) : (run calls).index.Exact := by
  induction calls using List.reverseRecOn with
  | nil => exact exact_empty
  | append_singleton calls c ih =>
    have hbefore : SpansApart (run calls) := by
      have := hapart calls.length (by simp)
      rwa [List.take_left] at this
    have hexact := ih fun k hk => by
      have := hapart k (by rw [List.length_append]; omega)
      rwa [List.take_append_of_le_length (Nat.le_of_lt hk)] at this
    rw [run_concat]
    exact (changes_perform (run calls) c).exact hexact ((spansApart_iff _).mp hbefore)

theorem forall_removeSpan_iff (h : Mirrors q) :
    (∀ start, Mirrors (perform q (.removeSpan start))) ↔ SpansApart q := by
  rw [spansApart_iff, ← Index.forall_drop_exact_iff ((mirrors_iff q).mp h)]
  constructor
  · intro hremove i hi
    have := hremove i.startBlockHeight
    rwa [perform, removeSpan_of_mem q hi, mirrors_iff, index_eraseBlock q hi] at this
  · intro hdrop start
    by_cases hstart : ∃ i ∈ q.blocks, i.startBlockHeight = start
    · obtain ⟨i, hi, rfl⟩ := hstart
      rw [perform, removeSpan_of_mem q hi, mirrors_iff, index_eraseBlock q hi]
      exact hdrop i hi
    · push Not at hstart
      rw [perform, removeSpan_of_absent q hstart]
      exact h

/-- After any calls, what is requested is listed. The converse holds if no two spans listed one
hash before any of the calls; and where it holds, it survives the removal of every span
exactly when no two spans list one hash. -/
theorem requested_mirrors_spans (calls : List (Call β)) :
    RequestedListed (run calls) ∧
      ((∀ k < calls.length, SpansApart (run (calls.take k))) → Mirrors (run calls)) ∧
      (Mirrors (run calls) →
        ((∀ start, Mirrors (run (calls ++ [.removeSpan start]))) ↔ SpansApart (run calls))) := by
  refine ⟨(requestedListed_iff _).mpr (sound_run calls), ?_, ?_⟩
  · intro hapart
    exact (mirrors_iff _).mpr (exact_run hapart)
  · intro hmirrors
    simp only [run_concat]
    exact forall_removeSpan_iff (run calls) hmirrors

/-- A request by a peer that has pruned nothing. -/
def sampleRequest (peer : UInt8) (last : UInt64) (hashes : List UInt8) : SpanRequest where
  firstBlockHeight := 1
  lastBlockHeight := last
  maxBlocks := 20
  connectionId := .fill peer
  syncPrunedBlocks := false
  localPruningSeed := 0
  pruningSeed := 0
  blockchainHeight := 10
  blockHashes := hashes.map fun n => (.fill n, 0)

/-- Two reservations one after the other, of which the first is given up. -/
def separateCalls : List (Call Unit) :=
  [.reserveSpan (sampleRequest 1 3 [2, 3]), .reserveSpan (sampleRequest 2 5 [2, 3, 4, 5]),
    .flushSpans (.fill 1) false]

theorem requested_mirrors_separate :
    (∀ k < separateCalls.length, SpansApart (run (separateCalls.take k))) ∧
      Mirrors (run separateCalls) := by
  have hapart : ∀ k < separateCalls.length, SpansApart (run (separateCalls.take k)) := by
    decide +kernel
  exact ⟨hapart, (requested_mirrors_spans separateCalls).2.1 hapart⟩

/-- A second peer sends one hash before those that are requested from the first, and reserves
all three; then it is gone. -/
def overlappingCalls : List (Call Unit) :=
  [.reserveSpan (sampleRequest 1 3 [2, 3]), .reserveSpan (sampleRequest 2 3 [1, 2, 3]),
    .flushSpans (.fill 2) false]

/-- The span of the first peer lists a hash that is no longer requested. -/
theorem requested_forgets_listed :
    (run overlappingCalls).requested (.fill 2) = false ∧
      (∃ s ∈ (run overlappingCalls).blocks.elems,
        s.connectionId = .fill 1 ∧ .fill 2 ∈ s.hashes) ∧
      ¬Mirrors (run overlappingCalls) := by
  have hforgotten : (run overlappingCalls).requested (.fill 2) = false := by decide +kernel
  have hlisted : ∃ s ∈ (run overlappingCalls).blocks.elems,
      s.connectionId = .fill 1 ∧ .fill 2 ∈ s.hashes := by decide +kernel
  refine ⟨hforgotten, hlisted, fun h => ?_⟩
  obtain ⟨s, hs, -, hmem⟩ := hlisted
  rw [(h (.fill 2)).mpr ⟨s, hs, hmem⟩] at hforgotten
  cases hforgotten

end Monzero.SpanIndex
