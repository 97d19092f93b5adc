import Monzero.SpanIndex

/-!
What a reservation leaves in the block queue. The span that `reserve_span` reports lies within
the hashes of the peer and within the limits of the request, and no span at another height
changes. Whether the span is in the queue depends on what starts at its height already: the
queue keeps one span for each start, and neither the insertion nor the search for the span of
the connection says that it did nothing.
-/
namespace Monzero.Reservations

open Primitives BlockQueues BlockQueue SpanIndex

variable {β : Type} (q : BlockQueue β)

theorem mem_setSpanHashes {i : Span β} (hi : i ∈ q.blocks) (hashes : List Hash) {t : Span β} :
    t ∈ (q.setSpanHashes i.startBlockHeight i.connectionId hashes).blocks ↔
      t = { i with hashes } ∨ (t ∈ q.blocks ∧ t ≠ i) :=
  Set.ext_iff.mp (congrArg MarkIndex.Index.items (q.index_setSpanHashes hi hashes)) t

theorem exists_mem_insertSpan (s : Span β) :
    ∃ u ∈ (q.insertSpan s).blocks, u.startBlockHeight = s.startBlockHeight := by
  by_cases h : ∃ u ∈ q.blocks, u.startBlockHeight = s.startBlockHeight
  · obtain ⟨u, hu, hstart⟩ := h
    exact ⟨u, (q.mem_insertSpan s u).mpr (.inl hu), hstart⟩
  · push Not at h
    exact ⟨s, (q.mem_insertSpan s s).mpr (.inr ⟨rfl, h⟩), rfl⟩

/-- What the inserted span is like and the old ones at its height are like too, is what the span
is like that starts there afterwards. -/
theorem forall_at_start_iff {s u : Span β} (hu : u ∈ (q.insertSpan s).blocks)
    (hstart : u.startBlockHeight = s.startBlockHeight) (P : Span β → Prop) (hs : P s) :
    (∀ t ∈ q.blocks, t.startBlockHeight = s.startBlockHeight → P t) ↔ P u := by
  rcases (q.mem_insertSpan s u).mp hu with hold | ⟨rfl, hfree⟩
  · constructor
    · intro h
      exact h u hold hstart
    · intro hP t ht htstart
      rwa [q.eq_of_start_eq ht hold (htstart.trans hstart.symm)]
  · exact ⟨fun _ => hs, fun _ t ht htstart => absurd htstart (hfree t ht)⟩

/-- The span of the request is in the queue, still to come. -/
def Holds (q : BlockQueue β) (r : SpanRequest) (s n : UInt64) : Prop :=
  ∃ t ∈ q.blocks, t.startBlockHeight = s ∧ t.nblocks = n ∧ t.connectionId = r.connectionId ∧
    t.blocks = [] ∧ t.hashes = r.hashesAt s n

theorem holds_iff_of_mem (r : SpanRequest) (n : UInt64) {u : Span β} (hu : u ∈ q.blocks) :
    Holds q r u.startBlockHeight n ↔ u.nblocks = n ∧ u.connectionId = r.connectionId ∧
      u.blocks = [] ∧ u.hashes = r.hashesAt u.startBlockHeight n := by
  constructor
  · rintro ⟨t, ht, hstart, hspan⟩
    rwa [q.eq_of_start_eq ht hu hstart] at hspan
  · intro hspan
    exact ⟨u, hu, rfl, hspan⟩

/-- A span at the height of a reservation, one of this connection and of this length that is
still to come. -/
def Own (r : SpanRequest) (n : UInt64) (t : Span β) : Prop :=
  t.connectionId = r.connectionId ∧ t.blocks = [] ∧ t.nblocks = n

theorem holds_setSpanHashes_iff (r : SpanRequest) (n : UInt64) {u : Span β} (hu : u ∈ q.blocks) :
    Holds (q.setSpanHashes u.startBlockHeight r.connectionId (r.hashesAt u.startBlockHeight n)) r
      u.startBlockHeight n ↔ Own r n u := by
  by_cases hconn : u.connectionId = r.connectionId
  · have hset := (mem_setSpanHashes q hu (r.hashesAt u.startBlockHeight n)).mpr (.inl rfl)
    rw [hconn] at hset
    rw [holds_iff_of_mem _ r n hset]
    simp only [Own]
    tauto
  · rw [q.setSpanHashes_of_absent _ _ _ fun i hi hstart =>
        (q.eq_of_start_eq hi hu hstart).symm ▸ hconn, holds_iff_of_mem q r n hu]
    simp [Own, hconn]

theorem mem_setSpanHashes_of_ne {s : UInt64} (cid : Uuid) {hashes : List Hash} {t : Span β}
    (ht : t.startBlockHeight ≠ s) : t ∈ (q.setSpanHashes s cid hashes).blocks ↔ t ∈ q.blocks := by
  by_cases h : ∃ i ∈ q.blocks, i.startBlockHeight = s ∧ i.connectionId = cid
  · obtain ⟨i, hi, rfl, rfl⟩ := h
    rw [mem_setSpanHashes q hi, or_iff_right, and_iff_left]
    · rintro rfl
      exact ht rfl
    · rintro rfl
      exact ht rfl
  · rw [q.setSpanHashes_of_absent s cid hashes fun i hi hstart hconn =>
      h ⟨i, hi, hstart, hconn⟩]

theorem mem_insertSpan_of_ne {s : Span β} {t : Span β}
    (ht : t.startBlockHeight ≠ s.startBlockHeight) :
    t ∈ (q.insertSpan s).blocks ↔ t ∈ q.blocks := by
  rw [q.mem_insertSpan, or_iff_left]
  rintro ⟨rfl, -⟩
  exact ht rfl

theorem findSpan_of_reserveSpan {q q' : BlockQueue β} {r : SpanRequest} {s n : UInt64}
    (h : q.reserveSpan r = .ok ((s, n), q')) (hn : n > 0) :
    r.Fits s n ∧ q' = (q.insertSpan (.scheduled s n r.connectionId)).setSpanHashes s r.connectionId
      (r.hashesAt s n) := by
  cases hfind : q.findSpan r with
  | none =>
    rw [reserveSpan_of_none hfind] at h
    cases h
    cases hn
  | some found =>
    obtain ⟨height, count, hashes⟩ := found
    obtain ⟨hfits, rfl⟩ := findSpan_fits hfind
    rw [reserveSpan_of_some hfind] at h
    cases h
    exact ⟨hfits, rfl⟩

/-- A reported span lies within the hashes and the limits of the request, and the spans at other
heights stay. The queue holds the span, with the hashes of its heights, exactly when any span
that started there was a scheduled one of this connection with as many blocks. -/
theorem reported_span_held (q q' : BlockQueue β) (r : SpanRequest) (s n : UInt64)
    (h : q.reserveSpan r = .ok ((s, n), q')) (hn : n > 0) :
    r.firstHashHeight ≤ s.toNat ∧ s.toNat + n.toNat - 1 ≤ r.lastBlockHeight.toNat ∧
      n ≤ r.maxBlocks ∧ (r.hashesAt s n).length = n.toNat ∧
      (∀ t : Span β, t.startBlockHeight ≠ s → (t ∈ q'.blocks ↔ t ∈ q.blocks)) ∧
      (Holds q' r s n ↔ ∀ t ∈ q.blocks, t.startBlockHeight = s → Own r n t) := by
  obtain ⟨hfits, rfl⟩ := findSpan_of_reserveSpan h hn
  have hend := hfits.end_le
  refine ⟨hfits.start_le, by omega, hfits.count_le, hfits.length_hashesAt, ?_, ?_⟩
  · intro t ht
    rw [mem_setSpanHashes_of_ne _ r.connectionId ht, mem_insertSpan_of_ne q ht]
  · obtain ⟨u, hu, hstart⟩ := exists_mem_insertSpan q (.scheduled s n r.connectionId)
    have hstart' : u.startBlockHeight = s := hstart
    have hholds := holds_setSpanHashes_iff _ r n hu
    rw [hstart'] at hholds
    rw [hholds]
    exact (forall_at_start_iff q hu hstart (Own r n) ⟨rfl, rfl, rfl⟩).symm

/-- The queue after a peer has reserved two blocks of its chain. -/
def firstReserved : BlockQueue Unit := run [.reserveSpan (sampleRequest 1 3 [2, 3])]

/-- A peer with the same chain and two blocks more gets those two. -/
theorem reported_span_fresh :
    ∃ q', firstReserved.reserveSpan (sampleRequest 2 5 [2, 3, 4, 5]) = .ok ((4, 2), q') ∧
      Holds q' (sampleRequest 2 5 [2, 3, 4, 5]) 4 2 ∧
      ∀ t ∈ firstReserved.blocks, t ∈ q'.blocks := by
  have hfind : firstReserved.findSpan (sampleRequest 2 5 [2, 3, 4, 5]) =
      some (4, 2, [.fill 4, .fill 5]) := by decide +kernel
  have hothers : ∀ t ∈ firstReserved.blocks.elems, t.startBlockHeight ≠ 4 := by decide +kernel
  have hreserve := reserveSpan_of_some hfind
  obtain ⟨-, -, -, -, hkept, hheld⟩ := reported_span_held _ _ _ 4 2 hreserve (by decide)
  exact ⟨_, hreserve, hheld.mpr fun t ht hstart => absurd hstart (hothers t ht),
    fun t ht => (hkept t (hothers t ht)).mpr ht⟩

/-- A peer on another chain is told that it has two blocks reserved from the same height on, and
the queue has nothing for it. -/
theorem reported_span_missing :
    ((firstReserved.reserveSpan (sampleRequest 2 3 [12, 13])).toOption.map fun reserved =>
        (reserved.1, reserved.2.blocks.elems)) = some ((2, 2), firstReserved.blocks.elems) ∧
      ∀ t ∈ firstReserved.blocks.elems, t.connectionId ≠ .fill 2 := by
  decide +kernel

end Monzero.Reservations
