import Monzero.HashChain
import Monzero.LongTermWeights
import Monzero.WindowMedian

/-!
The cache of the long-term median is never seen. A chain is determined by the hash of its
top block, since each block names the one before it and its long-term weight follows from
the blocks before it. So where a hash is found equal to the cached one, the rolling median
holds the last long-term weights of the chain that ends there, whatever was popped or added
in between, and one more insertion moves it to the next block.
-/
namespace Monzero.LongTermWeightRuns

open Primitives Median HashChain LongTermWeights State RollingMedian List
open Checked (failIf_of_not ok_bind bind_eq_ok pure_eq_ok)

def storedMedian (R : WeightRules) (rows : List WeightRow) : ℕ :=
  median (lastOf R.window (rows.map WeightRow.longTermWeight))

def storedNextWeight (R : WeightRules) (rows : List WeightRow) (blockWeight : ℕ) : ℕ :=
  if R.currentVersion rows < hfVersionLongTermBlockWeight then blockWeight
  else boundedWeight (R.currentVersion rows) (storedMedian R rows) blockWeight

/-- A row holds the long-term weight that is computed from the rows before it. -/
def format (R : WeightRules) : Format Hash WeightBlock WeightRow where
  nameOf := WeightRow.hash
  parent := WeightBlock.prevId
  root := nullHash
  row rows id b := ⟨id, b, storedNextWeight R rows b.weight⟩
  nameOf_row _ _ _ := rfl

theorem hashAt_eq_topHash {rows : List WeightRow} {height : ℕ} (h : height < rows.length) :
    hashAt rows height = topHash (rows.take (height + 1)) := by
  rw [take_succ_eq_append_getElem h, topHash, getLast?_concat, hashAt, getElem?_eq_getElem h]

theorem longTermWeightAt_eq {rows : List WeightRow} {height : ℕ} (h : height < rows.length) :
    (rows.take (height + 1)).map WeightRow.longTermWeight =
      (rows.take height).map WeightRow.longTermWeight ++ [longTermWeightAt rows height] := by
  rw [take_succ_eq_append_getElem h, map_append, longTermWeightAt, getElem?_eq_getElem h]
  rfl

variable {R : WeightRules} {blockOf : Hash → Option WeightBlock} {rows : List WeightRow}

/-- What the cache holds belongs to a chain. -/
structure Remembers (R : WeightRules) (blockOf : Hash → Option WeightBlock) (c : Cache) : Prop where
  valid : c.rollingMedian.Valid
  size : c.rollingMedian.N = R.window
  window : c.rollingMedian.sz ≠ 0 → c.tipHash ≠ nullHash → ∃ cached,
    Chain (format R) blockOf cached ∧ topHash cached = c.tipHash ∧
    c.rollingMedian.window = lastOf R.window (cached.map WeightRow.longTermWeight)

theorem map_window (field : WeightRow → ℕ) {start count : ℕ}
    (hcnt : count = min R.window (start + count)) (hin : start + count ≤ rows.length) :
    ((rows.drop start).take count).map field =
      lastOf R.window ((rows.take (start + count)).map field) := by
  have hstart : start + count - R.window = start := by omega
  rw [lastOf, length_map, length_take, Nat.min_eq_left hin, hstart, map_take,
    map_take, map_drop, drop_take, Nat.add_sub_cancel_left]

section Answers

variable {c : Cache}

/-- A rolling median that holds the last weights of a chain, under the hash of its top block or
under none. -/
theorem Remembers.of_window {tipHash : Hash} {rm : RollingMedian ℕ} (hvalid : rm.Valid)
    (hsize : rm.N = R.window) {cached : List WeightRow} (hchain : Chain (format R) blockOf cached)
    (htop : tipHash = topHash cached ∨ tipHash = nullHash)
    (hwin : rm.window = lastOf R.window (cached.map WeightRow.longTermWeight)) :
    Remembers R blockOf ⟨tipHash, rm⟩ := by
  refine ⟨hvalid, hsize, fun _ hne => ⟨cached, hchain, ?_, hwin⟩⟩
  rcases htop with htop | htop
  · exact htop.symm
  · exact absurd htop hne

theorem Remembers.window_of_hash (hnull : blockOf nullHash = none) (hcache : Remembers R blockOf c)
    (hsz : 0 < c.rollingMedian.size) (hchain : Chain (format R) blockOf rows) {height : ℕ}
    (hht : height < rows.length) (hhash : hashAt rows height = c.tipHash) : c.rollingMedian.window =
      lastOf R.window ((rows.take (height + 1)).map WeightRow.longTermWeight) := by
  rw [hashAt_eq_topHash hht] at hhash
  have hfront := hchain.take (height + 1)
  have hne : rows.take (height + 1) ≠ [] := by
    intro hnil
    have hlen := congrArg List.length hnil
    rw [length_take, length_nil] at hlen
    omega
  have hsome : c.tipHash ≠ nullHash := by
    rw [← hhash]
    exact hfront.top_ne_root hnull hne
  obtain ⟨cached, hcached, htop, hwin⟩ := hcache.window (by rw [RollingMedian.size] at hsz; omega)
    hsome
  rw [hwin, hcached.unique hnull hfront (htop.trans hhash.symm)]

theorem rebuild_spec {m : RollingMedian ℕ} (ws : List ℕ) (hN : 1 ≤ m.N) (hfit : ws.length ≤ m.N) :
    (ws.foldl RollingMedian.insert m.clear).Valid ∧
      (ws.foldl RollingMedian.insert m.clear).N = m.N ∧
      (ws.foldl RollingMedian.insert m.clear).window = ws := by
  obtain ⟨hclear, hclearN, hemp⟩ := clear_spec m hN
  obtain ⟨hvalid, hsize, hwin⟩ := hclear.insertAll ws
  rw [hclearN] at hsize hwin
  rw [eq_nil_of_length_eq_zero (length_window.trans hemp), nil_append,
    lastOf_of_length_le hfit] at hwin
  exact ⟨hvalid, hsize, hwin⟩

theorem median_eq_of_window {rm : RollingMedian ℕ} {ws : List ℕ} (hvalid : rm.Valid)
    (hwin : rm.window = ws) (hpos : 0 < ws.length) : rm.median getMid = median ws := by
  have hlen := congrArg List.length hwin
  rw [length_window] at hlen
  rw [hvalid.median_eq (by omega), hwin]

/-- The answer for the last blocks up to some height is their median, whichever way it is found. -/
theorem getLongTermBlockWeightMedian_spec (hnull : blockOf nullHash = none)
    (hchain : Chain (format R) blockOf rows) (hcache : Remembers R blockOf c) (start count : ℕ)
    (hpos : 0 < count) (hcnt : count = min R.window (start + count))
    (hin : start + count ≤ rows.length) :
    ∃ c', getLongTermBlockWeightMedian rows c start count =
        .ok (median (((rows.drop start).take count).map WeightRow.longTermWeight), c') ∧
      Remembers R blockOf c' := by
  have htip : start + count - 1 < rows.length := by omega
  have hnext : start + count - 1 + 1 = start + count := by omega
  have hslice := map_window (R := R) WeightRow.longTermWeight hcnt hin
  have hlen : (((rows.drop start).take count).map WeightRow.longTermWeight).length = count := by
    rw [length_map, length_take, length_drop]
    omega
  have hfront := hchain.take (start + count)
  have htop : hashAt rows (start + count - 1) = topHash (rows.take (start + count)) := by
    rw [hashAt_eq_topHash htip, hnext]
  -- what is left under the hash of the tip, or under none, belongs to the chain up to the tip
  have hremembers : ∀ {tipHash : Hash} {rm : RollingMedian ℕ}, rm.Valid → rm.N = R.window →
      rm.window = ((rows.drop start).take count).map WeightRow.longTermWeight →
      tipHash = hashAt rows (start + count - 1) ∨ tipHash = nullHash →
      Remembers R blockOf ⟨tipHash, rm⟩ := fun hvalid hsize hwin htipHash =>
    .of_window hvalid hsize hfront (by rwa [← htop]) (hwin.trans hslice)
  obtain ⟨hrebuilt, hrebuiltSize, hrebuiltWindow⟩ := rebuild_spec (m := c.rollingMedian)
    (((rows.drop start).take count).map WeightRow.longTermWeight)
    (by rw [hcache.size]; exact R.window_pos) (by rw [hcache.size]; omega)
  have hrebuiltMedian := median_eq_of_window hrebuilt hrebuiltWindow (by omega)
  rw [getLongTermBlockWeightMedian, failIf_of_not _ (by omega), ok_bind]
  dsimp only
  rw [blockInfoFields, failIf_of_not _ (by omega), ok_bind]
  by_cases hsame : start + count - 1 < rows.length ∧ count = c.rollingMedian.size
  · rw [decide_eq_true hsame]
    simp only [if_true, true_and]
    split
    · rename_i hhash
      have hwin := hcache.window_of_hash hnull (by omega) hchain htip hhash
      rw [hnext, ← hslice] at hwin
      refine ⟨c, ?_, hcache⟩
      rw [median_eq_of_window hcache.valid hwin (by omega)]
      rfl
    · split
      · rename_i hone
        have hold := hcache.window_of_hash hnull (by omega) hchain (by omega) hone.2
        obtain ⟨hvalid, hsize, hwin⟩ :=
          hcache.valid.insert (longTermWeightAt rows (start + count - 1))
        rw [hold, hcache.size, lastOf_lastOf_append, Nat.sub_add_cancel hone.1,
          ← longTermWeightAt_eq htip, hnext, ← hslice] at hwin
        refine ⟨_, ?_, hremembers hvalid (hsize.trans hcache.size) hwin (Or.inl rfl)⟩
        rw [median_eq_of_window hvalid hwin (by omega)]
        rfl
      · refine ⟨_, ?_, hremembers hrebuilt (hrebuiltSize.trans hcache.size) hrebuiltWindow
          (Or.inl rfl)⟩
        rw [← hrebuiltMedian]
        rfl
  · rw [decide_eq_false hsame]
    simp only [Bool.false_eq_true, if_false, false_and, and_false]
    refine ⟨_, ?_, hremembers hrebuilt (hrebuiltSize.trans hcache.size) hrebuiltWindow (Or.inr rfl)⟩
    rw [← hrebuiltMedian]
    rfl

end Answers

structure Right (a : Answer) : Prop where
  pos : 0 < a.count
  stored : a.start + a.count ≤ a.rows.length
  value : a.value =
    median (((a.rows.drop a.start).take a.count).map WeightRow.longTermWeight)

/-- The invariant: the chains are in order, the cache belongs to one, and every answer was right. -/
structure Sound (R : WeightRules) (blockOf : Hash → Option WeightBlock) (s : State) : Prop where
  chain : Chain (format R) blockOf s.rows
  remembers : Remembers R blockOf s.cache
  batch : ∀ rows ∈ s.batch, Chain (format R) blockOf rows
  answers : ∀ a ∈ s.answers, Right a

variable {s s' : State}

section Calls

variable (hnull : blockOf nullHash = none)

include hnull

theorem longTermMedian_spec (h : Sound R blockOf s) {value : ℕ}
    (hcall : s.longTermMedian (s.rows.length - min R.window s.rows.length)
      (min R.window s.rows.length) = .ok (value, s')) :
    value = storedMedian R s.rows ∧ s'.rows = s.rows ∧ Sound R blockOf s' := by
  have hwin := R.window_pos
  by_cases hemp : s.rows.length = 0
  · -- the call throws on an empty chain
    rw [longTermMedian, getLongTermBlockWeightMedian, hemp, Nat.min_zero] at hcall
    cases hcall
  · obtain ⟨c, hc, hremembers⟩ := getLongTermBlockWeightMedian_spec hnull h.chain h.remembers
      (s.rows.length - min R.window s.rows.length) (min R.window s.rows.length) (by omega)
      (by omega) (by omega)
    rw [longTermMedian, hc, ok_bind, pure_eq_ok, Prod.mk.injEq] at hcall
    obtain ⟨rfl, rfl⟩ := hcall
    refine ⟨?_, rfl, h.chain, hremembers, h.batch, ?_⟩
    · rw [map_window (R := R) _ (by omega) (by omega),
        show s.rows.length - min R.window s.rows.length + min R.window s.rows.length = s.rows.length
          by omega, take_length]
      rfl
    · intro a ha
      rcases mem_append.mp ha with hold | hlast
      · exact h.answers a hold
      · rw [mem_singleton.mp hlast]
        refine ⟨?_, ?_, rfl⟩
        · show 0 < min R.window s.rows.length
          omega
        · show s.rows.length - min R.window s.rows.length + min R.window s.rows.length ≤
            s.rows.length
          omega

theorem getNextLongTermBlockWeight_spec (h : Sound R blockOf s) {blockWeight value : ℕ}
    (hcall : s.getNextLongTermBlockWeight R blockWeight = .ok (value, s')) :
    value = storedNextWeight R s.rows blockWeight ∧ s'.rows = s.rows ∧ Sound R blockOf s' := by
  rw [getNextLongTermBlockWeight] at hcall
  dsimp only at hcall
  rw [storedNextWeight]
  split at hcall
  · rename_i hearly
    rw [pure_eq_ok, Prod.mk.injEq] at hcall
    obtain ⟨rfl, rfl⟩ := hcall
    rw [if_pos hearly]
    exact ⟨rfl, rfl, h⟩
  · rename_i hlate
    rw [bind_eq_ok] at hcall
    obtain ⟨⟨longTerm, s''⟩, hmed, hrest⟩ := hcall
    rw [pure_eq_ok, Prod.mk.injEq] at hrest
    obtain ⟨rfl, rfl⟩ := hrest
    obtain ⟨rfl, hrows, hsound⟩ := longTermMedian_spec hnull h hmed
    rw [if_neg hlate]
    exact ⟨rfl, hrows, hsound⟩

omit hnull in
theorem Sound.limits (h : Sound R blockOf s) (limits : Limits) :
    Sound R blockOf { s with limits := limits } :=
  ⟨h.chain, h.remembers, h.batch, h.answers⟩

theorem updateNextCumulativeWeightLimit_spec (h : Sound R blockOf s) {updated : Bool}
    (hcall : s.updateNextCumulativeWeightLimit R = .ok (updated, s')) : Sound R blockOf s' := by
  rw [updateNextCumulativeWeightLimit] at hcall
  dsimp only at hcall
  split at hcall
  · rw [bind_eq_ok] at hcall
    obtain ⟨ws, -, hrest⟩ := hcall
    rw [pure_eq_ok, Prod.mk.injEq] at hrest
    obtain ⟨-, rfl⟩ := hrest
    exact h.limits _
  · rw [bind_eq_ok] at hcall
    obtain ⟨⟨longTerm, s''⟩, hmed, hrest⟩ := hcall
    dsimp only at hrest
    rw [bind_eq_ok] at hrest
    obtain ⟨ws, -, hrest⟩ := hrest
    rw [pure_eq_ok, Prod.mk.injEq] at hrest
    obtain ⟨-, rfl⟩ := hrest
    exact (longTermMedian_spec hnull h hmed).2.2.limits _

theorem storeBlock_sound (h : Sound R blockOf s) {b : WeightBlock} {id : Hash}
    (hnamed : blockOf id = some b) (sto : Bool) : Sound R blockOf (s.storeBlock R b id sto).2 := by
  rw [storeBlock]
  split
  · exact h
  · rename_i weight s' hcall
    obtain ⟨rfl, hrows, hsound⟩ := getNextLongTermBlockWeight_spec hnull h hcall
    split
    · exact hsound
    · rename_i hst
      have hprev : b.prevId = topHash s'.rows := by
        by_contra hne
        exact hst (Or.inr hne)
      rw [← hrows]
      exact ⟨.add hsound.chain hnamed hprev, hsound.remembers, hsound.batch, hsound.answers⟩

omit hnull in
theorem popBlock_sound (h : Sound R blockOf s) : Sound R blockOf s.popBlock := by
  rw [popBlock]
  split
  · refine ⟨?_, h.remembers, h.batch, h.answers⟩
    rw [dropLast_eq_take]
    exact h.chain.take _
  · exact h

theorem handleBlockToMainChain_sound (h : Sound R blockOf s) {b : WeightBlock} {id : Hash}
    (hnamed : blockOf id = some b) (outcome : Outcome) :
    Sound R blockOf (s.handleBlockToMainChain R b id outcome) := by
  rw [handleBlockToMainChain]
  split
  · exact h
  · have hst := storeBlock_sound hnull h hnamed (outcome = .accepted)
    split
    · rename_i s' hcall
      rw [hcall] at hst
      exact hst
    · rename_i s' hcall
      rw [hcall] at hst
      split
      · exact hst
      · rename_i s'' hupdate
        exact updateNextCumulativeWeightLimit_spec hnull hst hupdate
      · rename_i s'' hupdate
        exact popBlock_sound (updateNextCumulativeWeightLimit_spec hnull hst hupdate)

end Calls

/-- Every block of an event stands under its own hash. -/
def Named (blockOf : Hash → Option WeightBlock) : Event → Prop
  | .addBlock b id _ => blockOf id = some b
  | .importBlock b id => blockOf id = some b
  | _ => True

theorem perform_sound (hnull : blockOf nullHash = none) (h : Sound R blockOf s) {e : Event}
    (hnamed : Named blockOf e) : Sound R blockOf (perform R s e) := by
  cases e with
  | nextWeight blockWeight =>
    rw [perform]
    split
    · exact h
    · rename_i hcall
      exact (getNextLongTermBlockWeight_spec hnull h hcall).2.2
  | updateLimit =>
    rw [perform]
    split
    · exact h
    · rename_i hcall
      exact updateNextCumulativeWeightLimit_spec hnull h hcall
  | addBlock b id outcome => exact handleBlockToMainChain_sound hnull h hnamed outcome
  | importBlock b id => exact storeBlock_sound hnull h hnamed true
  | popBlock => exact popBlock_sound h
  | startBatch =>
    refine ⟨h.chain, h.remembers, ?_, h.answers⟩
    intro rows hrows
    rw [← Option.some.inj hrows]
    exact h.chain
  | cleanup batchSuccess =>
    cases batchSuccess with
    | true => exact ⟨h.chain, h.remembers, by simp [perform], h.answers⟩
    | false =>
      refine ⟨?_, h.remembers, by simp [perform], h.answers⟩
      show Chain (format R) blockOf (s.batch.getD s.rows)
      cases hbatch : s.batch with
      | none => exact h.chain
      | some old => exact h.batch old hbatch

theorem startState_sound (hchain : Chain (format R) blockOf rows) (mem : RollingMedian ℕ)
    (tipHash : Hash) (limits : Limits) :
    Sound R blockOf (startState R rows mem tipHash limits) := by
  obtain ⟨hvalid, hsize, hemp⟩ := clear_spec { mem with N := R.window } R.window_pos
  refine ⟨hchain, ⟨hvalid, hsize, ?_⟩, by simp [startState], by simp [startState]⟩
  intro hsz
  exact absurd hemp hsz

theorem performAll_sound (hnull : blockOf nullHash = none) (h : Sound R blockOf s)
    {evs : List Event} (hnamed : ∀ e ∈ evs, Named blockOf e) :
    Sound R blockOf (performAll R s evs) := by
  refine List.foldlRecOn (motive := Sound R blockOf) evs (perform R) h ?_
  intro s hs e he
  exact perform_sound hnull hs (hnamed e he)

/-- On every run, each answer of `get_long_term_block_weight_median` is the median of the stored
long-term weights of its heights; and at its end the last blocks up to any height are answered with
their median. -/
theorem long_term_median_transparent (R : WeightRules) (blockOf : Hash → Option WeightBlock)
    (hnull : blockOf nullHash = none) (rows : List WeightRow)
    (hchain : Chain (format R) blockOf rows) (memory : RollingMedian ℕ) (tipHash : Hash)
    (limits : Limits) (events : List Event)
    (hnamed : ∀ e ∈ events, Named blockOf e) :
    let s := performAll R (startState R rows memory tipHash limits) events
    (∀ a ∈ s.answers, a.start + a.count ≤ a.rows.length ∧
      a.value = median (((a.rows.drop a.start).take a.count).map WeightRow.longTermWeight)) ∧
    ∀ start count, 0 < count → count = min R.window (start + count) →
      start + count ≤ s.rows.length →
      ∃ c, getLongTermBlockWeightMedian s.rows s.cache start count =
        .ok (median (((s.rows.drop start).take count).map WeightRow.longTermWeight), c) := by
  intro s
  have hsound : Sound R blockOf s :=
    performAll_sound hnull (startState_sound hchain memory tipHash limits) hnamed
  refine ⟨fun a ha => ⟨(hsound.answers a ha).stored, (hsound.answers a ha).value⟩, ?_⟩
  intro start count hpos hcount hin
  obtain ⟨c, hc, -⟩ :=
    getLongTermBlockWeightMedian_spec hnull hsound.chain hsound.remembers start count
      hpos hcount hin
  exact ⟨c, hc⟩

/-- Five blocks, the last two with the same height. -/
def sampleBlocks (id : Hash) : Option WeightBlock :=
  if id = .fill 1 then some ⟨nullHash, 80⟩
  else if id = .fill 2 then some ⟨.fill 1, 400000⟩
  else if id = .fill 3 then some ⟨.fill 2, 390000⟩
  else if id = .fill 4 then some ⟨.fill 3, 500000⟩
  else if id = .fill 5 then some ⟨.fill 3, 380000⟩
  else none

/-- A window of two blocks; the long-term weights count from the second block on. -/
def sampleRules : WeightRules := ⟨2, by decide, fun rows => if rows.length = 0 then 1 else 16⟩

/-- Blocks are added, one is replaced in a batch that is taken back, and one is added again. -/
def sampleEvents : List Event :=
  [.addBlock ⟨nullHash, 80⟩ (.fill 1) .accepted,
    .addBlock ⟨.fill 1, 400000⟩ (.fill 2) .accepted,
    .addBlock ⟨.fill 2, 390000⟩ (.fill 3) .accepted,
    .addBlock ⟨.fill 3, 500000⟩ (.fill 4) .accepted, .startBatch, .popBlock, .updateLimit,
    .addBlock ⟨.fill 3, 380000⟩ (.fill 5) .accepted, .cleanup false, .nextWeight 7,
    .popBlock, .addBlock ⟨.fill 3, 500000⟩ (.fill 4) .notStored,
    .importBlock ⟨.fill 3, 500000⟩ (.fill 4), .updateLimit]

/-- Memory that nothing was written to. -/
def sampleMemory : RollingMedian ℕ := ⟨9, fun _ => 4, fun _ => 5, fun _ => 6, 3, 2, 1, 8⟩

def sampleRun : State :=
  performAll sampleRules (startState sampleRules [] sampleMemory (.fill 9) ⟨0, 0, 0⟩) sampleEvents

theorem long_term_median_transparent_sample :
    sampleRun.rows.map WeightRow.longTermWeight = [80, 400000, 390000, 500000] ∧
      sampleRun.answers.map Answer.value =
        [80, 80, 200040, 200040, 395000, 395000, 445000, 395000, 395000, 385000, 445000, 395000,
          395000, 445000] ∧
      ∀ a ∈ sampleRun.answers, a.start + a.count ≤ a.rows.length ∧
        a.value = median (((a.rows.drop a.start).take a.count).map WeightRow.longTermWeight) := by
  refine ⟨by decide +kernel, by decide +kernel, ?_⟩
  have hnamed : ∀ e ∈ sampleEvents, Named sampleBlocks e := by
    simp only [sampleEvents, forall_mem_cons, Named, not_mem_nil, false_implies,
      implies_true, and_true, true_and]
    refine ⟨?_, ?_, ?_, ?_, ?_, ?_, ?_⟩ <;> rfl
  exact (long_term_median_transparent sampleRules sampleBlocks (by rfl) [] .nil sampleMemory
    (.fill 9) ⟨0, 0, 0⟩ sampleEvents hnamed).1

end Monzero.LongTermWeightRuns
