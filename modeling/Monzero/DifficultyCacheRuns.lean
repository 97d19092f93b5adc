import Monzero.DifficultyCache
import Monzero.HashChain

/-!
The caches of the difficulty are never seen. What they hold always belongs to some valid
chain; a chain is determined by the hash of its top block, so a hit by hash is right.
While the flag is down and the cached height is not zero, that chain and the one in the
database are each a front part of the other, so a chain that is one block longer extends
it and the shifted rows are its rows.
-/
namespace Monzero.DifficultyCacheRuns

open Primitives Difficulty DifficultyCache State List

/-- Chains whose blocks follow each other, each block under its own hash and with the difficulty
that is computed from the blocks before it. -/
inductive Valid (R : WorkRules) (blockOf : Hash → Option Header) : List ChainRow → Prop
  | nil : Valid R blockOf []
  | add {rows : List ChainRow} {b : Header} {id : Hash} (front : Valid R blockOf rows)
      (named : blockOf id = some b) (prev : b.prevId = topHash rows) :
      Valid R blockOf (addMain R rows id b)

variable {R : WorkRules} {blockOf : Hash → Option Header} {rows : List ChainRow}

theorem Valid.dropLast (h : Valid R blockOf rows) : Valid R blockOf rows.dropLast := by
  cases h with
  | nil => exact .nil
  | add front named prev =>
    rw [addMain, dropLast_concat]
    exact front

theorem Valid.named (h : Valid R blockOf rows) : ∀ r ∈ rows, blockOf r.hash = some r.header := by
  induction h with
  | nil => simp
  | add front named prev ih =>
    intro r hr
    rcases mem_append.mp hr with hold | hlast
    · exact ih r hold
    · rw [mem_singleton.mp hlast]
      exact named

/-- A row holds the difficulty that is computed from the rows before it. -/
def format (R : WorkRules) : HashChain.Format Hash Header ChainRow where
  nameOf := ChainRow.hash
  parent := Header.prevId
  root := nullHash
  row rows id b := ⟨id, b, (getDifficultyForNextBlock R rows + topDifficulty rows) % 2 ^ 128⟩
  nameOf_row _ _ _ := rfl

theorem Valid.chain (h : Valid R blockOf rows) : HashChain.Chain (format R) blockOf rows := by
  induction h with
  | nil => exact .nil
  | add front named prev ih => exact .add ih named prev

variable {other cached : List ChainRow} {b : Header} {id : Hash}

theorem Valid.unique (hnull : blockOf nullHash = none) (h : Valid R blockOf rows)
    (h' : Valid R blockOf other) (htop : topHash rows = topHash other) : rows = other :=
  h.chain.unique hnull h'.chain htop

theorem difficultyRows_concat (r : ChainRow)
    (hfull : (difficultyRows rows).length ≥ difficultyBlocksCount) :
    difficultyRows (rows ++ [r]) = (difficultyRows rows ++ [r]).drop
      ((difficultyRows rows ++ [r]).length - difficultyBlocksCount) := by
  have hlen : (difficultyRows rows).length = rows.length - windowOffset rows.length := by
    rw [difficultyRows, length_drop]
  have hmore : difficultyBlocksCount < rows.length := by
    simp only [windowOffset] at hlen
    split at hlen <;> simp only [difficultyBlocksCount, difficultyWindow, difficultyLag] at * <;>
      omega
  have hold : windowOffset rows.length = rows.length - difficultyBlocksCount := by
    simp only [windowOffset]
    split <;> omega
  have hnew : windowOffset (rows ++ [r]).length = rows.length - difficultyBlocksCount + 1 := by
    simp only [windowOffset, length_append, length_singleton]
    split <;> omega
  rw [hold] at hlen
  rw [length_append, length_singleton,
    show (difficultyRows rows).length + 1 - difficultyBlocksCount = 1 by omega, difficultyRows,
    hnew, difficultyRows, hold, ← drop_append_of_le_length (by omega), drop_drop]

/-- The cached rows are those of a chain, which the chain in the database extends or is a front
part of. -/
structure Window (s : State) (cached : List ChainRow) : Prop where
  height : s.caches.height = cached.length
  timestamps : s.caches.timestamps = (difficultyRows cached).map fun r => r.header.timestamp
  difficulties : s.caches.difficulties =
    (difficultyRows cached).map ChainRow.cumulativeDifficulty
  near : cached <+: s.rows ∨ s.rows <+: cached

/-- What the caches hold belongs to a valid chain. -/
structure Remembers (R : WorkRules) (blockOf : Hash → Option Header) (s : State)
    (cached : List ChainRow) : Prop where
  valid : Valid R blockOf cached
  top : topHash cached = s.caches.topHash
  difficulty : s.caches.difficulty = getDifficultyForNextBlock R cached
  window : s.caches.reset = false → s.caches.height ≠ 0 → Window s cached

/-- The invariant: the chains are valid, the caches belong to one, and every answer was right. -/
structure Sound (R : WorkRules) (blockOf : Hash → Option Header) (s : State) : Prop where
  valid : Valid R blockOf s.rows
  remembers : ∃ cached, Remembers R blockOf s cached
  batch : ∀ c ∈ s.batch, Valid R blockOf c ∧ (s.caches.reset = false → c <+: s.rows)
  answers : ∀ a ∈ s.answers, Valid R blockOf a.1 ∧ a.2 = getDifficultyForNextBlock R a.1

variable {s : State}

theorem Remembers.congr {s' : State} (h : Remembers R blockOf s cached)
    (hrows : s'.rows = s.rows) (hcaches : s'.caches = s.caches) :
    Remembers R blockOf s' cached := by
  refine ⟨h.valid, by rw [hcaches, h.top], by rw [hcaches, h.difficulty], ?_⟩
  intro hreset hht
  rw [hcaches] at hreset hht
  obtain ⟨hlen, htss, hdifficulties, hnear⟩ := h.window hreset hht
  constructor
  · rw [hcaches, hlen]
  · rw [hcaches, htss]
  · rw [hcaches, hdifficulties]
  · rw [hrows]
    exact hnear

theorem getDifficultyForNextBlock_of_rows (hfixed : R.fixedDifficulty = 0) (rows : List ChainRow) :
    getDifficultyForNextBlock R rows =
      nextDifficulty ((difficultyRows rows).map fun r => r.header.timestamp)
        ((difficultyRows rows).map ChainRow.cumulativeDifficulty)
        (difficultyTarget (R.currentVersion rows)) := by
  rw [getDifficultyForNextBlock, if_neg (by simpa using hfixed)]
  rfl

theorem refreshRows_eq (h : Remembers R blockOf s cached) :
    refreshRows s.rows s.caches = { s.caches with
      timestamps := (difficultyRows s.rows).map fun r => r.header.timestamp
      difficulties := (difficultyRows s.rows).map ChainRow.cumulativeDifficulty
      height := s.rows.length } := by
  rw [refreshRows]
  dsimp only
  by_cases hshift : (if s.caches.reset = true then 0 else s.caches.height) ≠ 0 ∧
      s.rows.length = (if s.caches.reset = true then 0 else s.caches.height) + 1 ∧
      s.caches.timestamps.length ≥ difficultyBlocksCount
  · rw [if_pos hshift]
    have hreset : s.caches.reset = false := by
      by_contra hr
      rw [if_pos (by simpa using hr)] at hshift
      exact hshift.1 rfl
    rw [if_neg (by rw [hreset]; decide)] at hshift
    obtain ⟨hht, hlonger, hfull⟩ := hshift
    have hwin := h.window hreset hht
    have hlen := hwin.height
    -- The chain in the database is one block longer, so it extends the cached one.
    obtain ⟨r, hr⟩ : ∃ r, s.rows = cached ++ [r] := by
      rcases hwin.near with ⟨rest, hrest⟩ | ⟨rest, hrest⟩
      · have hone : rest.length = 1 := by
          have := congrArg List.length hrest
          rw [length_append] at this
          omega
        obtain ⟨r, rfl⟩ := length_eq_one_iff.mp hone
        exact ⟨r, hrest.symm⟩
      · have := congrArg List.length hrest
        rw [length_append] at this
        omega
    rw [hwin.timestamps, length_map] at hfull
    have hrows := difficultyRows_concat r hfull
    have hlast : s.rows[s.rows.length - 1]? = some r := by
      rw [hr, length_append, length_singleton, Nat.add_sub_cancel, getElem?_concat_length]
    rw [hlast, hwin.timestamps, hwin.difficulties, hr, hrows]
    simp
  · rw [if_neg hshift]

/-- An answer is right, and afterwards the caches belong to the chain in the database. -/
theorem query_spec (hfixed : R.fixedDifficulty = 0) (hnull : blockOf nullHash = none)
    (h : Sound R blockOf s) :
    (s.query R).1 = getDifficultyForNextBlock R s.rows ∧ (s.query R).2.rows = s.rows ∧
      Remembers R blockOf (s.query R).2 s.rows ∧ Sound R blockOf (s.query R).2 := by
  obtain ⟨cached, hcached⟩ := h.remembers
  have hanswer : (s.query R).1 = getDifficultyForNextBlock R s.rows ∧
      Remembers R blockOf (s.query R).2 s.rows ∧ (s.query R).2.caches.reset = s.caches.reset := by
    rw [query, cachedDifficulty, if_neg (by simpa using hfixed)]
    by_cases hhit : topHash s.rows = s.caches.topHash
    · rw [if_pos hhit]
      obtain rfl := hcached.valid.unique hnull h.valid (hcached.top.trans hhit.symm)
      exact ⟨hcached.difficulty, hcached.congr rfl rfl, rfl⟩
    · rw [if_neg hhit]
      dsimp only
      rw [refreshRows_eq hcached]
      have hval := getDifficultyForNextBlock_of_rows hfixed s.rows
      refine ⟨hval.symm, ⟨h.valid, rfl, hval.symm, fun _ _ => ?_⟩, rfl⟩
      exact ⟨rfl, rfl, rfl, Or.inl prefix_rfl⟩
  obtain ⟨hval, hremembers, hreset⟩ := hanswer
  refine ⟨hval, rfl, hremembers, h.valid, ⟨s.rows, hremembers⟩, ?_, ?_⟩
  · intro c hc
    rw [hreset]
    exact h.batch c hc
  · intro a ha
    rcases mem_append.mp ha with hold | hlast
    · exact h.answers a hold
    · rw [mem_singleton.mp hlast]
      exact ⟨h.valid, hval⟩

theorem sound_replace (h : Sound R blockOf s) (hother : Valid R blockOf other) :
    Sound R blockOf { s.resetCaches with rows := other } := by
  obtain ⟨cached, hcached⟩ := h.remembers
  refine ⟨hother, ⟨cached, hcached.valid, hcached.top, hcached.difficulty, ?_⟩, ?_, h.answers⟩
  · intro hreset
    cases hreset
  · intro c hc
    refine ⟨(h.batch c hc).1, fun hreset => ?_⟩
    cases hreset

theorem sound_resetCaches (h : Sound R blockOf s) : Sound R blockOf s.resetCaches :=
  sound_replace h h.valid

theorem sound_popBlock (h : Sound R blockOf s) : Sound R blockOf s.popBlock := by
  rw [popBlock]
  split
  · exact sound_replace h h.valid.dropLast
  · exact sound_resetCaches h

theorem sound_store (h : Sound R blockOf s) (hcached : Remembers R blockOf s s.rows)
    (hnamed : blockOf id = some b) (hprev : b.prevId = topHash s.rows) :
    Sound R blockOf { s with rows := addMain R s.rows id b } := by
  have hextends : s.rows <+: addMain R s.rows id b := prefix_append _ _
  refine ⟨.add h.valid hnamed hprev,
    ⟨s.rows, hcached.valid, hcached.top, hcached.difficulty, ?_⟩, ?_, h.answers⟩
  · intro hreset hht
    have hwin := hcached.window hreset hht
    exact ⟨hwin.height, hwin.timestamps, hwin.difficulties, Or.inl hextends⟩
  · intro c hc
    exact ⟨(h.batch c hc).1, fun hreset => ((h.batch c hc).2 hreset).trans hextends⟩

section Calls

variable (hfixed : R.fixedDifficulty = 0) (hnull : blockOf nullHash = none)

include hfixed hnull

theorem sound_handleBlockToMainChain (h : Sound R blockOf s)
    (hnamed : blockOf id = some b) (outcome : Outcome) :
    Sound R blockOf (s.handleBlockToMainChain R b id outcome).2 := by
  rw [handleBlockToMainChain]
  split
  · exact h
  · rename_i hchk
    obtain ⟨hval, hrows, hcached, hasked⟩ := query_spec hfixed hnull h
    have hprev : b.prevId = topHash s.rows := by
      by_contra hne
      exact hchk (Or.inl hne)
    dsimp only
    split
    · exact hasked
    · have hst := sound_store hasked (by rw [hrows]; exact hcached) hnamed
        (by rw [hrows]; exact hprev)
      rw [hval, hrows]
      rw [hrows] at hst
      split
      · exact sound_popBlock hst
      · exact (query_spec hfixed hnull hst).2.2.2

variable {bs : List (Header × Hash × Outcome)}

theorem sound_addBlocks (hnamed : ∀ x ∈ bs, blockOf x.2.1 = some x.1) (h : Sound R blockOf s) :
    Sound R blockOf (addBlocks R bs s).2 := by
  induction bs generalizing s with
  | nil => exact h
  | cons x rest ih =>
    obtain ⟨b, id, outcome⟩ := x
    have hfst := sound_handleBlockToMainChain hfixed hnull h (hnamed _ mem_cons_self) outcome
    rw [addBlocks]
    split
    · rename_i s' hcall
      rw [hcall] at hfst
      exact hfst
    · rename_i s' hcall
      rw [hcall] at hfst
      exact ih (fun x hx => hnamed x (mem_cons_of_mem _ hx)) hfst

omit hfixed hnull in
theorem sound_popUntil (fork : Hash) (n : ℕ) (h : Sound R blockOf s) :
    Sound R blockOf (popUntil fork n s) := by
  induction n generalizing s with
  | zero => exact h
  | succ n ih =>
    rw [popUntil]
    split
    · exact h
    · exact ih (sound_popBlock h)

omit hfixed hnull in
theorem sound_popTo (height n : ℕ) (h : Sound R blockOf s) :
    Sound R blockOf (popTo height n s) := by
  induction n generalizing s with
  | zero => exact h
  | succ n ih =>
    rw [popTo]
    split
    · exact h
    · exact ih (sound_popBlock h)

theorem sound_rollback {original : List (Header × Hash × Outcome)}
    (hnamed : ∀ x ∈ original, blockOf x.2.1 = some x.1) {height : ℕ} (h : Sound R blockOf s) :
    Sound R blockOf (s.rollback R original height) := by
  rw [rollback]
  split
  · exact h
  · exact sound_addBlocks hfixed hnull hnamed (sound_popTo _ _ (sound_resetCaches h))

theorem sound_switchToAlternative (fork : Hash)
    (hnamed : ∀ x ∈ bs, blockOf x.2.1 = some x.1) (outcomes : List Outcome)
    (h : Sound R blockOf s) : Sound R blockOf (s.switchToAlternative R fork bs outcomes) := by
  have hreset := sound_resetCaches h
  rw [switchToAlternative]
  dsimp only
  split
  · exact hreset
  · have hpop := sound_popUntil fork s.resetCaches.rows.length hreset
    have hadded := sound_addBlocks hfixed hnull hnamed hpop
    split
    · rename_i s' hcall
      rw [hcall] at hadded
      refine sound_rollback hfixed hnull ?_ hadded
      -- The bs that are added again were on the valid chain.
      intro x hx
      obtain ⟨⟨r, outcome⟩, hmem, rfl⟩ := mem_map.mp hx
      exact h.valid.named r (mem_of_mem_drop (of_mem_zip hmem).1)
    · rename_i s' hcall
      rw [hcall] at hadded
      split
      · exact hadded
      · exact sound_resetCaches hadded

end Calls

/-- Every block of an event stands under its own hash. -/
def Named (blockOf : Hash → Option Header) : Event → Prop
  | .addBlock b id _ => blockOf id = some b
  | .switchToAlternative _ blocks _ => ∀ x ∈ blocks, blockOf x.2.1 = some x.1
  | _ => True

theorem sound_cleanup (h : Sound R blockOf s) (batchSuccess : Bool) :
    Sound R blockOf (perform R s (.cleanup batchSuccess)) := by
  obtain ⟨cached, hcached⟩ := h.remembers
  cases batchSuccess with
  | true =>
    simp only [perform, if_true]
    split
    · -- The flag goes down and the height with it, so nothing is shifted next time.
      refine ⟨h.valid, ⟨cached, hcached.valid, hcached.top, hcached.difficulty, ?_⟩, by simp,
        h.answers⟩
      intro _ hht
      exact absurd rfl hht
    · exact ⟨h.valid, ⟨cached, hcached.congr rfl rfl⟩, by simp, h.answers⟩
  | false =>
    simp only [perform, Bool.false_eq_true, if_false]
    cases hbatch : s.batch with
    | none =>
      exact ⟨h.valid, ⟨cached, hcached.congr rfl rfl⟩, by simp, h.answers⟩
    | some old =>
      obtain ⟨hold, hfront⟩ := h.batch old hbatch
      refine ⟨hold, ⟨cached, hcached.valid, hcached.top, hcached.difficulty, ?_⟩, by simp,
        h.answers⟩
      intro hreset hht
      have hwin := hcached.window hreset hht
      refine ⟨hwin.height, hwin.timestamps, hwin.difficulties, ?_⟩
      -- The chain before the batch is a front part of the chain at its end.
      rcases hwin.near with hnear | hnear
      · exact prefix_or_prefix_of_prefix hnear (hfront hreset)
      · exact Or.inr ((hfront hreset).trans hnear)

theorem sound_perform (hfixed : R.fixedDifficulty = 0) (hnull : blockOf nullHash = none)
    (h : Sound R blockOf s) {e : Event} (hnamed : Named blockOf e) :
    Sound R blockOf (perform R s e) := by
  cases e with
  | query => exact (query_spec hfixed hnull h).2.2.2
  | addBlock b id outcome => exact sound_handleBlockToMainChain hfixed hnull h hnamed outcome
  | popBlock => exact sound_popBlock h
  | alternativeBlock => exact sound_resetCaches h
  | switchToAlternative fork blocks outcomes =>
    exact sound_switchToAlternative hfixed hnull fork hnamed outcomes h
  | startBatch =>
    obtain ⟨cached, hcached⟩ := h.remembers
    refine ⟨h.valid, ⟨cached, hcached.congr rfl rfl⟩, ?_, h.answers⟩
    intro c hc
    obtain rfl := Option.some.inj hc
    exact ⟨h.valid, fun _ => prefix_rfl⟩
  | cleanup batchSuccess => exact sound_cleanup h batchSuccess

theorem sound_start (hvalid : Valid R blockOf rows) (hfixed : R.fixedDifficulty = 0) :
    Sound R blockOf ⟨rows, Caches.empty, none, []⟩ := by
  refine ⟨hvalid, ⟨[], .nil, rfl, ?_, ?_⟩, by simp, by simp⟩
  · rw [getDifficultyForNextBlock_of_rows hfixed]
    rfl
  · intro hreset
    cases hreset

theorem cachedDifficulty_empty (hfixed : R.fixedDifficulty = 0) (hnull : blockOf nullHash = none)
    (hvalid : Valid R blockOf rows) :
    (cachedDifficulty R rows Caches.empty).1 = getDifficultyForNextBlock R rows :=
  (query_spec hfixed hnull (sound_start hvalid hfixed)).1

/-- Three blocks, the last two with the same parent. -/
def sampleBlocks (id : Hash) : Option Header :=
  if id = .fill 1 then some ⟨1, 100, nullHash⟩
  else if id = .fill 2 then some ⟨1, 220, .fill 1⟩
  else if id = .fill 3 then some ⟨1, 230, .fill 1⟩
  else none

/-- Blocks are added in a batch that is committed, one is replaced, and a batch is taken back. -/
def sampleEvents : List Event :=
  [.startBatch, .addBlock ⟨1, 100, nullHash⟩ (.fill 1) .accepted,
    .addBlock ⟨1, 220, .fill 1⟩ (.fill 2) .accepted, .cleanup true, .query,
    .alternativeBlock, .switchToAlternative (.fill 1)
      [(⟨1, 230, .fill 1⟩, .fill 3, .accepted)] [.accepted],
    .startBatch, .popBlock, .query, .cleanup false, .query]

end Monzero.DifficultyCacheRuns
