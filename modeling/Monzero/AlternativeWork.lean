import Monzero.AlternativeChains
import Mathlib.Data.List.GetD
import Mathlib.Order.Lattice

/-!
Alternative blocks have to show the work of the main chain. An alternative chain that
`handle_alternative_block` built on a block of the main chain is found again by
`build_alt_chain`. The rows its difficulty is computed from are those of one chain, the
main chain up to that block followed by the alternative blocks, and the seed is a block
of that chain.
-/
namespace Monzero.AlternativeWork

open Primitives Difficulty AlternativeChains ChainDb List

/-- The block that the next alternative block builds on. -/
def tip (fork : Hash) (alt : List AltEntry) : Hash := (alt.getLast?.map AltEntry.id).getD fork

@[simp] theorem tip_concat (fork : Hash) (alt : List AltEntry) (e : AltEntry) :
    tip fork (alt ++ [e]) = e.id := by
  rw [tip, getLast?_concat]
  rfl

/-- Rows of the table that follow each other from a block of the main chain at height `P`. -/
inductive Linked (db : ChainDb) (P : ℕ) (fork : Hash) : List AltEntry → Prop
  | nil : Linked db P fork []
  | concat {alt : List AltEntry} {e : AltEntry} (front : Linked db P fork alt)
      (found : db.getAltBlock e.id = some e) (prev : e.header.prevId = tip fork alt)
      (height : e.height = P + 1 + alt.length) : Linked db P fork (alt ++ [e])

/-- A block of the main chain that alternative chains start from. -/
structure ForkPoint (db : ChainDb) (P : ℕ) (fork : Hash) : Prop where
  position : db.getBlockHeight fork = some P
  notAlt : db.getAltBlock fork = none

variable {db : ChainDb} {P : ℕ} {fork : Hash} {alt : List AltEntry}

theorem ForkPoint.row (h : ForkPoint db P fork) : ∃ r, db.main[P]? = some r ∧ r.hash = fork := by
  have hpos := h.position
  rw [getBlockHeight, findIdx?_eq_some_iff_getElem] at hpos
  obtain ⟨hlt, hhash, _⟩ := hpos
  exact ⟨db.main[P], getElem?_eq_getElem hlt, by simpa using hhash⟩

theorem ForkPoint.lt (h : ForkPoint db P fork) : P < db.main.length := by
  obtain ⟨r, hrow, _⟩ := h.row
  exact (List.getElem?_eq_some_iff.mp hrow).1

theorem collectAlts_linked (h : Linked db P fork alt) (hfork : ForkPoint db P fork) (rounds : ℕ)
    (hrounds : alt.length < rounds) (chain : List BlockExtendedInfo) (ts : List ℕ) :
    collectAlts db rounds (tip fork alt) chain ts = some (alt.map AltEntry.extended ++ chain,
        ts ++ (alt.map fun e => e.header.timestamp).reverse) := by
  induction h generalizing rounds chain ts with
  | nil =>
    obtain ⟨rounds, rfl⟩ : ∃ m, rounds = m + 1 := ⟨rounds - 1, by omega⟩
    simp [collectAlts, tip, hfork.notAlt]
  | @concat front e _ found prev _ ih =>
    obtain ⟨rounds, rfl⟩ : ∃ m, rounds = m + 1 := ⟨rounds - 1, by omega⟩
    rw [length_append, length_singleton] at hrounds
    rw [tip_concat, collectAlts, found]
    dsimp only
    rw [prev, ih rounds (by omega)]
    simp

variable {e e' : AltEntry} {rounds i : ℕ}

theorem Linked.height_of_get (h : Linked db P fork alt) (hi : alt[i]? = some e) :
    e.height = P + 1 + i := by
  induction h with
  | nil => simp at hi
  | @concat front last _ _ _ height ih =>
    by_cases hlast : i = front.length
    · rw [hlast, getElem?_concat_length, Option.some.injEq] at hi
      rw [← hi, height, hlast]
    · have hlt := (List.getElem?_eq_some_iff.mp hi).1
      rw [length_append, length_singleton] at hlt
      rw [getElem?_append_left (by omega)] at hi
      exact ih hi

theorem Linked.prev_of_get (h : Linked db P fork alt)
    (hi : alt[i]? = some e) (hnext : alt[i + 1]? = some e') : e'.header.prevId = e.id := by
  induction h with
  | nil => simp at hi
  | @concat front last _ _ prev _ ih =>
    have hlt := (List.getElem?_eq_some_iff.mp hnext).1
    rw [length_append, length_singleton] at hlt
    rw [getElem?_append_left (by omega)] at hi
    by_cases hlast : i + 1 = front.length
    · rw [hlast, getElem?_concat_length, Option.some.injEq] at hnext
      rw [← hnext, prev, tip, getLast?_eq_getElem?, show front.length - 1 = i by omega, hi]
      rfl
    · rw [getElem?_append_left (by omega)] at hnext
      exact ih hi hnext

theorem Linked.first_prev (h : Linked db P fork alt) (he : alt[0]? = some e) :
    e.header.prevId = fork := by
  induction h with
  | nil => simp at he
  | @concat front last _ _ prev _ ih =>
    cases front with
    | nil =>
      rw [nil_append, getElem?_cons_zero, Option.some.injEq] at he
      rw [← he, prev]
      rfl
    | cons first rest => exact ih he

theorem Linked.find_height (h : Linked db P fork alt) (hi : alt[i]? = some e) :
    alt.find? (fun b => b.height = P + 1 + i) = some e := by
  obtain ⟨hlt, hget⟩ := List.getElem?_eq_some_iff.mp hi
  refine find?_eq_some_iff_getElem.mpr ⟨by simp [h.height_of_get hi], i, hlt, hget, ?_⟩
  intro j hj
  have hht := h.height_of_get (getElem?_eq_getElem (hj.trans hlt))
  simp only [Bool.not_eq_true', decide_eq_false_iff_not]
  omega

theorem buildAltChain_linked (h : Linked db P fork alt) (hfork : ForkPoint db P fork)
    (hrounds : alt.length < rounds) (hmain : alt = [] ∨ P + 1 < db.main.length) :
    buildAltChain db rounds (tip fork alt) = some (.ok (alt.map AltEntry.extended,
      completeTimestampsVector db P (alt.map fun e => e.header.timestamp).reverse)) := by
  rw [buildAltChain, collectAlts_linked h hfork rounds hrounds, append_nil, nil_append,
    Option.map_some]
  congr 1
  cases halt : alt with
  | nil =>
    have hpos : db.getBlockHeight (tip fork []) = some P := hfork.position
    simp [connect, hpos]
  | cons first rest =>
    have hget : alt[0]? = some first := by rw [halt]; rfl
    have hht := h.height_of_get hget
    have hprev := h.first_prev hget
    have hlong : ¬ db.main.length ≤ P + 1 := by
      rcases hmain with hnil | hlong
      · rw [halt] at hnil
        cases hnil
      · omega
    obtain ⟨r, hrow, hhash⟩ := hfork.row
    simp [connect, AltEntry.extended, hht, hprev, hfork.position, hlong, hrow, hhash]

theorem buildAltChain_at_top (h : Linked db P fork alt) (hfork : ForkPoint db P fork)
    (hrounds : alt.length < rounds) (hne : alt ≠ []) (hmain : db.main.length = P + 1) :
    buildAltChain db rounds (tip fork alt) = some (.error "main blockchain wrong height") := by
  rw [buildAltChain, collectAlts_linked h hfork rounds hrounds, append_nil, nil_append,
    Option.map_some]
  congr 1
  cases halt : alt with
  | nil => exact absurd halt hne
  | cons first rest =>
    have hht := h.height_of_get (i := 0) (e := first) (by rw [halt]; rfl)
    simp only [map_cons, connect, AltEntry.extended, hht, hmain]
    rw [if_pos (by omega)]

/-- An alternative block as a row of a chain. -/
def AltEntry.row (e : AltEntry) : ChainRow := ⟨e.id, e.header, e.cumulativeDifficulty⟩

/-- The main chain up to the fork, followed by the alternative blocks. -/
def spliced (db : ChainDb) (P : ℕ) (alt : List AltEntry) : List ChainRow :=
  db.main.take (P + 1) ++ alt.map AltEntry.row

theorem length_spliced (hP : P < db.main.length) :
    (spliced db P alt).length = P + 1 + alt.length := by
  rw [spliced, length_append, length_take, length_map]
  omega

theorem difficultyRows_short (hP : P < db.main.length)
    (hshort : alt.length < difficultyBlocksCount) : difficultyRows (spliced db P alt) =
      (db.main.take (P + 1)).drop (mainChainStartOffset alt.length (P + 1)) ++
        alt.map AltEntry.row := by
  have hoff : windowOffset (P + 1 + alt.length) = mainChainStartOffset alt.length (P + 1) := by
    simp only [windowOffset, mainChainStartOffset]
    split <;> split <;> omega
  have hle : mainChainStartOffset alt.length (P + 1) ≤ (db.main.take (P + 1)).length := by
    rw [length_take]
    simp only [mainChainStartOffset]
    split <;> omega
  rw [difficultyRows, length_spliced hP, hoff, spliced, drop_append_of_le_length hle]

theorem difficultyRows_long (hP : P < db.main.length)
    (hlong : ¬ alt.length < difficultyBlocksCount) : difficultyRows (spliced db P alt) =
      (alt.drop (alt.length - difficultyBlocksCount)).map AltEntry.row := by
  have hoff : windowOffset (P + 1 + alt.length) =
      (db.main.take (P + 1)).length + (alt.length - difficultyBlocksCount) := by
    rw [length_take]
    simp only [windowOffset]
    split <;> omega
  rw [difficultyRows, length_spliced hP, hoff, spliced, drop_length_add_append, map_drop]

theorem rows_le (hshort : alt.length < difficultyBlocksCount) :
    alt.length + ((db.main.take (P + 1)).drop (mainChainStartOffset alt.length (P + 1))).length ≤
      difficultyBlocksCount := by
  rw [length_drop, length_take]
  simp only [mainChainStartOffset]
  split <;> omega

theorem alternative_difficulty (R : WorkRules) (h : Linked db P fork alt)
    (hfork : ForkPoint db P fork) :
    getNextDifficultyForAlternativeChain R db (alt.map AltEntry.extended) (P + 1 + alt.length) =
      getDifficultyForNextBlock R (spliced db P alt) := by
  have hP := hfork.lt
  have hstop : mainChainStopOffset (P + 1 + alt.length) (alt.map AltEntry.extended) = P + 1 := by
    cases halt : alt with
    | nil => rfl
    | cons first rest => exact h.height_of_get (i := 0) (by rw [halt]; rfl)
  rw [getNextDifficultyForAlternativeChain, getDifficultyForNextBlock]
  by_cases hfix : R.fixedDifficulty ≠ 0
  · rw [if_pos hfix, if_pos hfix, if_pos (by omega), if_pos (by rw [length_spliced hP]; omega)]
  · rw [if_neg hfix, if_neg hfix]
    simp only [hstop, length_map, difficultyTarget_eq]
    by_cases hshort : alt.length < difficultyBlocksCount
    · rw [if_pos hshort, if_neg (not_lt.mpr (rows_le hshort)), difficultyOfRows,
        difficultyRows_short hP hshort]
      simp only [map_append, map_map]
      rfl
    · rw [if_neg hshort, difficultyOfRows, difficultyRows_long hP hshort]
      simp only [← map_reverse, ← map_take, take_reverse, reverse_reverse, map_map]
      rfl

theorem alternative_seedhash (R : WorkRules) (h : Linked db P fork alt)
    (hfork : ForkPoint db P fork) :
    altSeedhash R db (alt.map AltEntry.extended) (P + 1 + alt.length) =
      seedhash R (spliced db P alt) := by
  have hP := hfork.lt
  have hseed := rxSeedheight_le R.epochs (P + 1 + alt.length)
  rw [seedhash, length_spliced hP]
  rw [altSeedhash]
  generalize rxSeedheight R.epochs (P + 1 + alt.length) = s at hseed
  have hfront : (alt.map AltEntry.extended).head?.any (fun front => front.height ≤ s) = true ↔
      P + 1 ≤ s := by
    cases halt : alt with
    | nil =>
      simp only [halt, length_nil] at hseed
      simp only [map_nil, head?_nil, Option.any_none, Bool.false_eq_true, false_iff]
      omega
    | cons first rest =>
      have hht := h.height_of_get (i := 0) (e := first) (by rw [halt]; rfl)
      simp [AltEntry.extended, hht]
  by_cases hinside : P + 1 ≤ s
  · -- The block after the seed block is an alternative block and names it.
    obtain ⟨e, he⟩ : ∃ e, alt[s - (P + 1)]? = some e :=
      ⟨_, getElem?_eq_getElem (by omega)⟩
    obtain ⟨next, hnext⟩ : ∃ next, alt[s - (P + 1) + 1]? = some next :=
      ⟨_, getElem?_eq_getElem (by omega)⟩
    have hfind : (alt.map AltEntry.extended).find? (fun b => b.height = s + 1) =
        some next.extended := by
      have hht := h.find_height hnext
      rw [show P + 1 + (s - (P + 1) + 1) = s + 1 by omega] at hht
      rw [find?_map]
      exact congrArg (Option.map AltEntry.extended) hht
    have hlen : (db.main.take (P + 1)).length = P + 1 := by
      rw [length_take]
      omega
    rw [if_pos (hfront.mpr hinside), hfind, blockIdByHeight, spliced,
      getElem?_append_right (by omega), hlen, getElem?_map, he]
    exact h.prev_of_get he hnext
  · rw [if_neg (fun hany => hinside (hfront.mp hany)), blockIdByHeight, blockIdByHeight, spliced,
      getElem?_append_left (by rw [length_take]; omega), getElem?_take_of_lt (by omega)]

theorem Linked.prevHeight_eq (h : Linked db P fork alt) (hfork : ForkPoint db P fork) :
    prevHeight db (tip fork alt) = P + alt.length := by
  cases h with
  | nil =>
    have halt : db.getAltBlock (tip fork []) = none := hfork.notAlt
    have hmain : db.getBlockHeight (tip fork []) = some P := hfork.position
    rw [prevHeight, halt, hmain]
    rfl
  | @concat front e _ found _ height =>
    rw [tip_concat, prevHeight, found]
    dsimp only
    rw [height, length_append, length_singleton]
    omega

theorem spliced_concat (db : ChainDb) (P : ℕ) (alt : List AltEntry) (e : AltEntry) :
    spliced db P (alt ++ [e]) = spliced db P alt ++ [AltEntry.row e] := by
  rw [spliced, map_append, ← append_assoc]
  rfl

theorem topDifficulty_concat (rows : List ChainRow) (r : ChainRow) :
    topDifficulty (rows ++ [r]) = r.cumulativeDifficulty := by
  rw [topDifficulty, getLast?_concat]
  rfl

theorem ForkPoint.topDifficulty_take (h : ForkPoint db P fork) :
    topDifficulty (db.main.take (P + 1)) =
      (db.main[P]?.map ChainRow.cumulativeDifficulty).getD 0 := by
  obtain ⟨r, hrow, _⟩ := h.row
  rw [topDifficulty, getLast?_take, if_neg (Nat.succ_ne_zero P), Nat.add_sub_cancel, hrow]
  rfl

theorem Linked.prevDifficulty_eq (h : Linked db P fork alt) (hfork : ForkPoint db P fork) :
    prevDifficulty db (tip fork alt) = topDifficulty (spliced db P alt) := by
  have hht := h.prevHeight_eq hfork
  cases h with
  | nil =>
    have halt : db.getAltBlock (tip fork []) = none := hfork.notAlt
    rw [prevDifficulty, halt]
    dsimp only
    rw [hht, spliced, map_nil, append_nil, hfork.topDifficulty_take]
    rfl
  | @concat front e _ found _ height =>
    rw [spliced_concat, topDifficulty_concat, tip_concat, prevDifficulty, found]
    rfl

def addMainAll (R : WorkRules) (rows : List ChainRow) (blocks : List AltEntry) : List ChainRow :=
  blocks.foldl (fun rows e => addMain R rows e.id e.header) rows

/-- Alternative blocks with the cumulative difficulties that `handle_alternative_block` stored. -/
inductive Worked (R : WorkRules) (db : ChainDb) (P : ℕ) (fork : Hash) : List AltEntry → Prop
  | nil : Worked R db P fork []
  | concat {alt : List AltEntry} {e : AltEntry} (front : Worked R db P fork alt)
      (found : db.getAltBlock e.id = some e) (prev : e.header.prevId = tip fork alt)
      (height : e.height = P + 1 + alt.length)
      (work : e.cumulativeDifficulty = (prevDifficulty db (tip fork alt) +
        getNextDifficultyForAlternativeChain R db (alt.map AltEntry.extended) e.height) % 2 ^ 128) :
      Worked R db P fork (alt ++ [e])

variable {R : WorkRules}

theorem Worked.linked (h : Worked R db P fork alt) : Linked db P fork alt := by
  induction h with
  | nil => exact .nil
  | concat _ found prev height _ ih => exact .concat ih found prev height

theorem Worked.addMainAll_eq (h : Worked R db P fork alt) (hfork : ForkPoint db P fork) :
    addMainAll R (db.main.take (P + 1)) alt = spliced db P alt := by
  induction h with
  | nil => simp [addMainAll, spliced]
  | @concat front e hfront _ _ height work ih =>
    have hlink := hfront.linked
    rw [hlink.prevDifficulty_eq hfork, height, alternative_difficulty R hlink hfork] at work
    rw [addMainAll, foldl_append]
    change addMain R (addMainAll R (db.main.take (P + 1)) front) e.id e.header = _
    rw [ih, addMain, spliced_concat, AltEntry.row, work, Nat.add_comm]

/-- The difficulty and the seed of the next block on an alternative chain are those that the main
path gives for the same blocks, and they are the ones `handle_alternative_block` computes. -/
theorem alternative_work_agrees (R : WorkRules) (db : ChainDb) (P : ℕ) (fork : Hash)
    (alt : List AltEntry) (hfork : ForkPoint db P fork) (halt : Worked R db P fork alt) :
    getNextDifficultyForAlternativeChain R db (alt.map AltEntry.extended) (P + 1 + alt.length) =
        getDifficultyForNextBlock R (addMainAll R (db.main.take (P + 1)) alt) ∧
      altSeedhash R db (alt.map AltEntry.extended) (P + 1 + alt.length) =
        seedhash R (addMainAll R (db.main.take (P + 1)) alt) ∧
      prevHeight db (tip fork alt) + 1 = P + 1 + alt.length ∧
      ∀ rounds, alt.length < rounds → buildAltChain db rounds (tip fork alt) = some
        (if alt = [] ∨ P + 1 < db.main.length then .ok (alt.map AltEntry.extended,
          completeTimestampsVector db P (alt.map fun e => e.header.timestamp).reverse)
        else .error "main blockchain wrong height") := by
  have hlinked := halt.linked
  rw [halt.addMainAll_eq hfork]
  refine ⟨alternative_difficulty R hlinked hfork, alternative_seedhash R hlinked hfork, ?_, ?_⟩
  · rw [hlinked.prevHeight_eq hfork]
    omega
  · intro rounds hrounds
    by_cases hmain : alt = [] ∨ P + 1 < db.main.length
    · rw [if_pos hmain, buildAltChain_linked hlinked hfork hrounds hmain]
    · have hP := hfork.lt
      rw [if_neg hmain, buildAltChain_at_top hlinked hfork hrounds (by tauto) (by omega)]

/-- A main chain of three blocks and an alternative block on the second. -/
def sampleDb : ChainDb where
  main := [⟨.fill 1, ⟨1, 100, nullHash⟩, 1⟩, ⟨.fill 2, ⟨1, 220, .fill 1⟩, 2⟩,
    ⟨.fill 3, ⟨1, 340, .fill 2⟩, 3⟩]
  alts := [⟨.fill 4, 2, 3, 0, ⟨1, 350, .fill 2⟩⟩]

theorem alternative_work_sample :
    getNextDifficultyForAlternativeChain default sampleDb
        (sampleDb.alts.map AltEntry.extended) 3 =
      getDifficultyForNextBlock default
        (addMainAll default (sampleDb.main.take 2) sampleDb.alts) := by
  have hfork : ForkPoint sampleDb 1 (.fill 2) := ⟨by decide, by decide⟩
  have hworked : Worked default sampleDb 1 (.fill 2) ([] ++ sampleDb.alts) :=
    .concat .nil (by decide) rfl rfl (by decide +kernel)
  exact (alternative_work_agrees default sampleDb 1 (.fill 2) sampleDb.alts hfork
    hworked).1

end Monzero.AlternativeWork
