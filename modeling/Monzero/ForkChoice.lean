import Monzero.AlternativeWork
import Monzero.HashChain
import Monzero.Runs
import Mathlib.Data.List.Induction

/-!
The choice between chains. Blocks come in any order and are added to the main chain, kept
as alternatives, or make the two change places. Every stored block ends a chain from the
genesis block, and its id determines the chain, so that its work is the same wherever it
is stored. No stored block has more work than the main chain.
-/
namespace Monzero.ForkChoice

open Primitives Difficulty AlternativeChains AlternativeWork ChainDb Runs List

/-- What every node agrees on. An id determines its header: block hashes do not collide. -/
structure Network extends WorkRules where
  genesis : ChainRow
  headerOf : Hash → Header

variable {N : Network} {r : ChainRow} {rows rows' rest : List ChainRow}

/-- Blocks added by the rules of the main chain, each on top of the one it names. -/
inductive Path (N : Network) : List ChainRow → Prop
  | genesis : Path N [N.genesis]
  | next {rows : List ChainRow} {id : Hash} (front : Path N rows)
      (prev : (N.headerOf id).prevId = topBlockHash rows) (new : id ≠ N.genesis.hash) :
      Path N (addMain N.toWorkRules rows id (N.headerOf id))

/-- A row that is the next block of a chain. -/
structure Extends (N : Network) (rows : List ChainRow) (r : ChainRow) : Prop where
  front : Path N rows
  prev : r.header.prevId = topBlockHash rows
  new : r.hash ≠ N.genesis.hash
  header : r.header = N.headerOf r.hash
  row : rows ++ [r] = addMain N.toWorkRules rows r.hash r.header

@[simp] theorem topBlockHash_concat (rows : List ChainRow) (r : ChainRow) :
    topBlockHash (rows ++ [r]) = r.hash := by
  rw [topBlockHash, getLast?_concat]
  rfl

@[simp] theorem topBlockHash_addMain (R : WorkRules) (rows : List ChainRow) (id : Hash)
    (b : Header) : topBlockHash (addMain R rows id b) = id := topBlockHash_concat _ _

/-- The rows above the genesis block. -/
def format (N : Network) : HashChain.Format Hash Header ChainRow where
  nameOf := ChainRow.hash
  parent := Header.prevId
  root := N.genesis.hash
  row rows id b := ⟨id, b, (getDifficultyForNextBlock N.toWorkRules (N.genesis :: rows) +
    topDifficulty (N.genesis :: rows)) % 2 ^ 128⟩
  nameOf_row _ _ _ := rfl

theorem format_top (rows : List ChainRow) :
    (format N).top rows = topBlockHash (N.genesis :: rows) := by
  rw [HashChain.Format.top, topBlockHash, getLast?_cons]
  cases rows.getLast? <;> rfl

/-- The blocks that may stand above the genesis block. -/
def blockOf (N : Network) (id : Hash) : Option Header :=
  if id = N.genesis.hash then none else some (N.headerOf id)

theorem Path.chain (h : Path N rows) :
    ∃ above, rows = N.genesis :: above ∧ HashChain.Chain (format N) (blockOf N) above := by
  induction h with
  | genesis => exact ⟨[], rfl, .nil⟩
  | next _ prev new ih =>
    obtain ⟨above, rfl, hchain⟩ := ih
    exact ⟨_, rfl, .add hchain (if_neg new) (prev.trans (format_top above).symm)⟩

/-- The id of the last block determines the chain. -/
theorem Path.unique (h : Path N rows) (h' : Path N rows')
    (htop : topBlockHash rows = topBlockHash rows') : rows = rows' := by
  obtain ⟨above, rfl, hchain⟩ := h.chain
  obtain ⟨above', rfl, hchain'⟩ := h'.chain
  rw [← format_top, ← format_top] at htop
  have hroot : blockOf N (format N).root = none := if_pos rfl
  rw [hchain.unique hroot hchain' htop]

theorem Path.genesis_mem (h : Path N rows) : N.genesis ∈ rows := by
  obtain ⟨above, rfl, -⟩ := h.chain
  exact mem_cons_self

theorem Extends.path (h : Extends N rows r) : Path N (rows ++ [r]) := by
  have hnext := h.front.next (h.header ▸ h.prev) h.new
  rwa [← h.header, ← h.row] at hnext

theorem Extends.unique (h : Extends N rows r) {r' : ChainRow} (h' : Extends N rows' r')
    (hhash : r.hash = r'.hash) : r = r' := by
  have heq := h.path.unique h'.path (by simpa using hhash)
  exact (cons.inj (append_inj' heq rfl).2).1

theorem Path.extends (h : Path N (rows ++ r :: rest)) (hne : rows ≠ []) : Extends N rows r := by
  generalize hall : rows ++ r :: rest = all at h
  induction h generalizing rest with
  | genesis =>
    rw [append_eq_singleton_iff] at hall
    rcases hall with ⟨hnil, -⟩ | ⟨-, hnil⟩
    · exact absurd hnil hne
    · cases hnil
  | next front prev new ih =>
    induction rest using reverseRecOn with
    | nil =>
      obtain ⟨rfl, hlast⟩ := append_inj' hall rfl
      obtain rfl := (cons.inj hlast).1
      exact ⟨front, prev, new, rfl, rfl⟩
    | append_singleton rest last _ =>
      rw [← cons_append, ← append_assoc] at hall
      exact ih (append_inj' hall rfl).1

theorem Path.take (h : Path N (rows ++ rest)) (hne : rows ≠ []) : Path N rows := by
  cases rest with
  | nil => rwa [append_nil] at h
  | cons r rest => exact (h.extends hne).front

def ChainRow.block (r : ChainRow) : Hash × Header := (r.hash, r.header)

def AltEntry.block (e : AltEntry) : Hash × Header := (e.id, e.header)

def addBlocks (R : WorkRules) (rows : List ChainRow) (blocks : List (Hash × Header)) :
    List ChainRow :=
  blocks.foldl (fun rows block => addMain R rows block.1 block.2) rows

theorem prefix_addBlocks (R : WorkRules) (rows : List ChainRow) (blocks : List (Hash × Header)) :
    rows <+: addBlocks R rows blocks := by
  induction blocks generalizing rows with
  | nil => exact prefix_rfl
  | cons block rest ih => exact (prefix_append rows _).trans (ih _)

theorem Path.addBlocks_eq (h : Path N (rows ++ rest)) (hne : rows ≠ []) :
    addBlocks N.toWorkRules rows (rest.map ChainRow.block) = rows ++ rest := by
  induction rest generalizing rows with
  | nil => rw [append_nil]; rfl
  | cons r rest ih =>
    have hrow := (h.extends hne).row
    rw [append_cons] at h ⊢
    rw [← ih h (by simp), hrow]
    rfl

/-- The rules of one moment, with the work of the network and without checkpoints. -/
structure Rules (N : Network) extends BlockRules where
  work : toWorkRules = N.toWorkRules
  plain : ∀ height id, isACheckpoint height id = false

instance : CoeOut (Rules N) BlockRules := ⟨Rules.toBlockRules⟩

variable {B : Rules N} {blocks left : List (Hash × Header)}

/-- The blocks that were taken are those before the first one left. -/
theorem connectBlocks_eq (h : connectBlocks B blocks rows = (rows', left)) :
    ∃ done, blocks = done ++ left ∧ rows' = addBlocks N.toWorkRules rows done := by
  induction blocks generalizing rows with
  | nil =>
    cases h
    exact ⟨[], rfl, rfl⟩
  | cons block rest ih =>
    rw [connectBlocks, B.work] at h
    split at h
    · obtain ⟨done, hdone, hrows⟩ := ih h
      exact ⟨block :: done, by rw [hdone]; rfl, hrows⟩
    · cases h
      exact ⟨[], rfl, rfl⟩

/-- The blocks of a chain above its first one are taken again. -/
def Readds (B : BlockRules) (main : List ChainRow) : Prop :=
  ∀ rows r rest, rows ≠ [] → main = rows ++ r :: rest → B.connects rows r.header r.hash = true

theorem connectBlocks_readds (h : Path N (rows ++ rest)) (hne : rows ≠ [])
    (hre : Readds B (rows ++ rest)) :
    connectBlocks B (rest.map ChainRow.block) rows = (rows ++ rest, []) := by
  induction rest generalizing rows with
  | nil => rw [append_nil]; rfl
  | cons r rest ih =>
    have hrow := (h.extends hne).row
    rw [map_cons, ChainRow.block, connectBlocks, if_pos (hre rows r rest hne rfl), B.work, ← hrow]
    rw [append_cons rows r rest] at h hre ⊢
    exact ih h (by simp) hre

variable {db db' : ChainDb} {P rounds : ℕ} {fork id : Hash} {alt : List AltEntry} {e : AltEntry}

/-- A row of the table is the next block of some chain, with its height. -/
def Stored (N : Network) (e : AltEntry) : Prop :=
  ∃ rows, Extends N rows (AltEntry.row e) ∧ e.height = rows.length

/-- Every stored block ends a chain from the genesis block with the work of the main path, and none
has more work than the main chain. -/
structure Heaviest (N : Network) (db : ChainDb) : Prop where
  main : Path N db.main
  alts : ∀ e ∈ db.alts, Stored N e
  le_top : ∀ r ∈ db.main ++ db.alts.map AltEntry.row,
    r.cumulativeDifficulty ≤ topDifficulty db.main

/-- The tables after a change: what is new must be stored soundly and have no more work. -/
theorem Heaviest.change (h : Heaviest N db) (hpath : Path N db'.main)
    (hle : topDifficulty db.main ≤ topDifficulty db'.main)
    (hmain : ∀ r ∈ db'.main, r ∈ db.main ++ db.alts.map AltEntry.row ∨
      r.cumulativeDifficulty ≤ topDifficulty db'.main)
    (halts : ∀ x ∈ db'.alts, x ∈ db.alts ∨
      Stored N x ∧ x.cumulativeDifficulty ≤ topDifficulty db'.main) : Heaviest N db' := by
  refine ⟨hpath, fun x hx => (halts x hx).elim (h.alts x) And.left, fun r hr => ?_⟩
  rcases mem_append.mp hr with hr | hr
  · exact (hmain r hr).elim (fun hold => (h.le_top r hold).trans hle) id
  · obtain ⟨x, hx, rfl⟩ := mem_map.mp hr
    rcases halts x hx with hold | hnew
    · exact (h.le_top _ (mem_append_right _ (mem_map_of_mem hold))).trans hle
    · exact hnew.2

theorem topBlockHash_spliced (h : ForkPoint db P fork) (alt : List AltEntry) :
    topBlockHash (spliced db P alt) = tip fork alt := by
  induction alt using reverseRecOn with
  | nil =>
    obtain ⟨r, hrow, hhash⟩ := h.row
    rw [spliced, map_nil, append_nil, topBlockHash, getLast?_take, if_neg (Nat.succ_ne_zero P),
      Nat.add_sub_cancel, hrow]
    exact hhash
  | append_singleton front last ih =>
    rw [spliced_concat, topBlockHash_concat, tip_concat]
    rfl

theorem Heaviest.take (h : Heaviest N db) (hfork : ForkPoint db P fork) :
    Path N (db.main.take (P + 1)) ∧ db.main.take (P + 1) ≠ [] := by
  have hmain := h.main
  have hlt := hfork.lt
  have hne : db.main.take (P + 1) ≠ [] := ne_nil_of_length_pos (by rw [length_take]; omega)
  rw [← take_append_drop (P + 1) db.main] at hmain
  exact ⟨hmain.take hne, hne⟩

/-- A row of the table that names the end of a chain is its next block. -/
theorem Heaviest.next (h : Heaviest N db) (hfork : ForkPoint db P fork)
    (hpath : Path N (spliced db P alt)) (he : e ∈ db.alts)
    (hprev : e.header.prevId = tip fork alt) :
    e.height = P + 1 + alt.length ∧ Extends N (spliced db P alt) (AltEntry.row e) := by
  obtain ⟨rows, hext, hheight⟩ := h.alts e he
  obtain rfl := hext.front.unique hpath (by
    rw [topBlockHash_spliced hfork, ← hprev]
    exact hext.prev.symm)
  exact ⟨hheight.trans (length_spliced hfork.lt), hext⟩

/-- What `build_alt_chain` collects from the table is a chain on the block where it stops. -/
theorem Heaviest.collectAlts (h : Heaviest N db) {chain found : List BlockExtendedInfo}
    {ts ts' : List ℕ} (hc : collectAlts db rounds id chain ts = some (found, ts')) :
    ∃ fork alt, db.getAltBlock fork = none ∧ tip fork alt = id ∧
      (alt.head?.map fun e => e.header.prevId).getD id = fork ∧
      found = alt.map AltEntry.extended ++ chain ∧ ∀ P, db.getBlockHeight fork = some P →
        Linked db P fork alt ∧ Path N (spliced db P alt) := by
  induction rounds generalizing id chain ts with
  | zero => cases hc
  | succ rounds ih =>
    rw [AlternativeChains.collectAlts] at hc
    cases hblk : db.getAltBlock id with
    | none =>
      rw [hblk] at hc
      cases hc
      refine ⟨id, [], hblk, rfl, rfl, rfl, fun P hP => ⟨.nil, ?_⟩⟩
      rw [spliced, map_nil, append_nil]
      exact (h.take ⟨hP, hblk⟩).1
    | some e =>
      rw [hblk] at hc
      obtain ⟨fork, alt, hnone, htip, hhead, hfound, hlinked⟩ := ih hc
      have hid : e.id = id := by simpa using find?_some hblk
      refine ⟨fork, alt ++ [e], hnone, by rw [tip_concat, hid], ?_, by simp [hfound], ?_⟩
      · cases alt with
        | nil => exact htip.symm
        | cons first rest => exact hhead
      · intro P hP
        obtain ⟨hlink, hpath⟩ := hlinked P hP
        obtain ⟨hheight, hext⟩ :=
          h.next ⟨hP, hnone⟩ hpath (mem_of_find?_eq_some hblk) htip.symm
        rw [spliced_concat]
        exact ⟨.concat hlink (hid ▸ hblk) htip.symm hheight, hext.path⟩

theorem connect_ok {ts ts' : List ℕ} {found chain : List BlockExtendedInfo}
    (h : connect db id ts found = .ok (chain, ts')) : chain = found ∧
      ∃ P, db.getBlockHeight ((found.head?.map fun b => b.bl.prevId).getD id) = some P := by
  unfold connect at h
  split at h
  · split at h
    · cases h
    · split at h
      · cases h
      · rename_i hP
        split at h
        · cases h
        · cases h
          exact ⟨rfl, _, hP⟩
  · split at h
    · cases h
    · rename_i hP
      cases h
      exact ⟨rfl, _, hP⟩

/-- A new row on top of a chain of the table. -/
structure Continues (N : Network) (db : ChainDb) (P : ℕ) (fork : Hash) (alt : List AltEntry)
    (e : AltEntry) : Prop where
  point : ForkPoint db P fork
  linked : Linked db P fork alt
  height : e.height = P + 1 + alt.length
  row : Extends N (spliced db P alt) (AltEntry.row e)

theorem Continues.prev (h : Continues N db P fork alt e) : e.header.prevId = tip fork alt := by
  rw [← topBlockHash_spliced h.point]
  exact h.row.prev

theorem altEntry_extended (id : Hash) (height diff : ℕ) (b : Header) :
    (altEntry id height (diff % 2 ^ 128) b).extended = ⟨b, height, diff % 2 ^ 128⟩ := by
  simp only [AltEntry.extended, AltEntry.cumulativeDifficulty, altEntry,
    BlockExtendedInfo.mk.injEq, true_and]
  omega

/-- What is stored for an alternative block. -/
theorem storeAlternativeBlock_ok (h : Heaviest N db) (hnew : id ≠ N.genesis.hash)
    {chain : List BlockExtendedInfo} {bei : BlockExtendedInfo}
    (hst : storeAlternativeBlock B rounds db (N.headerOf id) id =
      some (.ok (chain, bei, db'))) :
    ∃ P fork alt e, Continues N db P fork alt e ∧ e.id = id ∧
      chain = alt.map AltEntry.extended ∧ bei = e.extended ∧
      db' = { db with alts := db.alts ++ [e] } := by
  rw [storeAlternativeBlock] at hst
  split at hst
  · cases hst
  split at hst
  · cases hst
  rw [Option.map_eq_some_iff] at hst
  obtain ⟨built, hbuilt, hres⟩ := hst
  split at hres
  · cases hres
  rw [buildAltChain, Option.map_eq_some_iff] at hbuilt
  obtain ⟨⟨found, ts⟩, hcollect, hconnect⟩ := hbuilt
  obtain ⟨rfl, P, hP⟩ := connect_ok hconnect
  obtain ⟨fork, alt, hnone, htip, hhead, hfound, hlinked⟩ := h.collectAlts hcollect
  rw [append_nil] at hfound
  have hfork : ForkPoint db P fork := by
    refine ⟨?_, hnone⟩
    rw [← hhead, ← hP, hfound, head?_map, Option.map_map]
    rfl
  obtain ⟨hlink, hpath⟩ := hlinked P hfork.position
  have hheight : prevHeight db (tip fork alt) + 1 = P + 1 + alt.length := by
    rw [hlink.prevHeight_eq hfork]
    omega
  simp only [hfound, ← htip, hheight, B.work, alternative_difficulty _ hlink hfork,
    hlink.prevDifficulty_eq hfork] at hres
  iterate 4
    split at hres
    · cases hres
  cases hres
  refine ⟨P, fork, alt, _, ⟨hfork, hlink, rfl, hpath, ?_, ?_, rfl, ?_⟩, rfl, rfl,
    (altEntry_extended id _ _ _).symm, rfl⟩
  · rw [topBlockHash_spliced hfork]
    exact htip.symm
  · exact hnew
  · have hrow := congrArg BlockExtendedInfo.cumulativeDifficulty (altEntry_extended id
      (P + 1 + alt.length) (topDifficulty (spliced db P alt) +
        getDifficultyForNextBlock N.toWorkRules (spliced db P alt)) (N.headerOf id))
    rw [addMain, Nat.add_comm (getDifficultyForNextBlock _ _)]
    exact congrArg (fun diff => _ ++ [ChainRow.mk id (N.headerOf id) diff]) hrow

theorem chainBlocks_concat (id : Hash) (chain : List BlockExtendedInfo) (b : BlockExtendedInfo) :
    chainBlocks id (chain ++ [b]) = chainBlocks b.bl.prevId chain ++ [(id, b.bl)] := by
  induction chain with
  | nil => rfl
  | cons first rest ih =>
    cases rest with
    | nil => rfl
    | cons next rest => exact congrArg (cons _) ih

theorem chainBlocks_of_linked (h : Linked db P fork alt) :
    chainBlocks (tip fork alt) (alt.map AltEntry.extended) = alt.map AltEntry.block := by
  induction h with
  | nil => rfl
  | concat _ _ prev _ ih =>
    rw [map_append, map_append, ← ih, ← prev, tip_concat]
    exact chainBlocks_concat _ _ _

theorem mem_of_linked (h : Linked db P fork alt) {x : AltEntry} (hx : x ∈ alt) : x ∈ db.alts := by
  induction h with
  | nil => cases hx
  | concat _ found _ _ ih =>
    rcases mem_append.mp hx with hx | hx
    · exact ih hx
    · rw [mem_singleton.mp hx]
      exact mem_of_find?_eq_some found

/-- The tables with the new chain as the main chain. -/
def switched (db : ChainDb) (P : ℕ) (alt : List AltEntry) (e : AltEntry) : ChainDb :=
  ⟨spliced db P (alt ++ [e]), db.alts ++ [e]⟩

theorem topDifficulty_switched (db : ChainDb) (P : ℕ) (alt : List AltEntry) (e : AltEntry) :
    topDifficulty (switched db P alt e).main = e.cumulativeDifficulty := by
  rw [switched, spliced_concat, topDifficulty_concat]
  rfl

theorem Continues.stored (hc : Continues N db P fork alt e) {x : AltEntry}
    (hx : x ∈ db.alts ++ [e]) : x ∈ db.alts ∨ Stored N x ∧ x = e := by
  rcases mem_append.mp hx with hx | hx
  · exact Or.inl hx
  · obtain rfl := mem_singleton.mp hx
    exact Or.inr ⟨⟨_, hc.row, by rw [hc.height, length_spliced hc.point.lt]⟩, rfl⟩

theorem Heaviest.store (h : Heaviest N db) (hc : Continues N db P fork alt e)
    (hless : ¬ topDifficulty db.main < e.cumulativeDifficulty) :
    Heaviest N { db with alts := db.alts ++ [e] } := by
  refine h.change h.main le_rfl (fun r hr => Or.inl (mem_append_left _ hr)) fun x hx => ?_
  rcases hc.stored hx with hold | ⟨hnew, rfl⟩
  · exact Or.inl hold
  · exact Or.inr ⟨hnew, not_lt.mp hless⟩

theorem Heaviest.switch (h : Heaviest N db) (hc : Continues N db P fork alt e)
    (hmore : topDifficulty db.main < e.cumulativeDifficulty) :
    Heaviest N (switched db P alt e) := by
  have htop := topDifficulty_switched db P alt e
  have hpath := hc.row.path
  rw [← spliced_concat] at hpath
  refine h.change hpath (htop ▸ hmore.le) (fun r hr => ?_) fun x hx => ?_
  · rcases mem_append.mp hr with hr | hr
    · exact Or.inl (mem_append_left _ (mem_of_mem_take hr))
    · obtain ⟨x, hx, rfl⟩ := mem_map.mp hr
      rcases mem_append.mp hx with hx | hx
      · exact Or.inl (mem_append_right _ (mem_map_of_mem (mem_of_linked hc.linked hx)))
      · rw [mem_singleton.mp hx, htop]
        exact Or.inr le_rfl
  · rcases hc.stored hx with hold | ⟨hnew, rfl⟩
    · exact Or.inl hold
    · exact Or.inr ⟨hnew, htop.ge⟩

/-- A switch ends with the main chain as it was and without the new row, or with the new chain and
the old blocks pushed. -/
theorem switch_cases (h : Heaviest N db) (hc : Continues N db P fork alt e)
    (hre : Readds B db.main) {push : ChainDb → Hash × Header → Option ChainDb}
    {added : Bool} (hsw : switchToAlternativeBlockchain B push
      { db with alts := db.alts ++ [e] } ((alt ++ [e]).map AltEntry.block) false =
        some (added, db')) :
    (db'.main = db.main ∧ ∀ x ∈ db'.alts, x ∈ db.alts) ∨
      ∃ pushed, ((db.main.drop (P + 1)).map ChainRow.block).foldlM push (switched db P alt e) =
        some pushed ∧ db'.main = pushed.main ∧ ∀ x ∈ db'.alts, x ∈ pushed.alts := by
  obtain ⟨first, rest, hcons, hprev⟩ : ∃ first rest, (alt ++ [e]).map AltEntry.block =
      first :: rest ∧ first.2.prevId = fork := by
    cases halt : alt with
    | nil =>
      have hprev := hc.prev
      rw [halt] at hprev
      exact ⟨_, _, rfl, hprev⟩
    | cons first rest =>
      exact ⟨_, _, rfl, hc.linked.first_prev (by rw [halt]; rfl)⟩
  obtain ⟨-, hne⟩ := h.take hc.point
  have hpos : getBlockHeight { db with alts := db.alts ++ [e] } fork = some P := hc.point.position
  rw [hcons, switchToAlternativeBlockchain] at hsw
  dsimp only at hsw
  rw [hprev, hpos, ← hcons] at hsw
  dsimp only at hsw
  generalize hconn : connectBlocks B _ (db.main.take (P + 1)) = reached at hsw
  obtain ⟨main, left⟩ := reached
  obtain ⟨done, hdone, rfl⟩ := connectBlocks_eq hconn
  cases left with
  | nil =>
    have hpath := hc.row.path
    rw [← spliced_concat] at hpath
    have hall := hpath.addBlocks_eq hne
    rw [map_map] at hall
    change addBlocks _ _ ((alt ++ [e]).map AltEntry.block) = _ at hall
    rw [hdone, append_nil] at hall
    obtain ⟨pushed, hpush, hres⟩ := Option.map_eq_some_iff.mp hsw
    cases hres
    rw [hall] at hpush
    exact Or.inr ⟨pushed, hpush, rfl, fun x hx => (mem_filter.mp hx).1⟩
  | cons refused left =>
    cases hsw
    refine Or.inl ⟨?_, fun x hx => ?_⟩
    · -- What was taken lies on top of the split, where the rollback starts again.
      obtain ⟨taken, htaken⟩ := prefix_addBlocks N.toWorkRules (db.main.take (P + 1)) done
      have hmain := h.main
      rw [← take_append_drop (P + 1) db.main] at hmain hre
      have hback := connectBlocks_readds hmain hne hre
      rw [take_append_drop] at hback
      dsimp only [removeAltBlocks]
      rw [← htaken, take_left]
      exact congrArg Prod.fst hback
    · obtain ⟨hx, hleft⟩ := mem_filter.mp hx
      rcases hc.stored hx with hold | ⟨-, rfl⟩
      · exact hold
      · have hall := congrArg getLast? hdone
        rw [getLast?_append, map_append, getLast?_append] at hall
        have hlast : (refused :: left).getLast? = some (AltEntry.block x) := by
          simpa using hall.symm
        have hmem := mem_map_of_mem (f := Prod.fst) (mem_of_getLast? hlast)
        exact absurd hmem (of_decide_eq_true hleft)

/-- The function that `handle_alternative_block` pushes the disconnected blocks with. -/
def pushBlock (B : BlockRules) (rounds : ℕ) (db : ChainDb) (block : Hash × Header) :
    Option ChainDb :=
  (handleAlternativeBlock B rounds db block.2 block.1).map Prod.snd

variable {added : Bool}

/-- An alternative block is refused, kept, or switched to when its chain has more work. -/
theorem handle_cases (h : Heaviest N db) (hnew : id ≠ N.genesis.hash)
    (hh : handleAlternativeBlock B rounds db (N.headerOf id) id =
      some (added, db')) :
    db' = db ∨ ∃ P fork alt e, Continues N db P fork alt e ∧ e.id = id ∧
      if topDifficulty db.main < e.cumulativeDifficulty then
        ∃ rounds, switchToAlternativeBlockchain B (pushBlock B rounds)
          { db with alts := db.alts ++ [e] } ((alt ++ [e]).map AltEntry.block) false =
            some (added, db')
      else db' = { db with alts := db.alts ++ [e] } := by
  cases rounds with
  | zero => cases hh
  | succ rounds =>
    rw [handleAlternativeBlock] at hh
    obtain ⟨stored, hst, hres⟩ := Option.bind_eq_some_iff.mp hh
    cases stored with
    | error =>
      cases hres
      exact Or.inl rfl
    | ok stored =>
      obtain ⟨chain, bei, next⟩ := stored
      obtain ⟨P, fork, alt, e, hc, rfl, rfl, rfl, rfl⟩ := storeAlternativeBlock_ok h hnew hst
      have hblocks : chainBlocks e.id (alt.map AltEntry.extended ++ [e.extended]) =
          (alt ++ [e]).map AltEntry.block := by
        rw [chainBlocks_concat, map_append, ← chainBlocks_of_linked hc.linked, ← hc.prev]
        rfl
      refine Or.inr ⟨P, fork, alt, e, hc, rfl, ?_⟩
      dsimp only at hres
      rw [B.plain, if_neg (by simp), hblocks] at hres
      by_cases hmore : topDifficulty db.main < e.cumulativeDifficulty
      · rw [if_pos hmore]
        exact ⟨rounds, (if_pos hmore).symm.trans hres⟩
      · rw [if_neg hmore]
        have hkept := (if_neg hmore).symm.trans hres
        exact (Prod.mk.inj (Option.some.inj hkept)).2.symm

/-- Pushing blocks of a known chain with no more work leaves the main chain as it is. -/
theorem pushed_known (h : Heaviest N db) (hne : rows ≠ []) (hpath : Path N (rows ++ rest))
    (hless : ∀ r ∈ rest, r.cumulativeDifficulty ≤ topDifficulty db.main)
    (hpush : (rest.map ChainRow.block).foldlM (pushBlock B rounds) db = some db') :
    Heaviest N db' ∧ db'.main = db.main := by
  induction rest generalizing rows db with
  | nil =>
    cases hpush
    exact ⟨h, rfl⟩
  | cons r rest ih =>
    have hext := hpath.extends hne
    rw [append_cons] at hpath
    rw [map_cons, foldlM_cons] at hpush
    obtain ⟨next, hnext, hpush⟩ := Option.bind_eq_some_iff.mp hpush
    have hkept : Heaviest N next ∧ next.main = db.main := by
      obtain ⟨⟨added, reached⟩, hfirst, rfl⟩ := Option.map_eq_some_iff.mp hnext
      rw [ChainRow.block, hext.header] at hfirst
      rcases handle_cases h hext.new hfirst with rfl | ⟨P, fork, alt, e, hc, hid, hres⟩
      · exact ⟨h, rfl⟩
      · -- The new row is the one that the block has on the known chain.
        have hrow := congrArg ChainRow.cumulativeDifficulty (hc.row.unique hext hid)
        have hmore : ¬ topDifficulty db.main < e.cumulativeDifficulty :=
          not_lt.mpr (le_of_eq_of_le hrow (hless r mem_cons_self))
        rw [if_neg hmore] at hres
        subst hres
        exact ⟨h.store hc hmore, rfl⟩
    obtain ⟨hheavy, hmain⟩ := ih hkept.1 (by simp) hpath
      (fun x hx => hkept.2 ▸ hless x (mem_cons_of_mem _ hx)) hpush
    exact ⟨hheavy, hmain.trans hkept.2⟩

/-- From one main chain to another the work does not shrink, and blocks are taken off for more
work only. -/
structure NoLessWork (rows rows' : List ChainRow) : Prop where
  le : topDifficulty rows ≤ topDifficulty rows'
  more : rows <+: rows' ∨ topDifficulty rows < topDifficulty rows'

theorem NoLessWork.refl (rows : List ChainRow) : NoLessWork rows rows :=
  ⟨le_rfl, Or.inl prefix_rfl⟩

theorem NoLessWork.trans {third : List ChainRow} (h : NoLessWork rows rows')
    (h' : NoLessWork rows' third) : NoLessWork rows third := by
  refine ⟨h.le.trans h'.le, ?_⟩
  rcases h.more with hpre | hlt
  · rcases h'.more with hpre' | hlt'
    · exact Or.inl (hpre.trans hpre')
    · exact Or.inr (h.le.trans_lt hlt')
  · exact Or.inr (hlt.trans_le h'.le)

theorem handleAlternativeBlock_kept (h : Heaviest N db) (hre : Readds B db.main)
    (hnew : id ≠ N.genesis.hash)
    (hh : handleAlternativeBlock B rounds db (N.headerOf id) id =
      some (added, db')) : Heaviest N db' ∧ NoLessWork db.main db'.main := by
  rcases handle_cases h hnew hh with rfl | ⟨P, fork, alt, e, hc, -, hres⟩
  · exact ⟨h, .refl _⟩
  have hsame : ∀ {s : ChainDb}, Heaviest N s → db'.main = s.main → (∀ x ∈ db'.alts, x ∈ s.alts) →
      Heaviest N db' := fun hs hmain halts => hs.change (hmain ▸ hs.main) (hmain ▸ le_rfl)
    (fun r hr => Or.inl (mem_append_left _ (hmain ▸ hr))) fun x hx => Or.inl (halts x hx)
  split at hres
  · rename_i hmore
    obtain ⟨rounds, hsw⟩ := hres
    rcases switch_cases h hc hre hsw with ⟨hmain, halts⟩ | ⟨pushed, hpush, hmain, halts⟩
    · exact ⟨hsame h hmain halts, hmain ▸ .refl _⟩
    · -- Every old block has less work than the new chain, and none of them is switched to.
      have hpath := h.main
      rw [← take_append_drop (P + 1) db.main] at hpath
      obtain ⟨hheavy, heq⟩ := pushed_known (h.switch hc hmore) (h.take hc.point).2 hpath
        (fun r hr => by
          rw [topDifficulty_switched]
          exact (h.le_top r (mem_append_left _ (mem_of_mem_drop hr))).trans hmore.le) hpush
      have htop : topDifficulty db.main < topDifficulty db'.main := by
        rw [hmain, heq, topDifficulty_switched]
        exact hmore
      exact ⟨hsame hheavy hmain halts, htop.le, Or.inr htop⟩
  · rename_i hless
    subst hres
    exact ⟨h.store hc hless, .refl _⟩

/-- A block is handled by the rules of the moment, under which the blocks of the main chain are
taken again after a failed switch. The next cumulative difficulty fits in 128 bits. -/
inductive Handled (N : Network) : ChainDb → Hash → ChainDb → Prop
  | block {db db' : ChainDb} {id : Hash} {added : Bool} (B : Rules N) (rounds : ℕ)
      (readds : Readds B db.main)
      (fits : getDifficultyForNextBlock N.toWorkRules db.main + topDifficulty db.main < 2 ^ 128)
      (handled : addNewBlock B rounds db (N.headerOf id) id = some (added, db')) :
      Handled N db id db'

theorem Handled.kept (h : Heaviest N db) (hstep : Handled N db id db') :
    Heaviest N db' ∧ NoLessWork db.main db'.main := by
  obtain ⟨B, rounds, readds, fits, handled⟩ := hstep
  rw [addNewBlock, B.work] at handled
  split at handled
  · cases handled
    exact ⟨h, .refl _⟩
  rename_i hhave
  have hnew : id ≠ N.genesis.hash := by
    rintro rfl
    simp [haveBlock, getBlockHeight] at hhave
    exact hhave.1.1 N.genesis h.main.genesis_mem rfl
  split at handled
  · exact handleAlternativeBlock_kept h readds hnew handled
  rename_i hprev
  split at handled
  · cases handled
    have htop : topDifficulty (addMain N.toWorkRules db.main id (N.headerOf id)) =
        getDifficultyForNextBlock N.toWorkRules db.main + topDifficulty db.main := by
      rw [addMain, topDifficulty_concat, Nat.mod_eq_of_lt fits]
    have hle := htop ▸ Nat.le_add_left (topDifficulty db.main) _
    refine ⟨h.change (h.main.next (not_not.mp hprev) hnew) hle (fun r hr => ?_)
      fun x hx => Or.inl hx, hle, Or.inl (prefix_append _ _)⟩
    rcases mem_append.mp hr with hr | hr
    · exact Or.inl (mem_append_left _ hr)
    · rw [mem_singleton.mp hr, addMain, topDifficulty_concat]
      exact Or.inr le_rfl
  · cases handled
    exact ⟨h, .refl _⟩

theorem kept_run {ids : List Hash} (h : Heaviest N db) (run : Run (Handled N) db ids db') :
    Heaviest N db' ∧ NoLessWork db.main db'.main := by
  induction run with
  | nil => exact ⟨h, .refl _⟩
  | cons head _ ih =>
    obtain ⟨hnext, hwork⟩ := head.kept h
    obtain ⟨hend, hmore⟩ := ih hnext
    exact ⟨hend, hwork.trans hmore⟩

theorem heaviest_start : Heaviest N ⟨[N.genesis], []⟩ := by
  refine ⟨.genesis, fun _ he => (nomatch he), fun r hr => ?_⟩
  rw [mem_singleton.mp hr]
  exact le_rfl

/-- Two blocks on the genesis block and a third one on the second of them. -/
def sampleNetwork : Network where
  toWorkRules := default
  genesis := ⟨.fill 1, ⟨1, 100, nullHash⟩, 1⟩
  headerOf id := if id = .fill 4 then ⟨1, 300, .fill 3⟩ else ⟨1, 200, .fill 1⟩

def sampleMoment : Rules sampleNetwork where
  toWorkRules := default
  otherChecks _ _ _ := true
  enoughWork _ _ _ := true
  isACheckpoint _ _ := false
  connects _ _ _ := true
  invalidBlocks _ := false
  work := rfl
  plain _ _ := rfl

deriving instance DecidableEq for ChainDb

/-- The blocks above the genesis block with their work, and the blocks kept beside them. -/
def sampleTables (main : List (UInt8 × ℕ)) (alts : List UInt8) : ChainDb where
  main := sampleNetwork.genesis :: main.map fun r =>
    ⟨.fill r.1, sampleNetwork.headerOf (.fill r.1), r.2⟩
  alts := alts.map fun id => ⟨.fill id, 1, 2, 0, sampleNetwork.headerOf (.fill id)⟩

theorem sample_extends : Handled sampleNetwork (sampleTables [] []) (.fill 2)
    (sampleTables [(2, 2)] []) :=
  .block sampleMoment 3 (fun _ _ _ _ _ => rfl) (by decide +kernel)
    (by decide +kernel : _ = some (true, _))

theorem sample_reorganizes : Run (Handled sampleNetwork) (sampleTables [(2, 2)] [])
    [.fill 3, .fill 4] (sampleTables [(3, 2), (4, 3)] [2]) :=
  .cons (.block sampleMoment 3 (fun _ _ _ _ _ => rfl) (by decide +kernel)
      (by decide +kernel : _ = some (false, sampleTables [(2, 2)] [3])))
    (.cons (.block sampleMoment 3 (fun _ _ _ _ _ => rfl) (by decide +kernel)
      (by decide +kernel : _ = some (true, _))) (.nil _))

/-- After any run, the rows of the table that follow each other from a block of the main chain have
the work of the main path. -/
theorem tracked_run {ids : List Hash} (run : Run (Handled N) ⟨[N.genesis], []⟩ ids db)
    (hfork : ForkPoint db P fork) (hlinked : Linked db P fork alt) :
    Worked N.toWorkRules db P fork alt ∧ Path N (spliced db P alt) := by
  have h := (kept_run heaviest_start run).1
  induction hlinked with
  | nil =>
    rw [spliced, map_nil, append_nil]
    exact ⟨.nil, (h.take hfork).1⟩
  | @concat front e hlink found prev height ih =>
    obtain ⟨-, hext⟩ := h.next hfork ih.2 (mem_of_find?_eq_some found) prev
    have hrow := congrArg topDifficulty hext.row
    rw [addMain, topDifficulty_concat, topDifficulty_concat] at hrow
    refine ⟨.concat ih.1 found prev height (hrow.trans ?_), ?_⟩
    · rw [hlink.prevDifficulty_eq hfork, height, alternative_difficulty _ hlink hfork]
      exact congrArg (· % 2 ^ 128) (Nat.add_comm _ _)
    · rw [spliced_concat]
      exact hext.path

/-- After any blocks in any order, with reorganizations among them, the main chain is the heaviest
of the chains stored. -/
theorem main_chain_heaviest (N : Network) (ids : List Hash) (db : ChainDb)
    (run : Run (Handled N) ⟨[N.genesis], []⟩ ids db) : Heaviest N db :=
  (kept_run heaviest_start run).1

theorem main_chain_heaviest_sample :
    Heaviest sampleNetwork (sampleTables [(3, 2), (4, 3)] [2]) :=
  main_chain_heaviest sampleNetwork _ _ (.cons sample_extends sample_reorganizes)

/-- Along every run the work of the main chain does not shrink, and a block is taken off the main
chain only when a chain with more work replaces it. -/
theorem reorganized_for_more_work (N : Network) (before after : List Hash) (db db' : ChainDb)
    (reached : Run (Handled N) ⟨[N.genesis], []⟩ before db)
    (run : Run (Handled N) db after db') : NoLessWork db.main db'.main :=
  (kept_run (kept_run heaviest_start reached).1 run).2

theorem reorganized_for_more_work_sample : NoLessWork (sampleTables [(2, 2)] []).main
    (sampleTables [(3, 2), (4, 3)] [2]).main :=
  reorganized_for_more_work sampleNetwork _ _ _ _ (.cons sample_extends (.nil _))
    sample_reorganizes

end Monzero.ForkChoice
