import Monzero.HardForks

/-!
The window of votes. The schedule keeps the votes of the last blocks of the chain, no more
than the size of the window, and how often each version occurs among them. A block that is
added brings its vote in and takes the oldest one out. A block that is popped takes its vote
out, and brings in what is stored for its own height instead of the vote that left the
window before: the window is not shortened with the chain, and the votes at its front
are those of the chain only where they agree with the stored versions.
-/
namespace Monzero.ForkVotes

open HardForks HardFork List
open Function (update update_self)
open Option (some)

/-- How often each version occurs in a list, in 32 bits. -/
def Counts (counts : UInt8 → UInt32) (votes : List UInt8) : Prop :=
  ∀ v, counts v = UInt32.ofNat (votes.count v)

theorem counts_nil : Counts (fun _ => 0) [] := fun _ => rfl

variable {votes : List UInt8} {counts : UInt8 → UInt32} {f f' : HardFork}

theorem Counts.perm {votes votes' : List UInt8} (h : Counts counts votes)
    (hperm : votes.Perm votes') : Counts counts votes' := by
  intro v
  rw [h v, hperm.count_eq v]

theorem Counts.cons (h : Counts counts votes) (vote : UInt8) :
    Counts (update counts vote (counts vote + 1)) (vote :: votes) := by
  intro v
  by_cases hv : v = vote
  · rw [hv, update_self, h vote, count_cons_self, UInt32.ofNat_add]
    rfl
  · rw [Function.update_of_ne hv, h v, count_cons_of_ne (Ne.symm hv)]

theorem Counts.of_cons {vote : UInt8} (h : Counts counts (vote :: votes)) :
    Counts (update counts vote (counts vote - 1)) votes := by
  intro v
  by_cases hv : v = vote
  · rw [hv, update_self, h vote, count_cons_self, UInt32.ofNat_add]
    grind
  · rw [Function.update_of_ne hv, h v, count_cons_of_ne (Ne.symm hv)]

theorem Counts.concat (h : Counts counts votes) (vote : UInt8) :
    Counts (update counts vote (counts vote + 1)) (votes ++ [vote]) :=
  (h.cons vote).perm (perm_append_singleton vote votes).symm

theorem Counts.unique {counts counts' : UInt8 → UInt32} (h : Counts counts votes)
    (h' : Counts counts' votes) : counts = counts' :=
  funext fun v => (h v).trans (h' v).symm

/-- The effective votes of the chain, oldest first. -/
def effectiveVotes (f : HardFork) : List UInt8 :=
  f.db.blocks.map fun b => f.getEffectiveVersion (getBlockVote b)

/-- The effective votes of the last blocks, as many as the window holds. -/
def windowVotes (f : HardFork) : List UInt8 :=
  (effectiveVotes f).drop (f.db.height - f.windowSize)

/-- The window of a schedule is that of its chain. -/
structure Follows (f : HardFork) : Prop where
  votes : f.versions = windowVotes f
  counts : Counts f.lastVersions f.versions

theorem length_effectiveVotes (f : HardFork) : (effectiveVotes f).length = f.db.height := by
  rw [effectiveVotes, length_map, ForkDb.height]

theorem Follows.length_eq {f : HardFork} (h : Follows f) :
    f.versions.length = min f.windowSize f.db.height := by
  rw [h.votes, windowVotes, length_drop, length_effectiveVotes]
  omega

theorem raiseFork_eq_index (f : HardFork) (height : ℕ) :
    ∃ i, f.raiseFork height = { f with currentForkIndex := i } := by
  rw [raiseFork]
  split
  · exact ⟨_, rfl⟩
  · exact ⟨f.currentForkIndex, rfl⟩

/-! ### Counting again -/

theorem countVotes_eq (f : HardFork) (bs : List Header) : ∃ counts, f.countVotes bs = { f with
        versions := bs.map fun b => f.getEffectiveVersion (getBlockVote b)
        lastVersions := counts } ∧
      Counts counts (bs.map fun b => f.getEffectiveVersion (getBlockVote b)) := by
  have hfold : ∀ g : HardFork, Counts g.lastVersions g.versions → ∃ counts,
      bs.foldl (fun f b => f.pushVote (f.getEffectiveVersion (getBlockVote b))) g = { g with
        versions := g.versions ++ bs.map fun b => g.getEffectiveVersion (getBlockVote b)
        lastVersions := counts } ∧
      Counts counts (g.versions ++ bs.map fun b => g.getEffectiveVersion (getBlockVote b)) := by
    induction bs with
    | nil => exact fun g hg => ⟨g.lastVersions, by simp, by simpa using hg⟩
    | cons b rest ih =>
      intro g hg
      obtain ⟨counts, hrest, hcounts⟩ := ih
        (g.pushVote (g.getEffectiveVersion (getBlockVote b))) (hg.concat _)
      have hsplit : (g.versions ++ [g.getEffectiveVersion (getBlockVote b)]) ++
            rest.map (fun b => g.getEffectiveVersion (getBlockVote b)) =
          g.versions ++ (b :: rest).map fun b => g.getEffectiveVersion (getBlockVote b) := by
        rw [append_assoc, singleton_append, map_cons]
      rw [← hsplit]
      exact ⟨counts, hrest, hcounts⟩
  obtain ⟨counts, hvotes, hcounts⟩ := hfold f.clearVotes counts_nil
  exact ⟨counts, hvotes, hcounts⟩

theorem follows_iff_rescanned (f : HardFork) : Follows f ↔
      f.versions = (f.countVotes (f.db.blocks.drop (f.db.height - f.windowSize))).versions ∧
        f.lastVersions =
          (f.countVotes (f.db.blocks.drop (f.db.height - f.windowSize))).lastVersions := by
  obtain ⟨counts, hcnt, hcounts⟩ :=
    countVotes_eq f (f.db.blocks.drop (f.db.height - f.windowSize))
  rw [hcnt]
  rw [map_drop] at hcounts ⊢
  constructor
  · intro h
    refine ⟨h.votes, ?_⟩
    have hf := h.counts
    rw [h.votes] at hf
    exact hf.unique hcounts
  · rintro ⟨hvotes, hlast⟩
    refine ⟨hvotes, ?_⟩
    rw [hvotes, hlast]
    exact hcounts

theorem follows_rescan
    (h : f.rescanFromBlockHeight (f.db.height - f.windowSize) = some (true, f')) :
    Follows f' := by
  rw [rescanFromBlockHeight] at h
  split at h
  · cases h
  split at h
  · cases h
  · rename_i lastVersion _
    obtain ⟨counts, hcnt, hcounts⟩ :=
      countVotes_eq f (f.db.blocks.drop (f.db.height - f.windowSize))
    rw [hcnt] at h
    dsimp only at h
    obtain ⟨i, hraise⟩ := raiseFork_eq_index { f with
      versions := (f.db.blocks.drop (f.db.height - f.windowSize)).map fun b =>
        f.getEffectiveVersion (getBlockVote b)
      lastVersions := counts
      currentForkIndex := findVersion lastVersion f.heights } f.db.height
    rw [hraise, some.injEq, Prod.mk.injEq] at h
    obtain ⟨-, rfl⟩ := h
    exact ⟨map_drop .., hcounts⟩

theorem rescan_false {height : ℕ} (h : f.rescanFromBlockHeight height = some (false, f')) :
    f' = f ∧ f.db.height ≤ height := by
  rw [rescanFromBlockHeight] at h
  split at h
  · rename_i hover
    cases h
    exact ⟨rfl, hover⟩
  · split at h <;> cases h

theorem follows_init (h : f.init = some f') : Follows f' := by
  have hpos := f.windowSize_pos
  have hstart : (if f.db.height > f.windowSize then f.db.height - (f.windowSize - 1) else 1) - 1 =
      f.db.height - f.windowSize := by
    split <;> omega
  have hne : (if f.db.height > f.windowSize then f.db.height - (f.windowSize - 1) else 1) ≠ 0 := by
    split <;> omega
  simp only [init, rescanFromChainHeight, if_neg hne, hstart, Option.map_eq_some_iff] at h
  obtain ⟨⟨done, found⟩, hscan, rfl⟩ := h
  cases done with
  | true => exact follows_rescan hscan
  | false =>
    -- Nothing was scanned: there are no blocks.
    obtain ⟨rfl, hemp⟩ := rescan_false hscan
    have hblks : f.db.blocks = [] := by
      change f.db.blocks.length ≤ f.db.blocks.length - f.windowSize at hemp
      rw [← length_eq_zero_iff]
      omega
    refine ⟨?_, counts_nil⟩
    change [] = List.drop _ (f.db.blocks.map _)
    rw [hblks, map_nil, drop_nil]

/-! ### Adding a block -/

theorem dropOldVotes_eq (win : ℕ) {votes : List UInt8} (counts : UInt8 → UInt32)
    (h : Counts counts votes) : ∃ counts', dropOldVotes win votes counts =
        (votes.drop (votes.length + 1 - win), counts') ∧
      Counts counts' (votes.drop (votes.length + 1 - win)) := by
  induction votes generalizing counts with
  | nil => exact ⟨counts, by simp [dropOldVotes], by simpa using h⟩
  | cons old rest ih =>
    rw [dropOldVotes]
    split
    · rename_i hfull
      obtain ⟨counts', hrest, hcounts⟩ := ih _ h.of_cons
      have hdrop : (old :: rest).drop ((old :: rest).length + 1 - win) =
          rest.drop (rest.length + 1 - win) := by
        rw [length_cons, show rest.length + 1 + 1 - win =
          rest.length + 1 - win + 1 by omega, drop_succ_cons]
      rw [hdrop]
      exact ⟨counts', hrest, hcounts⟩
    · rename_i hroom
      rw [length_cons, Nat.sub_eq_zero_of_le (by omega), drop_zero]
      exact ⟨counts, rfl, h⟩

theorem add_votes (f : HardFork) {b : Header} (height : ℕ) (hcheck : f.check b = true)
    (h : Counts f.lastVersions f.versions) : ∃ counts i, (f.add b height).2 = { f with
        db := f.db.setHardForkVersion height (f.entry f.currentForkIndex).version
        versions := f.versions.drop (f.versions.length + 1 - f.windowSize) ++
          [f.getEffectiveVersion (getBlockVote b)]
        lastVersions := counts
        currentForkIndex := i } ∧
      Counts counts (f.versions.drop (f.versions.length + 1 - f.windowSize) ++
        [f.getEffectiveVersion (getBlockVote b)]) := by
  obtain ⟨counts, hdrop, hcounts⟩ := dropOldVotes_eq f.windowSize f.lastVersions h
  rw [add, if_neg (by rw [hcheck]; decide), hdrop]
  dsimp only
  obtain ⟨i, hraise⟩ := raiseFork_eq_index (HardFork.pushVote { f with
    db := f.db.setHardForkVersion height (f.entry f.currentForkIndex).version
    versions := f.versions.drop (f.versions.length + 1 - f.windowSize)
    lastVersions := counts } (f.getEffectiveVersion (getBlockVote b))) (height + 1)
  exact ⟨_, i, hraise, hcounts.concat _⟩

theorem follows_addBlock (h : Follows f) {b : Header} (hadd : perform f (.addBlock b) = some f') :
    Follows f' := by
  rw [perform] at hadd
  split at hadd
  on_goal 2 => exact some.inj hadd ▸ h
  rename_i hcheck
  have hlength := h.length_eq
  have hht : (f.db.blocks ++ [b]).length = f.db.height + 1 := by
    rw [length_append, length_singleton, ForkDb.height]
  obtain ⟨counts, i, hstep, hcounts⟩ := add_votes
    { f with db := { f.db with blocks := f.db.blocks ++ [b] } } f.db.height hcheck h.counts
  rw [hstep, some.injEq] at hadd
  subst hadd
  refine ⟨?_, hcounts⟩
  change f.versions.drop (f.versions.length + 1 - f.windowSize) ++
      [f.getEffectiveVersion (getBlockVote b)] =
    ((f.db.blocks ++ [b]).map fun b => f.getEffectiveVersion (getBlockVote b)).drop
      ((f.db.blocks ++ [b]).length - f.windowSize)
  have hpos := f.windowSize_pos
  rw [hht, map_append, drop_append_of_le_length (by
    rw [length_map]
    unfold ForkDb.height
    omega), hlength, h.votes, windowVotes, drop_drop, effectiveVotes]
  congr 2
  omega

/-! ### Popping blocks -/

def storedFrom (db : ForkDb) (height count : ℕ) : List (Option UInt8) :=
  (List.range count).map fun i => db.hfVersions (height + i)

/-- The stored versions of the popped heights come in at the front, and push the others out. -/
theorem popVotes_spec {newHeight : ℕ} (k : ℕ) (h : Counts f.lastVersions f.versions)
    (hpop : popVotes newHeight k f = some f') :
    ∃ vers counts, f' = { f with versions := vers, lastVersions := counts } ∧
      vers.map some =
        (storedFrom f.db newHeight k ++ f.versions.map some).take f.versions.length ∧
      Counts counts vers := by
  induction k generalizing f with
  | zero =>
    cases hpop
    refine ⟨f'.versions, f'.lastVersions, rfl, ?_, h⟩
    rw [storedFrom, range_zero, map_nil, nil_append, take_of_length_le]
    rw [length_map]
  | succ k ih =>
    rw [popVotes] at hpop
    split at hpop
    · rename_i last version hlast hver
      have hsplit : f.versions = f.versions.dropLast ++ [last] :=
        (dropLast_append_getLast? last hlast).symm
      have hrem : Counts (update f.lastVersions last (f.lastVersions last - 1))
          f.versions.dropLast := by
        refine Counts.of_cons (h.perm ?_)
        conv_lhs => rw [hsplit]
        exact perm_append_singleton last _
      obtain ⟨vers, counts, rfl, hversions, hcounts⟩ := ih (hrem.cons version) hpop
      refine ⟨vers, counts, rfl, ?_, hcounts⟩
      have hst : storedFrom f.db newHeight (k + 1) =
          storedFrom f.db newHeight k ++ [some version] := by
        rw [storedFrom, range_succ, map_append, map_singleton, ← hver]
        rfl
      have hlength : f.versions.length = f.versions.dropLast.length + 1 := by
        conv_lhs => rw [hsplit, length_append, length_singleton]
      have hmap : f.versions.map some = f.versions.dropLast.map some ++ [some last] := by
        conv_lhs => rw [hsplit, map_append, map_singleton]
      rw [hversions, hst, hmap]
      change (storedFrom f.db newHeight k ++ (version :: f.versions.dropLast).map some).take
        (f.versions.dropLast.length + 1) = _
      -- The vote that was dropped lies beyond what is kept.
      rw [← hlength, map_cons, append_assoc, singleton_append, ← cons_append, ← append_assoc]
      refine (take_append_of_le_length ?_).symm
      rw [length_append, length_cons, length_map]
      omega
    · cases hpop

/-- A pop that leaves at least a window of blocks, and whose popped heights have the versions
that were voted for a window before. -/
def Harmless (f : HardFork) (nblocks : ℕ) : Prop :=
  f.windowSize ≤ f.db.height - nblocks ∧
    ∀ i < nblocks, i < f.windowSize →
      f.db.hfVersions (f.db.height - nblocks + i) =
        (effectiveVotes f)[f.db.height - nblocks - f.windowSize + i]?

section Window

variable {db : ForkDb} {votes : List UInt8} {newHeight nb win : ℕ}
  (hlength : votes.length = newHeight + nb)

theorem length_storedFrom (db : ForkDb) (height count : ℕ) :
    (storedFrom db height count).length = count := by
  rw [storedFrom, length_map, length_range]

include hlength

theorem getElem?_stored_append (hwin : win ≤ newHeight) {i : ℕ} (hi : i < win) :
    (storedFrom db newHeight nb ++ (votes.drop (newHeight + nb - win)).map some)[i]? =
      some (if i < nb then db.hfVersions (newHeight + i)
        else votes[newHeight - win + i]?) := by
  have hst := length_storedFrom db newHeight nb
  split
  · rename_i hn
    rw [getElem?_append_left (by omega), storedFrom, getElem?_map, getElem?_range hn]
    rfl
  · rename_i hn
    have hplace : newHeight + nb - win + (i - nb) = newHeight - win + i := by
      omega
    rw [getElem?_append_right (by omega), hst, getElem?_map, getElem?_drop,
      hplace, getElem?_eq_getElem (by omega)]
    rfl

theorem getElem?_window {i : ℕ} (hwin : win ≤ newHeight) (hi : i < win) :
    (((votes.take newHeight).drop (newHeight - win)).map some)[i]? =
      some votes[newHeight - win + i]? := by
  rw [getElem?_map, getElem?_drop, getElem?_take_of_lt (by omega), getElem?_eq_getElem (by omega)]
  rfl

theorem take_stored_eq_iff (hwin : win ≤ newHeight) : (storedFrom db newHeight nb ++
          (votes.drop (newHeight + nb - win)).map some).take win =
      ((votes.take newHeight).drop (newHeight - win)).map some ↔
    ∀ i < nb, i < win → db.hfVersions (newHeight + i) = votes[newHeight - win + i]? := by
  constructor
  · intro heq i hn hi
    have hplace := congrArg (·[i]?) heq
    simp only [getElem?_take_of_lt hi, getElem?_stored_append hlength hwin hi,
      getElem?_window hlength hwin hi, if_pos hn, some.injEq] at hplace
    exact hplace
  · intro hall
    apply ext_getElem?
    intro i
    by_cases hi : i < win
    · rw [getElem?_take_of_lt hi, getElem?_stored_append hlength hwin hi,
        getElem?_window hlength hwin hi]
      split
      · rename_i hn
        rw [hall i hn hi]
      · rfl
    · rw [List.getElem?_eq_none, List.getElem?_eq_none]
      · rw [length_map, length_drop, length_take]
        omega
      · rw [length_take]
        omega

end Window

theorem popBlocks_spec (h : Counts f.lastVersions f.versions) {nb : ℕ} (hpos : 0 < nb)
    (hlt : nb < f.db.height) (hpop : perform f (.popBlocks nb) = some f') :
    f'.versions.map some = (storedFrom f.db (f.db.height - nb) nb ++
        f.versions.map some).take f.versions.length ∧
      Counts f'.lastVersions f'.versions ∧
      windowVotes f' = ((effectiveVotes f).take (f.db.height - nb)).drop
        (f.db.height - nb - f.windowSize) := by
  have hht : (f.db.blocks.take (f.db.height - nb)).length = f.db.height - nb := by
    rw [length_take]
    unfold ForkDb.height
    omega
  rw [perform, if_neg (by omega), onBlockPopped, if_neg (by omega), Option.map_eq_some_iff] at hpop
  obtain ⟨popped, hpopped, rfl⟩ := hpop
  generalize f.db.height - nb = newHeight at hht hpopped
  rw [ForkDb.height, hht] at hpopped
  obtain ⟨vers, counts, rfl, hversions, hcounts⟩ := popVotes_spec nb (by exact h) hpopped
  refine ⟨hversions, hcounts, ?_⟩
  rw [windowVotes, ForkDb.height, hht, effectiveVotes, effectiveVotes, map_take]
  rfl

theorem follows_popBlocks_iff (h : Follows f) {nb : ℕ} (hpos : 0 < nb)
    (hlt : nb < f.db.height) (hpop : perform f (.popBlocks nb) = some f') :
    Follows f' ↔ Harmless f nb := by
  obtain ⟨hversions, hcounts, hwindowVotes⟩ := popBlocks_spec h.counts hpos hlt hpop
  have hfollows : Follows f' ↔ f'.versions.map some = (windowVotes f').map some := by
    rw [List.map_inj_right fun _ _ => some.inj]
    exact ⟨fun hf => hf.votes, fun hf => ⟨hf, hcounts⟩⟩
  have hvotes := length_effectiveVotes f
  rw [hfollows, hversions, hwindowVotes, Harmless, h.length_eq, h.votes, windowVotes]
  obtain ⟨newHeight, hht⟩ : ∃ newHeight, f.db.height = newHeight + nb :=
    ⟨f.db.height - nb, by omega⟩
  rw [hht] at hvotes hlt
  rw [hht, Nat.add_sub_cancel]
  by_cases hwin : f.windowSize ≤ newHeight
  · rw [Nat.min_eq_left (by omega), take_stored_eq_iff hvotes hwin, and_iff_right hwin]
  · refine iff_of_false (fun heq => ?_) (fun hand => hwin hand.1)
    have hlengths := congrArg List.length heq
    rw [length_take, length_append, length_storedFrom, length_map, length_map,
      length_drop, length_drop, length_take, hvotes] at hlengths
    omega

def HarmlessRun : HardFork → List ForkCall → Prop
  | _, [] => True
  | f, .addBlock b :: rest => ∀ f' ∈ perform f (.addBlock b), HarmlessRun f' rest
  | f, .popBlocks nblocks :: rest =>
      (0 < nblocks → nblocks < f.db.height → Harmless f nblocks) ∧
        ∀ f' ∈ perform f (.popBlocks nblocks), HarmlessRun f' rest
  | _, _ => False

instance (f : HardFork) (nblocks : ℕ) : Decidable (Harmless f nblocks) :=
  inferInstanceAs (Decidable (f.windowSize ≤ f.db.height - nblocks ∧
    ∀ i < nblocks, i < f.windowSize →
      f.db.hfVersions (f.db.height - nblocks + i) =
        (effectiveVotes f)[f.db.height - nblocks - f.windowSize + i]?))

instance decidableHarmlessRun : ∀ f calls, Decidable (HarmlessRun f calls)
  | _, [] => isTrue trivial
  | f, .addBlock b :: rest =>
      have := fun f' => decidableHarmlessRun f' rest
      inferInstanceAs (Decidable (∀ f' ∈ perform f (.addBlock b), HarmlessRun f' rest))
  | f, .popBlocks nblocks :: rest =>
      have := fun f' => decidableHarmlessRun f' rest
      inferInstanceAs (Decidable ((0 < nblocks → nblocks < f.db.height → Harmless f nblocks) ∧
        ∀ f' ∈ perform f (.popBlocks nblocks), HarmlessRun f' rest))
  | _, .init :: _ => isFalse id
  | _, .reorganizeFromBlockHeight _ :: _ => isFalse id
  | _, .rescanFromBlockHeight _ :: _ => isFalse id

theorem follows_run {calls : List ForkCall} (h : Follows f) (hcalls : HarmlessRun f calls)
    (hrun : performAll f calls = some f') : Follows f' := by
  induction calls generalizing f with
  | nil =>
    cases hrun
    exact h
  | cons call rest ih =>
    rw [performAll, Option.bind_eq_some_iff] at hrun
    obtain ⟨next, hnext, hrest⟩ := hrun
    cases call with
    | addBlock b => exact ih (follows_addBlock h hnext) (hcalls next hnext) hrest
    | popBlocks nb =>
      refine ih ?_ (hcalls.2 next hnext) hrest
      by_cases hreal : 0 < nb ∧ nb < f.db.height
      · exact (follows_popBlocks_iff h hreal.1 hreal.2 hnext).mpr (hcalls.1 hreal.1 hreal.2)
      · rw [perform, if_pos (by omega)] at hnext
        exact some.inj hnext ▸ h
    | init => exact hcalls.elim
    | reorganizeFromBlockHeight height => exact hcalls.elim
    | rescanFromBlockHeight height => exact hcalls.elim

/-- After a schedule was set up, blocks that are added and harmless pops keep the window that
scanning the chain gives. From there one more block keeps it, and a pop exactly if it is
harmless. -/
theorem vote_window_follows (f₀ f f' : HardFork) (hinit : f₀.init = some f)
    (calls : List ForkCall) (hcalls : HarmlessRun f calls) (hrun : performAll f calls = some f') :
    Follows f' ∧
    (f'.versions = (f'.countVotes (f'.db.blocks.drop (f'.db.height - f'.windowSize))).versions ∧
      f'.lastVersions =
        (f'.countVotes (f'.db.blocks.drop (f'.db.height - f'.windowSize))).lastVersions) ∧
    (∀ b g, perform f' (.addBlock b) = some g → Follows g) ∧
    ∀ nblocks g, 0 < nblocks → nblocks < f'.db.height → perform f' (.popBlocks nblocks) = some g →
      (Follows g ↔ Harmless f' nblocks) := by
  have h := follows_run (follows_init hinit) hcalls hrun
  exact ⟨h, (follows_iff_rescanned f').mp h, fun b g hadd => follows_addBlock h hadd,
    fun nblocks g hpos hlt hpop => follows_popBlocks_iff h hpos hlt hpop⟩

/-- A schedule with a window of two blocks over an empty database. The second version is far
away. -/
def smallSchedule : HardFork :=
  (newHardFork ⟨[], fun _ => none⟩ 2 (by decide) 1).addForks [⟨1, 1, 0, 1⟩, ⟨2, 100, 80, 2⟩]

theorem isSome_init_small : smallSchedule.init.isSome := by decide

/-- Three blocks, of which the last one votes for the second version and is popped. -/
theorem vote_window_small : ∃ f', (smallSchedule.init.bind fun f => performAll f
      [.addBlock ⟨1, 1⟩, .addBlock ⟨1, 1⟩, .addBlock ⟨1, 2⟩, .popBlocks 1]) = some f' ∧
    Follows f' := by
  have hrun : (performAll (smallSchedule.init.get isSome_init_small)
    [.addBlock ⟨1, 1⟩, .addBlock ⟨1, 1⟩, .addBlock ⟨1, 2⟩, .popBlocks 1]).isSome := by decide
  obtain ⟨f', hf'⟩ := Option.isSome_iff_exists.mp hrun
  have hfollows := (vote_window_follows smallSchedule (smallSchedule.init.get isSome_init_small)
    f' (Option.some_get isSome_init_small).symm
    [.addBlock ⟨1, 1⟩, .addBlock ⟨1, 1⟩, .addBlock ⟨1, 2⟩, .popBlocks 1] (by decide) hf').1
  refine ⟨f', ?_, hfollows⟩
  rw [← Option.some_get isSome_init_small]
  exact hf'

/-- A pop from a chain of two blocks leaves two votes for one block. A pop from a chain of four
blocks loses the vote of the second block for the second version. -/
theorem vote_window_strays :
    ((smallSchedule.init.bind fun f => performAll f
      [.addBlock ⟨1, 1⟩, .addBlock ⟨1, 1⟩, .popBlocks 1]).map
        fun f => (f.versions, windowVotes f)) = some ([1, 1], [1]) ∧
    ((smallSchedule.init.bind fun f => performAll f
      [.addBlock ⟨1, 1⟩, .addBlock ⟨1, 2⟩, .addBlock ⟨1, 1⟩, .addBlock ⟨1, 1⟩, .popBlocks 1]).map
        fun f => (f.versions, windowVotes f)) = some ([1, 1], [2, 1]) := by
  decide

end Monzero.ForkVotes
