import Monzero.ForkVotes
import Monzero.HardForkSchedule

/-!
Runs of the schedule over a chain. The invariant ties the index, the stored versions and
the blocks to the table: the index is that of the chain's height, every stored version is
the one in force at its height, and every block carries the version it was checked
against. Each call keeps it, so the version is a function of the height after any
sequence of calls.
-/
namespace Monzero.HardForkRuns

open HardForks HardFork HardForkSchedule List

/-- A block passes the check at a height: its version is the one in force, and its vote is not
for an earlier one. -/
def Fits (heights : List Fork) (height : ℕ) (b : Header) : Prop :=
  b.majorVersion = versionAt heights height ∧ getBlockVote b ≥ versionAt heights height

/-- The table is unchanged, and what the database holds agrees with it. -/
structure Recorded (heights : List Fork) (originalVersion : UInt8) (f : HardFork) : Prop where
  table : f.heights = heights
  original : f.originalVersion = originalVersion
  stored : ∀ h < f.db.height, f.db.hfVersions h = some (versionAt heights h)
  fits : ∀ h b, f.db.blocks[h]? = some b → Fits heights h b

/-- The index is that of the chain's height, and a chain with blocks has votes. -/
structure Synced (heights : List Fork) (originalVersion : UInt8) (f : HardFork) : Prop extends
    Recorded heights originalVersion f where
  index : f.currentForkIndex = indexAt heights f.db.height
  votes : f.db.blocks ≠ [] → f.versions ≠ []

variable {heights : List Fork} {ver0 : UInt8} {f : HardFork}

theorem matchesEntry_iff (htab : f.heights = heights) (height : ℕ) (b : Header) :
    f.matchesEntry (indexAt heights height) b.majorVersion (getBlockVote b) = true ↔
      Fits heights height b := by
  rw [matchesEntry, decide_eq_true_eq, entry, htab, Fits, versionAt]

theorem check_iff (htab : f.heights = heights) (height : ℕ)
    (hidx : f.currentForkIndex = indexAt heights height) (b : Header) :
    f.check b = true ↔ Fits heights height b := by
  rw [check, doCheck, hidx, matchesEntry_iff htab]

theorem countVotes_eq (f : HardFork) (bs : List Header) : ∃ vers counts,
      f.countVotes bs = { f with versions := vers, lastVersions := counts } ∧
        vers.length = bs.length := by
  obtain ⟨counts, hcnt, -⟩ := ForkVotes.countVotes_eq f bs
  exact ⟨_, counts, hcnt, length_map _⟩

/-- Adding a block that fits its height stores the version in force and moves the index to the
next height. -/
theorem add_eq (h : Voteless heights ver0) (htab : f.heights = heights) (b : Header) (height : ℕ)
    (hidx : f.currentForkIndex = indexAt heights height) (hfits : Fits heights height b) :
    ∃ vers counts, vers ≠ [] ∧ f.add b height = (true, { f with
      db := f.db.setHardForkVersion height (versionAt heights height)
      versions := vers
      lastVersions := counts
      currentForkIndex := indexAt heights (height + 1) }) := by
  have hcheck := (check_iff htab height hidx b).mpr hfits
  have hver : (f.entry f.currentForkIndex).version = versionAt heights height := by
    rw [entry, htab, hidx, versionAt]
  obtain ⟨left, counts, hwin⟩ : ∃ left counts,
      dropOldVotes f.windowSize f.versions f.lastVersions = (left, counts) := ⟨_, _, rfl⟩
  have hle : f.currentForkIndex ≤ indexAt heights (height + 1) :=
    hidx.le.trans (indexAt_mono heights (Nat.le_succ _))
  refine ⟨left ++ [f.getEffectiveVersion (getBlockVote b)],
    Function.update counts (f.getEffectiveVersion (getBlockVote b))
      (counts (f.getEffectiveVersion (getBlockVote b)) + 1), by simp, ?_⟩
  rw [add, if_neg (by rw [hcheck]; decide), hver, hwin]
  dsimp only
  rw [raiseFork_eq h (by exact htab) (Nat.succ_pos _) (by exact hle)]
  rfl

theorem add_blocks (f : HardFork) (b : Header) (height : ℕ) :
    (f.add b height).2.db.blocks = f.db.blocks := by
  unfold add
  split
  · rfl
  · dsimp only [raiseFork]
    split <;> rfl

theorem addAll_spec (h : Voteless heights ver0) (bs : List Header) (n : ℕ)
    (f : HardFork) (htab : f.heights = heights) (hidx : f.currentForkIndex = indexAt heights n)
    (hvotes : f.versions ≠ []) (hfits : ∀ i b, bs[i]? = some b → Fits heights (n + i) b) :
    (f.addAll (bs.zipIdx n)).heights = f.heights ∧
      (f.addAll (bs.zipIdx n)).originalVersion = f.originalVersion ∧
      (f.addAll (bs.zipIdx n)).db.blocks = f.db.blocks ∧
      (f.addAll (bs.zipIdx n)).currentForkIndex = indexAt heights (n + bs.length) ∧
      (f.addAll (bs.zipIdx n)).versions ≠ [] ∧ ∀ k, f.db.hfVersions k = some (versionAt heights k) →
        (f.addAll (bs.zipIdx n)).db.hfVersions k = some (versionAt heights k) := by
  induction bs generalizing n f with
  | nil => exact ⟨rfl, rfl, rfl, hidx, hvotes, fun _ hk => hk⟩
  | cons b rest ih =>
    obtain ⟨vers, counts, hne, hadd⟩ := add_eq h htab b n hidx (hfits 0 b rfl)
    have hstep : f.addAll ((b :: rest).zipIdx n) =
        ((f.add b n).2).addAll (rest.zipIdx (n + 1)) := by
      rw [addAll, zipIdx_cons, foldl_cons]
      rfl
    rw [hstep]
    have hrest : ∀ i c, rest[i]? = some c → Fits heights (n + 1 + i) c := by
      intro i c hc
      have hnext := hfits (i + 1) c (by simpa using hc)
      rwa [show n + (i + 1) = n + 1 + i by omega] at hnext
    obtain ⟨ht, ho, hb, hi, hv, hs⟩ := ih (n + 1) (f.add b n).2
      (by rw [hadd]; exact htab) (by rw [hadd]) (by rw [hadd]; exact hne) hrest
    rw [hadd] at ht ho hb hi hv hs ⊢
    refine ⟨ht, ho, hb, ?_, hv, fun k hk => hs k ?_⟩
    · rw [hi, length_cons, show n + 1 + rest.length = n + (rest.length + 1) by omega]
    · -- The version that is written is the one in force at its height.
      simp only [ForkDb.setHardForkVersion]
      by_cases hkn : k = n
      · rw [hkn, Function.update_self]
      · rw [Function.update_of_ne hkn, hk]

theorem synced_rescan (h : Voteless heights ver0)
    (hf : Recorded heights ver0 f) {height : ℕ} (hlt : height < f.db.height) :
    ∃ f', f.rescanFromBlockHeight height = some (true, f') ∧ Synced heights ver0 f' := by
  have htop := hf.stored (f.db.height - 1) (by omega)
  obtain ⟨vers, counts, hcnt, hlen⟩ := countVotes_eq f (f.db.blocks.drop height)
  have hfind : findVersion (versionAt heights (f.db.height - 1)) f.heights =
      indexAt heights (f.db.height - 1) := by
    rw [hf.table, versionAt]
    exact findVersion_eq h.toIncreasing _ (h.indexAt_lt _)
  rw [rescanFromBlockHeight, if_neg (by omega)]
  simp only [ForkDb.getHardForkVersion, htop, hcnt, hfind]
  rw [raiseFork_eq h (by exact hf.table) (by omega)
    (by exact indexAt_mono heights (Nat.sub_le _ _))]
  refine ⟨_, rfl, ⟨hf.table, hf.original, hf.stored, hf.fits⟩, rfl, fun _ => ?_⟩
  rw [length_drop] at hlen
  refine ne_nil_of_length_pos ?_
  change 0 < vers.length
  unfold ForkDb.height at hlt
  omega

theorem init_empty (hemp : f.db.height = 0) (hne : f.heights ≠ []) :
    f.init = some { f.clearVotes with currentForkIndex := 0 } := by
  rw [init]
  simp only [if_neg hne]
  rw [if_neg (by omega), rescanFromChainHeight, if_neg (by omega), rescanFromBlockHeight,
    if_pos (by change _ ≥ f.db.height; omega)]
  rfl

theorem synced_init (h : Voteless heights ver0) (hf : Recorded heights ver0 f) :
    ∃ f', f.init = some f' ∧ Synced heights ver0 f' := by
  have hne : f.heights ≠ [] := by
    rw [hf.table]
    exact h.nonempty
  have hwin := f.windowSize_pos
  have hcleared : Recorded heights ver0 { f.clearVotes with currentForkIndex := 0 } :=
    ⟨hf.table, hf.original, hf.stored, hf.fits⟩
  by_cases hemp : f.db.height = 0
  · rw [init_empty hemp hne]
    refine ⟨_, rfl, hcleared, ?_, ?_⟩
    · change 0 = indexAt heights f.db.height
      rw [hemp, h.indexAt_zero]
    · intro hblks
      exact absurd (eq_nil_of_length_eq_zero hemp) hblks
  · have hstart : ∀ height, height ≠ 0 → height - 1 < f.db.height →
        ∃ f', (({ f.clearVotes with currentForkIndex := 0 } : HardFork).rescanFromChainHeight
          height).map Prod.snd = some f' ∧ Synced heights ver0 f' := by
      intro height hpos hlt
      obtain ⟨f', hrescan, hsynced⟩ := synced_rescan h hcleared hlt
      refine ⟨f', ?_, hsynced⟩
      rw [rescanFromChainHeight, if_neg hpos, hrescan]
      rfl
    rw [init]
    simp only [if_neg hne]
    by_cases hlong : f.db.height > f.windowSize
    · rw [if_pos hlong]
      exact hstart _ (by omega) (by omega)
    · rw [if_neg hlong]
      exact hstart _ (by omega) (by omega)

theorem drop_zipIdx {α : Type} {l : List α} {n : ℕ} (hn : n ≤ l.length) :
    l.zipIdx.drop n = (l.drop n).zipIdx n := by
  have hsplit : l.zipIdx = (l.take n).zipIdx ++ (l.drop n).zipIdx n := by
    conv_lhs => rw [← take_append_drop n l, zipIdx_append]
    rw [length_take, min_eq_left hn, Nat.zero_add]
  rw [hsplit, drop_left' (by rw [length_zipIdx, length_take, min_eq_left hn])]

theorem synced_reorganize (h : Voteless heights ver0)
    (hf : Synced heights ver0 f) {height : ℕ} (hlt : height < f.db.height) :
    ∃ f', f.reorganizeFromBlockHeight height = some (true, f') ∧ Synced heights ver0 f' := by
  have hstart : (if height = 0 then some f.originalVersion else f.db.getHardForkVersion height) =
      some (versionAt heights height) := by
    by_cases hzero : height = 0
    · rw [if_pos hzero, hzero, versionAt, h.indexAt_zero, h.first_version, hf.original]
    · rw [if_neg hzero]
      exact hf.stored height hlt
  have hlower : f.lowerFork (versionAt heights height) f.currentForkIndex =
      indexAt heights height := by
    rw [hf.index, versionAt]
    exact lowerFork_eq h.toIncreasing hf.table (indexAt_mono heights hlt.le) (h.indexAt_lt _)
  obtain ⟨vers, counts, hcnt, hlen⟩ := countVotes_eq
    { f with currentForkIndex := indexAt heights height }
    ((f.db.blocks.take (height + 1)).drop (height - (f.windowSize - 1)))
  rw [reorganizeFromBlockHeight, if_neg (by omega), hstart]
  simp only [hlower, hcnt]
  rw [raiseFork_eq h (by exact hf.table) (Nat.succ_pos _)
      (by exact indexAt_mono heights (Nat.le_succ _)),
    drop_zipIdx hlt]
  have hvotes : vers ≠ [] := by
    refine ne_nil_of_length_pos ?_
    rw [length_drop, length_take] at hlen
    unfold ForkDb.height at hlt
    have hwin := f.windowSize_pos
    omega
  obtain ⟨ht, ho, hb, hi, hv, hs⟩ := addAll_spec h (f.db.blocks.drop (height + 1)) (height + 1)
    { f with
      currentForkIndex := indexAt heights (height + 1)
      versions := vers
      lastVersions := counts }
    hf.table rfl hvotes (fun i b hb => hf.fits _ b (by rwa [getElem?_drop] at hb))
  have hht : ∀ g : HardFork, g.db.blocks = f.db.blocks → g.db.height = f.db.height := by
    intro g hg
    rw [ForkDb.height, hg, ForkDb.height]
  refine ⟨_, rfl, ⟨ht.trans hf.table, ho.trans hf.original, ?_, ?_⟩, ?_, fun _ => hv⟩
  · intro k hk
    rw [hht _ hb] at hk
    exact hs k (hf.stored k hk)
  · intro k b hk
    rw [hb] at hk
    exact hf.fits k b hk
  · rw [hi, hht _ hb, length_drop]
    unfold ForkDb.height at hlt ⊢
    rw [show height + 1 + (f.db.blocks.length - (height + 1)) = f.db.blocks.length by omega]

theorem popVotes_eq (newHeight k : ℕ) (f : HardFork) (hvotes : f.versions ≠ [])
    (hst : ∀ j < k, (f.db.hfVersions (newHeight + j)).isSome = true) : ∃ vers counts, vers ≠ [] ∧
      popVotes newHeight k f = some { f with versions := vers, lastVersions := counts } := by
  induction k generalizing f with
  | zero => exact ⟨f.versions, f.lastVersions, hvotes, rfl⟩
  | succ k ih =>
    obtain ⟨ver, hver⟩ := Option.isSome_iff_exists.mp (hst k (Nat.lt_succ_self k))
    have hlast := getLast?_eq_some_getLast hvotes
    rw [popVotes]
    simp only [hlast, ForkDb.getHardForkVersion, hver]
    obtain ⟨vers, counts, hne, hpop⟩ := ih { f with
        versions := ver :: f.versions.dropLast
        lastVersions := Function.update (Function.update f.lastVersions (f.versions.getLast hvotes)
          (f.lastVersions (f.versions.getLast hvotes) - 1)) ver
          (Function.update f.lastVersions (f.versions.getLast hvotes)
            (f.lastVersions (f.versions.getLast hvotes) - 1) ver + 1) }
      (cons_ne_nil _ _) (fun j hj => hst j (by omega))
    exact ⟨vers, counts, hne, hpop⟩

theorem synced_addBlock (h : Voteless heights ver0)
    (hf : Synced heights ver0 f) {b : Header} (hcheck : f.check b = true) : Synced heights ver0
      (add { f with db := { f.db with blocks := f.db.blocks ++ [b] } } b f.db.height).2 := by
  have hfits := (check_iff hf.table _ hf.index b).mp hcheck
  obtain ⟨vers, counts, hne, hadd⟩ := add_eq (f := { f with
    db := { f.db with blocks := f.db.blocks ++ [b] } }) h hf.table b f.db.height hf.index hfits
  have hht : (f.db.blocks ++ [b]).length = f.db.height + 1 := by
    rw [length_append, length_singleton, ForkDb.height]
  rw [hadd]
  refine ⟨⟨hf.table, hf.original, ?_, ?_⟩, ?_, fun _ => hne⟩
  · intro k hk
    change k < (f.db.blocks ++ [b]).length at hk
    simp only [ForkDb.setHardForkVersion]
    by_cases hkn : k = f.db.height
    · rw [hkn, Function.update_self]
    · rw [Function.update_of_ne hkn]
      exact hf.stored k (by omega)
  · intro k c hk
    change (f.db.blocks ++ [b])[k]? = some c at hk
    have hlt := (List.getElem?_eq_some_iff.mp hk).1
    by_cases hkn : k = f.db.height
    · rw [hkn, ForkDb.height, getElem?_concat_length, Option.some.injEq] at hk
      rw [hkn, ← hk]
      exact hfits
    · refine hf.fits k c ?_
      rwa [getElem?_append_left (by unfold ForkDb.height at hkn hht; omega)] at hk
  · change indexAt heights (f.db.height + 1) = indexAt heights (f.db.blocks ++ [b]).length
    rw [hht]

theorem synced_popBlocks (h : Voteless heights ver0) (hf : Synced heights ver0 f) (nb : ℕ)
    (hpos : nb ≠ 0) (hlt : nb < f.db.height) : ∃ f', onBlockPopped { f with
        db := { f.db with blocks := f.db.blocks.take (f.db.height - nb) } } nb =
      some f' ∧ Synced heights ver0 f' := by
  have hht : (f.db.blocks.take (f.db.height - nb)).length = f.db.height - nb := by
    rw [length_take]
    unfold ForkDb.height
    omega
  have hvotes : f.versions ≠ [] := by
    refine hf.votes fun hnil => ?_
    simp [ForkDb.height, hnil] at hlt
  obtain ⟨vers, counts, hne, hpop⟩ := popVotes_eq (f.db.height - nb) nb
    { f with db := { f.db with blocks := f.db.blocks.take (f.db.height - nb) } } hvotes
    (fun j hj => by rw [hf.stored _ (by omega)]; rfl)
  rw [onBlockPopped, if_neg hpos]
  simp only [ForkDb.height] at hht hpop ⊢
  rw [hht, hpop]
  refine ⟨_, rfl, ⟨hf.table, hf.original, ?_, ?_⟩, ?_, fun _ => hne⟩
  · intro k hk
    exact hf.stored k (lt_of_lt_of_le hk (length_take_le' _ _))
  · intro k c hk
    change (f.db.blocks.take _)[k]? = some c at hk
    rw [getElem?_take] at hk
    split at hk
    · exact hf.fits k c hk
    · cases hk
  · dsimp only
    exact reachedIndex_last h (by exact hf.table)

theorem synced_perform (h : Voteless heights ver0) (hf : Synced heights ver0 f) (call : ForkCall) :
    ∃ f', perform f call = some f' ∧ Synced heights ver0 f' := by
  cases call with
  | init => exact synced_init h hf.toRecorded
  | addBlock b =>
    rw [perform]
    by_cases hcheck : f.check b = true
    · rw [if_pos hcheck]
      exact ⟨_, rfl, synced_addBlock h hf hcheck⟩
    · rw [if_neg hcheck]
      exact ⟨f, rfl, hf⟩
  | popBlocks nb =>
    rw [perform]
    by_cases href : nb = 0 ∨ nb ≥ f.db.height
    · rw [if_pos href]
      exact ⟨f, rfl, hf⟩
    · rw [if_neg href]
      exact synced_popBlocks h hf nb (by omega) (by omega)
  | reorganizeFromBlockHeight height =>
    rw [perform]
    by_cases hlt : height < f.db.height
    · obtain ⟨f', hcall, hsynced⟩ := synced_reorganize h hf hlt
      exact ⟨f', by rw [hcall]; rfl, hsynced⟩
    · rw [reorganizeFromBlockHeight, if_pos (by omega)]
      exact ⟨f, rfl, hf⟩
  | rescanFromBlockHeight height =>
    rw [perform]
    by_cases hlt : height < f.db.height
    · obtain ⟨f', hcall, hsynced⟩ := synced_rescan h hf.toRecorded hlt
      exact ⟨f', by rw [hcall]; rfl, hsynced⟩
    · rw [rescanFromBlockHeight, if_pos (by omega)]
      exact ⟨f, rfl, hf⟩

theorem synced_performAll (h : Voteless heights ver0)
    (hf : Synced heights ver0 f) (calls : List ForkCall) :
    ∃ f', performAll f calls = some f' ∧ Synced heights ver0 f' := by
  induction calls generalizing f with
  | nil => exact ⟨f, rfl, hf⟩
  | cons call rest ih =>
    obtain ⟨next, hcall, hnext⟩ := synced_perform h hf call
    obtain ⟨f', hrest, hsynced⟩ := ih hnext
    refine ⟨f', ?_, hsynced⟩
    rw [performAll, hcall]
    exact hrest

/-- A schedule over an empty chain with a table without votes. -/
structure Fresh (f : HardFork) (entries : List Fork) : Prop where
  noTable : f.heights = []
  noBlocks : f.db.blocks = []
  nonempty : (f.addForks entries).heights ≠ []
  thresholds : ∀ e ∈ (f.addForks entries).heights, e.threshold = 0
  first : ∀ e ∈ (f.addForks entries).heights.head?,
    e.height ≤ 1 ∧ e.version = f.originalVersion

theorem addForks_frame (f : HardFork) (es : List Fork) :
    (f.addForks es).db = f.db ∧ (f.addForks es).originalVersion = f.originalVersion := by
  refine List.foldlRecOn (motive := fun g : HardFork =>
    g.db = f.db ∧ g.originalVersion = f.originalVersion) _ _ ⟨rfl, rfl⟩ ?_
  intro g hg e _
  unfold addFork
  split
  · exact hg
  · split
    · exact hg
    · split <;> exact hg

theorem Fresh.voteless {es : List Fork} (h : Fresh f es) :
    Voteless (f.addForks es).heights f.originalVersion :=
  ⟨increasing_addForks es h.noTable, h.nonempty, h.thresholds, h.first⟩

theorem Fresh.synced {es : List Fork} (h : Fresh f es) (calls : List ForkCall) :
    ∃ r, performAll (f.addForks es) (.init :: calls) = some r ∧
      Synced (f.addForks es).heights f.originalVersion r := by
  obtain ⟨hdb, horiginal⟩ := addForks_frame f es
  have hrecorded : Recorded (f.addForks es).heights f.originalVersion (f.addForks es) := by
    refine ⟨rfl, horiginal, fun k hk => ?_, fun k b hk => ?_⟩
    · rw [ForkDb.height, hdb, h.noBlocks] at hk
      exact absurd hk (Nat.not_lt_zero k)
    · rw [hdb, h.noBlocks] at hk
      cases hk
  obtain ⟨first, hinit, hfst⟩ := synced_init h.voteless hrecorded
  obtain ⟨r, hrun, hsynced⟩ := synced_performAll h.voteless hfst calls
  refine ⟨r, ?_, hsynced⟩
  rw [performAll, perform, hinit]
  exact hrun

theorem exists_fits (h : Voteless heights ver0) (height : ℕ) : ∃ b, Fits heights height b := by
  have hpos : versionAt heights height ≠ 0 := by
    rw [versionAt, getD_eq_getElem _ _ (h.indexAt_lt height)]
    exact h.positive _ (getElem_mem _)
  refine ⟨⟨versionAt heights height, versionAt heights height⟩, rfl, ?_⟩
  rw [getBlockVote, if_neg hpos]
  exact UInt8.le_refl _

theorem performAll_append (f : HardFork) (calls more : List ForkCall) :
    performAll f (calls ++ more) = (performAll f calls).bind fun g => performAll g more := by
  induction calls generalizing f with
  | nil => rfl
  | cons call rest ih =>
    rw [cons_append, performAll, performAll, Option.bind_assoc]
    exact congrArg _ (funext ih)

theorem perform_addBlock {b : Header} (hcheck : f.check b = true) :
    ∃ f', perform f (.addBlock b) = some f' ∧ f'.db.height = f.db.height + 1 := by
  rw [perform, if_pos hcheck]
  refine ⟨_, rfl, ?_⟩
  rw [ForkDb.height, add_blocks, length_append]
  rfl

theorem Fresh.reaches {es : List Fork} (h : Fresh f es) (height : ℕ) :
    ∃ calls r, performAll (f.addForks es) (.init :: calls) = some r ∧ r.db.height = height := by
  induction height with
  | zero =>
    have hemp : (f.addForks es).db.height = 0 := by
      rw [ForkDb.height, (addForks_frame f es).1, h.noBlocks]
      rfl
    refine ⟨[], { (f.addForks es).clearVotes with currentForkIndex := 0 }, ?_, hemp⟩
    rw [performAll, perform, init_empty hemp h.nonempty]
    rfl
  | succ height ih =>
    obtain ⟨calls, r, hrun, hht⟩ := ih
    obtain ⟨r', hrun', hsynced⟩ := h.synced calls
    obtain rfl := Option.some.inj (hrun.symm.trans hrun')
    obtain ⟨b, hfits⟩ := exists_fits h.voteless r.db.height
    obtain ⟨next, hnext, hlen⟩ :=
      perform_addBlock ((check_iff hsynced.table _ hsynced.index b).mpr hfits)
    refine ⟨calls ++ [.addBlock b], next, ?_, hlen.trans (by rw [hht])⟩
    rw [← cons_append, performAll_append, hrun, Option.bind_some, performAll, hnext]
    rfl

/-- The version in force is a function of the height of the chain. -/
theorem current_version_of_height (f : HardFork) (entries : List Fork) (hfresh : Fresh f entries)
    (calls : List ForkCall) :
    ∃ r, performAll (f.addForks entries) (.init :: calls) = some r ∧
      (0 < r.db.height →
        (r.heights.filter fun e => e.height ≤ r.db.height).getLast?.map Fork.version =
            some r.getCurrentVersion ∧
          r.getCurrentVersion = r.getIdealVersion r.db.height ∧
          ∀ h, 0 < h →
            (∃ others r', performAll (f.addForks entries) (.init :: others) = some r' ∧
              r'.db.height = h) ∧
            ∀ others r', performAll (f.addForks entries) (.init :: others) = some r' →
              r'.db.height = h → ∀ b, r.checkForHeight b h = r'.check b) := by
  obtain ⟨r, hrun, hr⟩ := hfresh.synced calls
  have hcurrent : r.getCurrentVersion = versionAt (f.addForks entries).heights r.db.height := by
    rw [getCurrentVersion, entry, hr.table, hr.index, versionAt]
  refine ⟨r, hrun, fun hpos => ⟨?_, ?_, fun h hh => ⟨hfresh.reaches h, ?_⟩⟩⟩
  · rw [hr.table, hfresh.voteless.last_reached hpos, hcurrent]
  · rw [hcurrent, getIdealVersion_eq hfresh.voteless hr.table hr.original]
  · intro others r' hrun' hheight b
    obtain ⟨r'', hrun'', hr'⟩ := hfresh.synced others
    obtain rfl := Option.some.inj (hrun'.symm.trans hrun'')
    have hcheck := check_iff hr'.table h (by rw [hr'.index, hheight]) b
    rw [checkForHeight, getVotedForkIndex_eq hfresh.voteless hr.table hh, Bool.eq_iff_iff,
      matchesEntry_iff hr.table, hcheck]

/-- The table of the network, with every call of a run. -/
theorem current_version_mainnet :
    (performAll ((newHardFork ⟨[], fun _ => none⟩ 10080 (by decide) 1).addForks mainnetHardForks)
      [.init, .addBlock ⟨1, 0⟩, .addBlock ⟨1, 2⟩, .addBlock ⟨2, 2⟩, .popBlocks 1, .addBlock ⟨2, 3⟩,
        .reorganizeFromBlockHeight 1, .rescanFromBlockHeight 0]).map
      (fun r => (r.db.height, r.getIdealVersion r.db.height, r.getCurrentVersion)) =
        some (3, 3, 3) := by
  have hfresh : Fresh (newHardFork ⟨[], fun _ => none⟩ 10080 (by decide) 1) mainnetHardForks :=
    ⟨rfl, rfl, by decide, by decide, by decide⟩
  obtain ⟨r, hrun, hr⟩ := current_version_of_height _ _ hfresh
    [.addBlock ⟨1, 0⟩, .addBlock ⟨1, 2⟩, .addBlock ⟨2, 2⟩, .popBlocks 1, .addBlock ⟨2, 3⟩,
      .reorganizeFromBlockHeight 1, .rescanFromBlockHeight 0]
  have hevaluated : (performAll ((newHardFork ⟨[], fun _ => none⟩ 10080 (by decide) 1).addForks
      mainnetHardForks) [.init, .addBlock ⟨1, 0⟩, .addBlock ⟨1, 2⟩, .addBlock ⟨2, 2⟩, .popBlocks 1,
        .addBlock ⟨2, 3⟩, .reorganizeFromBlockHeight 1, .rescanFromBlockHeight 0]).map
      (fun r => (r.db.height, r.getIdealVersion r.db.height)) = some (3, 3) := by decide
  rw [hrun, Option.map_some, Option.some.injEq, Prod.mk.injEq] at hevaluated
  have hcurrent := (hr (by omega)).2.1
  rw [hrun, Option.map_some, hcurrent, hevaluated.2, hevaluated.1]

end Monzero.HardForkRuns
