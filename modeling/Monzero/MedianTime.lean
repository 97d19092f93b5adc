import Monzero.AlternativeWork

/-!
The median time of alternative blocks. `build_alt_chain` hands over the timestamps of
all alternative blocks and completes them to sixty from the main chain, without the
genesis block; the main chain takes the last sixty blocks and asks for no median before
there are that many. The two tests agree exactly when the two medians do, and they do from
sixty-one blocks on, as long as at most sixty of them are alternative blocks.
-/
namespace Monzero.MedianTime

open Primitives Difficulty AlternativeChains AlternativeWork ChainDb Median List

theorem timestampsDown_eq (main : List ChainRow) (top n : ℕ) (hn : n ≤ top)
    (htop : top < main.length) : timestampsDown main top n =
      (((main.take (top + 1)).drop (top + 1 - n)).map fun r => r.header.timestamp).reverse := by
  induction n generalizing top with
  | zero => simp [timestampsDown]
  | succ n ih =>
    have hlast : (main.take (top + 1)).drop (top + 1 - (n + 1)) =
        (main.take top).drop (top - n) ++ [main[top]] := by
      rw [take_succ_eq_append_getElem htop, drop_append_of_le_length
        (by rw [length_take]; omega), show top + 1 - (n + 1) = top - n by omega]
    rw [timestampsDown, ih (top - 1) (by omega) (by omega), hlast,
      show top - 1 + 1 = top by omega, getElem?_eq_getElem htop]
    simp

variable {db : ChainDb} {P : ℕ} {fork : Hash} {alt : List AltEntry}

theorem completeTimestampsVector_eq {ts : List ℕ}
    (hmany : timestampCheckWindow ≤ P + ts.length) (hP : P < db.main.length) :
    completeTimestampsVector db P ts =
      ts ++ timestampsDown db.main P (timestampCheckWindow - ts.length) := by
  rw [completeTimestampsVector]
  by_cases hfull : ts.length ≥ timestampCheckWindow
  · rw [if_pos hfull, Nat.sub_eq_zero_of_le hfull, timestampsDown, append_nil]
  · rw [if_neg hfull, if_neg (by omega)]
    dsimp only
    congr 2
    split <;> omega

/-- The timestamps of an alternative chain and those of the last sixty blocks of the spliced chain
are the same, in reverse. -/
theorem timestamps_spliced (hP : P < db.main.length) (hfew : alt.length ≤ timestampCheckWindow)
    (hmany : timestampCheckWindow + 1 ≤ P + 1 + alt.length) :
    completeTimestampsVector db P (alt.map fun e => e.header.timestamp).reverse =
      (((spliced db P alt).drop ((spliced db P alt).length - timestampCheckWindow)).map
        fun r => r.header.timestamp).reverse := by
  have hdrop : (spliced db P alt).drop ((spliced db P alt).length - timestampCheckWindow) =
      (db.main.take (P + 1)).drop (P + 1 - (timestampCheckWindow - alt.length)) ++
        alt.map AltEntry.row := by
    rw [length_spliced hP, show P + 1 + alt.length - timestampCheckWindow =
      P + 1 - (timestampCheckWindow - alt.length) by omega, spliced,
      drop_append_of_le_length (by rw [length_take]; omega)]
  rw [completeTimestampsVector_eq (by simp; omega) hP, hdrop,
    length_reverse, length_map, timestampsDown_eq _ _ _ (by omega) hP, map_append,
    reverse_append, map_map]
  rfl

/-- The least timestamp that the main chain accepts next: the median of its last sixty blocks, and
zero before there are that many. -/
def requiredTime (main : List ChainRow) : ℕ :=
  if main.length < timestampCheckWindow then 0
  else median ((main.drop (main.length - timestampCheckWindow)).map fun r => r.header.timestamp)

theorem checkBlockTimestamp_iff (main : List ChainRow) (b : Header) :
    checkBlockTimestamp main b = true ↔ requiredTime main ≤ b.timestamp := by
  unfold checkBlockTimestamp requiredTime
  split
  · simp
  · simp [checkTimestampAgainst]

theorem checkTimestampAgainst_iff (timestamps : List ℕ) (b : Header) :
    checkTimestampAgainst timestamps b = true ↔ median timestamps ≤ b.timestamp := by
  simp [checkTimestampAgainst]

/-- The two tests accept the same timestamps exactly if they have one least timestamp. -/
theorem tests_agree_iff (timestamps : List ℕ) (main : List ChainRow) :
    (∀ b, checkTimestampAgainst timestamps b = checkBlockTimestamp main b) ↔
      median timestamps = requiredTime main := by
  have hsame : ∀ b, checkTimestampAgainst timestamps b = checkBlockTimestamp main b ↔
      (median timestamps ≤ b.timestamp ↔ requiredTime main ≤ b.timestamp) := by
    intro b
    rw [Bool.eq_iff_iff, checkBlockTimestamp_iff, checkTimestampAgainst_iff]
  simp only [hsame]
  constructor
  · intro h
    apply le_antisymm
    · exact (h ⟨0, requiredTime main, nullHash⟩).mpr le_rfl
    · exact (h ⟨0, median timestamps, nullHash⟩).mp le_rfl
  · intro h b
    rw [h]

/-- Long enough chains with few alternative blocks, and the genesis block alone. -/
def SameWindow (P : ℕ) (alt : List AltEntry) : Prop :=
  (61 ≤ P + 1 + alt.length ∧ alt.length ≤ 60) ∨ (P = 0 ∧ alt = [])

theorem median_same_window (hP : P < db.main.length) (h : SameWindow P alt) :
    median (completeTimestampsVector db P (alt.map fun e => e.header.timestamp).reverse) =
      requiredTime (spliced db P alt) := by
  rw [requiredTime, length_spliced hP]
  rcases h with ⟨hmany, hfew⟩ | ⟨rfl, rfl⟩
  · have hlong : ¬ P + 1 + alt.length < timestampCheckWindow := by
      unfold timestampCheckWindow
      omega
    rw [if_neg hlong, timestamps_spliced hP hfew hmany, median_perm (reverse_perm _),
      length_spliced hP]
  · -- the genesis block is not used, so there is no timestamp at all
    rw [if_pos (by decide), completeTimestampsVector, if_neg (by decide), if_neg (by omega)]
    rfl

/-- A main chain with timestamps two minutes apart. -/
def steadyChain (length : ℕ) : List ChainRow :=
  (List.range length).map fun n =>
    ⟨.fill (UInt8.ofNat (n + 1)), ⟨1, 120 * n, .fill (UInt8.ofNat n)⟩, n⟩

/-- Alternative blocks on the block of a height, two minutes apart. -/
def steadyAlts (P length : ℕ) : List AltEntry :=
  (List.range length).map fun n =>
    ⟨.fill (UInt8.ofNat (n + 101)), P + 1 + n, P + 1 + n, 0, ⟨1, 120 * (P + 1 + n),
      .fill (if n = 0 then UInt8.ofNat (P + 1) else UInt8.ofNat (n + 100))⟩⟩

/-- Sixty blocks of the main chain with two alternative blocks on top of them. -/
def forkedDb : ChainDb := ⟨steadyChain 62, steadyAlts 59 2⟩

end Monzero.MedianTime
