import Monzero.SpanIndex
import Mathlib.Order.Bounds.Basic
import Mathlib.Algebra.Ring.Nat
import Mathlib.Tactic.Ring

/-!
Which height comes next, for a node that synchronises: the first one that no span of the queue
covers, the first one whose block a pruned node has kept, and the first one whose block it has
dropped. A pruned node keeps one stripe of each cycle and the blocks at the tip. Each search
is a closed formula or one pass; what it should find is the least height of a set.
-/
namespace Monzero.SyncHeights

open Checked BlockQueues SpanIndex List
open Nat (mod_eq_of_lt mod_lt pow_le_pow_right)
open UInt32 (toNat_toUInt64)
open UInt64 (le_iff_toNat_le lt_iff_toNat_lt toNat_add toNat_one)

/-! ### The first gap in the queue -/

variable {β : Type}

/-- The loop of `get_next_needed_height`. -/
def neededFrom (blockchainHeight : UInt64) : List (Span β) → UInt64 → UInt64
  | [], coveredUntil => coveredUntil
  | span :: rest, coveredUntil =>
      let spanEnd := span.startBlockHeight + span.nblocks - 1
      if spanEnd < blockchainHeight then neededFrom blockchainHeight rest coveredUntil
      else if span.startBlockHeight > coveredUntil then coveredUntil
      else
        neededFrom blockchainHeight rest (max coveredUntil (span.startBlockHeight + span.nblocks))

def getNextNeededHeight (q : BlockQueue β) (blockchainHeight : UInt64) : UInt64 :=
  if q.blocks.elems.isEmpty then blockchainHeight
  else neededFrom blockchainHeight q.blocks.elems blockchainHeight

def Covers (span : Span β) (h : ℕ) : Prop :=
  span.startBlockHeight.toNat ≤ h ∧ h < span.startBlockHeight.toNat + span.nblocks.toNat

/-- A span with a block whose end is a 64-bit height. -/
def Fits (span : Span β) : Prop :=
  0 < span.nblocks.toNat ∧ span.startBlockHeight.toNat + span.nblocks.toNat < 2 ^ 64

/-- The pass goes up from `coveredUntil` through covered heights to one that no span ahead
covers. Spans that end below the chain are skipped; they cover nothing from there on. -/
theorem neededFrom_spec {H : UInt64} {spans : List (Span β)} (coveredUntil : UInt64)
    (hsort : spans.Pairwise fun a b => a.key < b.key) (hfits : ∀ span ∈ spans, Fits span)
    (hH : H.toNat ≤ coveredUntil.toNat) :
    coveredUntil.toNat ≤ (neededFrom H spans coveredUntil).toNat ∧
      (∀ h, coveredUntil.toNat ≤ h → h < (neededFrom H spans coveredUntil).toNat →
        ∃ span ∈ spans, Covers span h) ∧
      ∀ span ∈ spans, ¬Covers span (neededFrom H spans coveredUntil).toNat := by
  induction spans generalizing coveredUntil with
  | nil => exact ⟨le_refl _, fun h hle hlt => absurd hlt (Nat.not_lt.mpr hle), by simp⟩
  | cons span rest ih =>
    obtain ⟨hfst, hrest⟩ := pairwise_cons.mp hsort
    obtain ⟨⟨hpos, hend⟩, hfits⟩ := forall_mem_cons.mp hfits
    have htop : (span.startBlockHeight + span.nblocks).toNat =
        span.startBlockHeight.toNat + span.nblocks.toNat :=
      (toNat_add ..).trans (mod_eq_of_lt hend)
    have hlast : (span.startBlockHeight + span.nblocks - 1).toNat =
        span.startBlockHeight.toNat + span.nblocks.toNat - 1 := by
      rw [UInt64.toNat_sub_of_le, htop, toNat_one]
      rw [le_iff_toNat_le, htop, toNat_one]
      omega
    rw [neededFrom]
    split
    case isTrue hbelow =>
      rw [lt_iff_toNat_lt, hlast] at hbelow
      obtain ⟨hup, hcovered, hfree⟩ := ih coveredUntil hrest hfits hH
      refine ⟨hup, fun h hle hlt => ?_, forall_mem_cons.mpr ⟨?_, hfree⟩⟩
      · obtain ⟨other, hmem, hcovers⟩ := hcovered h hle hlt
        exact ⟨other, mem_cons_of_mem _ hmem, hcovers⟩
      · rintro ⟨-, hlt⟩
        omega
    case isFalse hbelow =>
      split
      case isTrue hgap =>
        rw [gt_iff_lt, lt_iff_toNat_lt] at hgap
        refine ⟨le_refl _, fun h hle hlt => absurd hlt (Nat.not_lt.mpr hle), ?_⟩
        -- the spans are sorted, so all of them start above the gap
        rintro other hmem ⟨hle, -⟩
        rcases mem_cons.mp hmem with rfl | hmem
        · omega
        · have hlater := hfst other hmem
          rw [Span.key, Span.key] at hlater
          omega
      case isFalse hgap =>
        rw [gt_iff_lt, lt_iff_toNat_lt] at hgap
        have hmax : (max coveredUntil (span.startBlockHeight + span.nblocks)).toNat =
            max coveredUntil.toNat (span.startBlockHeight.toNat + span.nblocks.toNat) := by
          rw [← htop]
          exact (UInt64.toNat_max ..)
        obtain ⟨hup, hcovered, hfree⟩ :=
          ih (max coveredUntil (span.startBlockHeight + span.nblocks)) hrest hfits (by omega)
        rw [hmax] at hup hcovered
        refine ⟨by omega, fun h hle hlt => ?_, forall_mem_cons.mpr ⟨?_, hfree⟩⟩
        · by_cases hhere : h < span.startBlockHeight.toNat + span.nblocks.toNat
          · exact ⟨span, mem_cons_self, by omega, hhere⟩
          · obtain ⟨other, hmem, hcovers⟩ := hcovered h (by omega) hlt
            exact ⟨other, mem_cons_of_mem _ hmem, hcovers⟩
        · rintro ⟨-, hlt⟩
          omega

/-- The next needed height is the least one, from the chain's height on, that no span covers. -/
theorem next_needed_isLeast (q : BlockQueue β) (blockchainHeight : UInt64)
    (hfits : ∀ span ∈ q.blocks.elems, Fits span) :
    IsLeast {h | blockchainHeight.toNat ≤ h ∧ ∀ span ∈ q.blocks.elems, ¬Covers span h}
      (getNextNeededHeight q blockchainHeight).toNat := by
  have hpass : getNextNeededHeight q blockchainHeight =
      neededFrom blockchainHeight q.blocks.elems blockchainHeight := by
    rw [getNextNeededHeight]
    split
    case isTrue hempty => rw [isEmpty_iff.mp hempty, neededFrom]
    case isFalse => rfl
  obtain ⟨hup, hcovered, hfree⟩ :=
    neededFrom_spec blockchainHeight q.blocks.sorted hfits (le_refl _)
  rw [hpass]
  refine ⟨⟨hup, hfree⟩, ?_⟩
  rintro h ⟨hle, hh⟩
  by_contra hlt
  obtain ⟨span, hmem, hcovers⟩ := hcovered h hle (Nat.lt_of_not_le hlt)
  exact hh span hmem hcovers

/-- A span inside another one and a gap behind them. -/
def gappedQueue : BlockQueue Unit :=
  ((BlockQueue.empty.insertSpan (.scheduled 2 6 (.fill 1))).insertSpan
    (.scheduled 3 2 (.fill 2))).insertSpan (.scheduled 9 1 (.fill 1))

theorem next_needed_isLeast_gapped :
    getNextNeededHeight gappedQueue 4 = 8 ∧
      IsLeast {h | 4 ≤ h ∧ ∀ span ∈ gappedQueue.blocks.elems, ¬Covers span h} 8 := by
  have hfits : ∀ span ∈ gappedQueue.blocks.elems, Fits span := by
    simp only [Fits]
    decide
  exact ⟨by decide, next_needed_isLeast gappedQueue 4 hfits⟩

/-! ### Pruning seeds -/

def makePruningSeed (stripe logStripes : UInt32) : Except String UInt32 := do
  Checked.failIf (¬logStripes ≤ 0x7) "log_stripes out of range"
  Checked.failIf (¬(stripe > 0 ∧ stripe.toUInt64 ≤ 1 <<< logStripes.toUInt64)) "stripe out of range"
  return (logStripes <<< 7) ||| ((stripe - 1) <<< 0)

def getNextPrunedBlockHeight (blockHeight blockchainHeight : UInt64) (pruningSeed : UInt32) :
    Except String UInt64 := do
  let stripe := getPruningStripe pruningSeed
  let seedLogStripes := getPruningLogStripes pruningSeed
  let logStripes := if seedLogStripes = 0 then pruningLogStripes else seedLogStripes
  let mask : UInt64 := (1 <<< logStripes.toUInt64) - 1
  let blockPruningSeed := stripeOf blockHeight logStripes
  if stripe = 0 then return blockchainHeight
  else if blockHeight + pruningTipBlocks ≥ blockchainHeight then return blockchainHeight
  else if blockPruningSeed ≠ stripe then return blockHeight
  else
    let nextStripe := (1 + (blockPruningSeed.toUInt64 &&& mask)).toUInt32
    let seed ← makePruningSeed nextStripe logStripes
    return getNextUnprunedBlockHeight blockHeight blockchainHeight seed

/-- The end of the heights that `find_blockchain_supplement` offers from the split point on;
`none` when it has only a pruned version of that block. -/
def supplementStop (clipPruned : Bool) (startHeight currentHeight : UInt64) (pruningSeed : UInt32) :
    Except String (Option UInt64) := do
  if clipPruned then
    if startHeight < getNextUnprunedBlockHeight startHeight currentHeight pruningSeed then
      return none
    else
      let stopHeight ← getNextPrunedBlockHeight startHeight currentHeight pruningSeed
      return some stopHeight
  else return some currentHeight

structure Keeps (seed l : UInt32) (t : ℕ) : Prop where
  log : getPruningLogStripes seed = l
  stripe : (getPruningStripe seed).toNat = t + 1
  some_stripes : 1 ≤ l.toNat
  few_stripes : l.toNat ≤ 7
  lt : t < 2 ^ l.toNat

variable {l : UInt32} {N t q b : ℕ} {h : UInt64}

theorem toNat_one_shiftLeft (hl : l.toNat ≤ 7) :
    ((1 : UInt64) <<< l.toUInt64).toNat = 2 ^ l.toNat := by
  have hpow : 2 ^ l.toNat ≤ 2 ^ 7 := pow_le_pow_right (by omega) hl
  rw [UInt64.toNat_shiftLeft, toNat_toUInt64, mod_eq_of_lt (by omega : l.toNat < 64),
    Nat.shiftLeft_eq, toNat_one, Nat.one_mul, mod_eq_of_lt (by omega)]

theorem toNat_mask (hl : l.toNat ≤ 7) :
    ((1 : UInt64) <<< l.toUInt64 - 1).toNat = 2 ^ l.toNat - 1 := by
  rw [UInt64.toNat_sub_of_le, toNat_one_shiftLeft hl, toNat_one]
  rw [le_iff_toNat_le, toNat_one_shiftLeft hl]
  exact Nat.two_pow_pos _

theorem toNat_stripeOf (h : UInt64) (hl : l.toNat ≤ 7) :
    (stripeOf h l).toNat = h.toNat / 4096 % 2 ^ l.toNat + 1 := by
  have hpow : 2 ^ l.toNat ≤ 2 ^ 7 := pow_le_pow_right (by omega) hl
  have hlt := mod_lt (h.toNat / 4096) (Nat.two_pow_pos l.toNat)
  rw [stripeOf, UInt64.toNat_toUInt32, toNat_add, UInt64.toNat_and, toNat_mask hl,
    toNat_one, Nat.and_two_pow_sub_one_eq_mod, UInt64.toNat_div, pruningStripeSize]
  change (h.toNat / 4096 % 2 ^ l.toNat + 1) % 2 ^ 64 % 2 ^ 32 = _
  omega

theorem makePruningSeed_keeps {s : UInt32} (hl : 1 ≤ l.toNat) (hl' : l.toNat ≤ 7)
    (hs : 1 ≤ s.toNat) (hs' : s.toNat ≤ 2 ^ l.toNat) :
    ∃ seed, makePruningSeed s l = .ok seed ∧ Keeps seed l (s.toNat - 1) := by
  have hpow : 2 ^ l.toNat ≤ 2 ^ 7 := pow_le_pow_right (by omega) hl'
  have hle : s.toUInt64 ≤ 1 <<< l.toUInt64 := by
    rw [le_iff_toNat_le, toNat_one_shiftLeft hl', toNat_toUInt64]
    exact hs'
  have hsub : (s - 1).toNat = s.toNat - 1 :=
    UInt32.toNat_sub_of_le _ _ (UInt32.le_iff_toNat_le.mpr hs)
  have hseed : ((l <<< 7) ||| ((s - 1) <<< 0)).toNat = l.toNat * 2 ^ 7 + (s.toNat - 1) := by
    rw [UInt32.toNat_or, UInt32.toNat_shiftLeft, UInt32.toNat_shiftLeft, hsub]
    change (l.toNat <<< 7 % 2 ^ 32) ||| ((s.toNat - 1) <<< 0 % 2 ^ 32) = _
    rw [Nat.shiftLeft_zero, mod_eq_of_lt (by rw [Nat.shiftLeft_eq]; omega),
      mod_eq_of_lt (by omega), ← Nat.shiftLeft_add_eq_or_of_lt (by omega), Nat.shiftLeft_eq]
  refine ⟨(l <<< 7) ||| ((s - 1) <<< 0), ?_, ?_, ?_, hl, hl', by omega⟩
  · rw [makePruningSeed, Checked.failIf_of_not _ (not_not.mpr (UInt32.le_iff_toNat_le.mpr hl')),
      Checked.failIf_of_not _ (not_not.mpr ⟨UInt32.lt_iff_toNat_lt.mpr hs, hle⟩)]
    rfl
  · rw [← UInt32.toNat_inj, getPruningLogStripes, UInt32.toNat_and, UInt32.toNat_shiftRight, hseed]
    change (l.toNat * 2 ^ 7 + (s.toNat - 1)) >>> 7 &&& (2 ^ 3 - 1) = _
    rw [Nat.and_two_pow_sub_one_eq_mod, Nat.shiftRight_eq_div_pow]
    omega
  · have hne : ((l <<< 7) ||| ((s - 1) <<< 0)) ≠ 0 := by
      intro h
      rw [h] at hseed
      change 0 = _ at hseed
      omega
    rw [getPruningStripe, if_neg hne, UInt32.toNat_add, UInt32.toNat_and, UInt32.toNat_shiftRight,
      hseed]
    change (1 + ((l.toNat * 2 ^ 7 + (s.toNat - 1)) >>> 0 &&& (2 ^ 7 - 1))) % 2 ^ 32 = _
    rw [Nat.and_two_pow_sub_one_eq_mod, Nat.shiftRight_zero]
    omega

/-! ### Stripes as numbers -/

theorem isLeast_residue (ht : t < N) (hne : q % N ≠ t) :
    IsLeast {k | q ≤ k ∧ k % N = t} ((q / N + if q % N < t then 0 else 1) * N + t) := by
  have hq := Nat.div_add_mod' q N
  have hmod : ∀ m, (m * N + t) % N = t := by
    intro m
    rw [Nat.mul_add_mod', mod_eq_of_lt ht]
  constructor
  · refine ⟨?_, hmod _⟩
    split
    · rw [Nat.add_zero]
      omega
    · have := mod_lt q (by omega : 0 < N)
      rw [Nat.add_mul]
      omega
  · rintro k ⟨hle, hk⟩
    have hdecomp := Nat.div_add_mod' k N
    rw [hk] at hdecomp
    have hdiv : q / N ≤ k / N := Nat.div_le_div_right hle
    rw [← hdecomp]
    refine Nat.add_le_add_right (Nat.mul_le_mul_right N ?_) t
    split
    · exact hdiv
    · -- in the same cycle the residue has gone by
      refine lt_of_le_of_ne hdiv fun heq => ?_
      rw [heq] at hq
      omega

theorem isLeast_stripe {S : ℕ} (hS : 0 < S) (ht : t < N) (hne : b / S % N ≠ t) :
    IsLeast {h | b ≤ h ∧ h / S % N = t}
      (((b / S / N + if b / S % N < t then 0 else 1) * N + t) * S) := by
  obtain ⟨⟨hle, hmod⟩, hleast⟩ := isLeast_residue ht hne
  refine ⟨⟨?_, ?_⟩, ?_⟩
  · have hlt := lt_of_le_of_ne hle fun heq => hne (by rw [heq]; exact hmod)
    exact (Nat.lt_mul_of_div_lt hlt hS).le
  · rw [Nat.mul_div_cancel _ hS]
    exact hmod
  · rintro h ⟨hbh, hh⟩
    exact le_trans (Nat.mul_le_mul_right S (hleast ⟨Nat.div_le_div_right hbh, hh⟩))
      (Nat.div_mul_le_self h S)

/-- A height whose block is kept: at the tip, or in stripe `t` of `N`. -/
def Kept (N t n h : ℕ) : Prop := n ≤ h + 5500 ∨ h / 4096 % N = t

/-- The next height in stripe `t`, from a height that is in another. -/
def stripeStart (N t b : ℕ) : ℕ :=
  ((b / 4096 / N + if b / 4096 % N < t then 0 else 1) * N + t) * 4096

theorem stripeStart_le (b : ℕ) (ht : t < N) : stripeStart N t b ≤ b + 2 * N * 4096 := by
  have hcycles : b / 4096 / N * N * 4096 ≤ b :=
    le_trans (Nat.mul_le_mul_right _ (Nat.div_mul_le_self ..)) (Nat.div_mul_le_self ..)
  have hnext : (b / 4096 / N + if b / 4096 % N < t then 0 else 1) * N + t ≤
      b / 4096 / N * N + 2 * N := by
    rw [Nat.add_mul]
    split <;> omega
  calc stripeStart N t b ≤ (b / 4096 / N * N + 2 * N) * 4096 := Nat.mul_le_mul_right _ hnext
    _ = b / 4096 / N * N * 4096 + 2 * N * 4096 := Nat.add_mul ..
    _ ≤ b + 2 * N * 4096 := Nat.add_le_add_right hcycles _

theorem isLeast_kept {n : ℕ} (ht : t < N) (hb : ¬Kept N t n b) :
    IsLeast {h | b ≤ h ∧ Kept N t n h} (min (stripeStart N t b) (n - 5500)) := by
  obtain ⟨htip, hne⟩ := not_or.mp hb
  obtain ⟨⟨hle, hmod⟩, hleast⟩ := isLeast_stripe (by omega : 0 < 4096) ht hne
  change b ≤ stripeStart N t b at hle
  refine ⟨⟨by omega, ?_⟩, ?_⟩
  · rcases le_total (stripeStart N t b) (n - 5500) with h | h
    · rw [min_eq_left h]
      exact Or.inr hmod
    · rw [min_eq_right h]
      exact Or.inl (by omega)
  · rintro h ⟨hbh, hkept | hkept⟩
    · omega
    · exact (min_le_left ..).trans (hleast ⟨hbh, hkept⟩)

theorem mod_ne_succ_mod (hN : 1 < N) : q % N ≠ (q + 1) % N := by
  intro h
  rw [Nat.add_mod, mod_eq_of_lt hN] at h
  have hlt := mod_lt q (by omega : 0 < N)
  rcases Nat.lt_or_ge (q % N + 1) N with h1 | h1
  · rw [mod_eq_of_lt h1] at h
    omega
  · rw [show q % N + 1 = N by omega, Nat.mod_self] at h
    omega

theorem stripeStart_next (hN : 1 < N) :
    stripeStart N ((b / 4096 + 1) % N) b = (b / 4096 + 1) * 4096 := by
  have hne : b / 4096 % N ≠ (b / 4096 + 1) % N := mod_ne_succ_mod hN
  refine (isLeast_stripe (by omega) (mod_lt _ (by omega)) hne).unique ⟨⟨?_, ?_⟩, ?_⟩
  · omega
  · rw [Nat.mul_div_cancel _ (by omega)]
  · rintro h ⟨hbh, hh⟩
    have hdiv : b / 4096 ≤ h / 4096 := Nat.div_le_div_right hbh
    have hlt := lt_of_le_of_ne hdiv fun heq => hne ((congrArg (· % N) heq).trans hh)
    exact le_trans (Nat.mul_le_mul_right _ hlt) (Nat.div_mul_le_self ..)

/-! ### The searches -/

theorem tip_iff (n : UInt64) (hh : h.toNat ≤ 2 ^ 32) :
    h + pruningTipBlocks ≥ n ↔ n.toNat ≤ h.toNat + 5500 := by
  rw [ge_iff_le, le_iff_toNat_le, toNat_add, pruningTipBlocks]
  change n.toNat ≤ (h.toNat + 5500) % 2 ^ 64 ↔ _
  omega

namespace Keeps

variable {seed l : UInt32} {t : ℕ} (k : Keeps seed l t)
include k

theorem stripe_ne_zero : getPruningStripe seed ≠ 0 := by
  intro h
  have hstr := k.stripe
  rw [h, UInt32.toNat_zero] at hstr
  omega

theorem stripeOf_eq_iff (h : UInt64) :
    stripeOf h l = getPruningStripe seed ↔ h.toNat / 4096 % 2 ^ l.toNat = t := by
  rw [← UInt32.toNat_inj, toNat_stripeOf h k.few_stripes, k.stripe, Nat.add_right_cancel_iff]

theorem hasUnprunedBlock_iff (n : UInt64) (hh : h.toNat ≤ 2 ^ 32) :
    hasUnprunedBlock h n seed = true ↔ Kept (2 ^ l.toNat) t n.toNat h.toNat := by
  have hne : stripeOf h l ≠ 0 := by
    intro h0
    have := toNat_stripeOf h k.few_stripes
    rw [h0, UInt32.toNat_zero] at this
    omega
  simp only [hasUnprunedBlock, if_neg k.stripe_ne_zero, k.log, getBlockPruningStripe,
    decide_eq_true_eq, Kept, ← k.stripeOf_eq_iff]
  by_cases htip : h + pruningTipBlocks ≥ n
  · simp [htip, (tip_iff n hh).mp htip]
  · simp [htip, mt (tip_iff n hh).mpr htip, hne]

theorem log_ne_zero : l ≠ 0 := by
  rintro rfl
  have := k.some_stripes
  simp at this

theorem toNat_stripeStart (b : UInt64) (hb : b.toNat ≤ 2 ^ 32) :
    (((b / pruningStripeSize) >>> l.toUInt64 +
        (if getPruningStripe seed > stripeOf b l then 0 else 1)) *
          (pruningStripeSize <<< l.toUInt64) +
        (getPruningStripe seed - 1).toUInt64 * pruningStripeSize).toNat =
      stripeStart (2 ^ l.toNat) t b.toNat := by
  have hpow : 2 ^ l.toNat ≤ 2 ^ 7 := pow_le_pow_right (by omega) k.few_stripes
  have hcycle : ((b / pruningStripeSize) >>> l.toUInt64).toNat = b.toNat / 4096 / 2 ^ l.toNat := by
    have := k.few_stripes
    rw [UInt64.toNat_shiftRight, toNat_toUInt64, mod_eq_of_lt (by omega),
      Nat.shiftRight_eq_div_pow, UInt64.toNat_div]
    rfl
  have hsize : (pruningStripeSize <<< l.toUInt64).toNat = 4096 * 2 ^ l.toNat := by
    have := k.few_stripes
    rw [UInt64.toNat_shiftLeft, toNat_toUInt64, mod_eq_of_lt (by omega : l.toNat < 64),
      Nat.shiftLeft_eq]
    change 4096 * 2 ^ l.toNat % 2 ^ 64 = _
    omega
  have hstr : (getPruningStripe seed - 1).toUInt64.toNat = t := by
    have hone : (1 : UInt32) ≤ getPruningStripe seed :=
      UInt32.le_iff_toNat_le.mpr (by rw [k.stripe]; exact Nat.le_add_left ..)
    rw [toNat_toUInt64, UInt32.toNat_sub_of_le _ _ hone, k.stripe]
    rfl
  have hlater : getPruningStripe seed > stripeOf b l ↔ b.toNat / 4096 % 2 ^ l.toNat < t := by
    rw [gt_iff_lt, UInt32.lt_iff_toNat_lt, toNat_stripeOf b k.few_stripes, k.stripe]
    omega
  have hnext : (if getPruningStripe seed > stripeOf b l then 0 else 1 : UInt64).toNat =
      if b.toNat / 4096 % 2 ^ l.toNat < t then 0 else 1 := by
    by_cases h : b.toNat / 4096 % 2 ^ l.toNat < t
    · rw [if_pos (hlater.mpr h), if_pos h, UInt64.toNat_zero]
    · rw [if_neg (mt hlater.mp h), if_neg h, toNat_one]
  rw [toNat_add, UInt64.toNat_mul, toNat_add, UInt64.toNat_mul, hcycle, hsize, hstr,
    hnext]
  have hbound := stripeStart_le b.toNat k.lt
  have htotal : (b.toNat / 4096 / 2 ^ l.toNat +
      if b.toNat / 4096 % 2 ^ l.toNat < t then 0 else 1) * (4096 * 2 ^ l.toNat) + t * 4096 =
        stripeStart (2 ^ l.toNat) t b.toNat := by
    rw [stripeStart]
    ring
  rw [← htotal] at hbound ⊢
  generalize (b.toNat / 4096 / 2 ^ l.toNat +
      if b.toNat / 4096 % 2 ^ l.toNat < t then 0 else 1) = c at hbound ⊢
  change (c % 2 ^ 64 * (4096 * 2 ^ l.toNat) % 2 ^ 64 + t * 4096 % 2 ^ 64) % 2 ^ 64 = _
  have hc : c * 1 ≤ c * (4096 * 2 ^ l.toNat) := Nat.mul_le_mul_left c (by omega)
  rw [mod_eq_of_lt (by omega : c < 2 ^ 64),
    mod_eq_of_lt (by omega : c * (4096 * 2 ^ l.toNat) < 2 ^ 64),
    mod_eq_of_lt (by omega : t * 4096 < 2 ^ 64), mod_eq_of_lt (by omega)]

variable {b n : UInt64}

theorem toNat_getNextUnpruned (hb : b ≤ maxBlockNumber + 1) (hn : n ≤ maxBlockNumber + 1) :
    (Kept (2 ^ l.toNat) t n.toNat b.toNat → getNextUnprunedBlockHeight b n seed = b) ∧
    (¬Kept (2 ^ l.toNat) t n.toNat b.toNat → (getNextUnprunedBlockHeight b n seed).toNat =
      min (stripeStart (2 ^ l.toNat) t b.toNat) (n.toNat - 5500)) := by
  have hbNat : b.toNat ≤ 500000001 := le_iff_toNat_le.mp hb
  have hnNat : n.toNat ≤ 500000001 := le_iff_toNat_le.mp hn
  have htip := tip_iff n (by omega : b.toNat ≤ 2 ^ 32)
  rw [getNextUnprunedBlockHeight, if_neg (by simp [hb, hn]), if_neg k.stripe_ne_zero, k.log,
    if_neg k.log_ne_zero]
  simp only [htip, k.stripeOf_eq_iff]
  by_cases htop : n.toNat ≤ b.toNat + 5500
  · exact ⟨fun _ => if_pos htop, fun h => absurd (Or.inl htop) h⟩
  by_cases hstr : b.toNat / 4096 % 2 ^ l.toNat = t
  · exact ⟨fun _ => by rw [if_neg htop, if_pos hstr], fun h => absurd (Or.inr hstr) h⟩
  refine ⟨fun h => absurd h (not_or.mpr ⟨htop, hstr⟩), fun _ => ?_⟩
  rw [if_neg htop, if_neg hstr]
  have hstart := k.toNat_stripeStart b (by omega)
  have hle := (isLeast_stripe (by omega : 0 < 4096) k.lt hstr).1.1
  change b.toNat ≤ stripeStart _ _ _ at hle
  generalize ((b / pruningStripeSize) >>> l.toUInt64 +
      (if getPruningStripe seed > stripeOf b l then 0 else 1)) *
        (pruningStripeSize <<< l.toUInt64) +
      (getPruningStripe seed - 1).toUInt64 * pruningStripeSize = h at hstart ⊢
  have hbound := stripeStart_le b.toNat k.lt
  have hpow : 2 ^ l.toNat ≤ 2 ^ 7 := pow_le_pow_right (by omega) k.few_stripes
  rw [← hstart] at hle hbound ⊢
  have hadd : (h + pruningTipBlocks).toNat = h.toNat + 5500 := by
    rw [toNat_add, pruningTipBlocks]
    change (h.toNat + 5500) % 2 ^ 64 = _
    omega
  have hsub : (n - pruningTipBlocks).toNat = n.toNat - 5500 := by
    rw [UInt64.toNat_sub_of_le]
    · rfl
    · rw [le_iff_toNat_le, pruningTipBlocks]
      change 5500 ≤ n.toNat
      omega
  split
  case isTrue hlate =>
    rw [gt_iff_lt, lt_iff_toNat_lt, hadd] at hlate
    rw [if_neg, hsub]
    · omega
    · rw [lt_iff_toNat_lt, pruningTipBlocks]
      change ¬n.toNat < 5500
      omega
  case isFalse hlate =>
    rw [gt_iff_lt, lt_iff_toNat_lt, hadd] at hlate
    rw [if_neg (by rw [lt_iff_toNat_lt]; omega)]
    omega

theorem isLeast_unpruned (hb : b ≤ maxBlockNumber + 1) (hn : n ≤ maxBlockNumber + 1) :
    IsLeast {h | b ≤ h ∧ hasUnprunedBlock h n seed = true}
      (getNextUnprunedBlockHeight b n seed) := by
  have hbNat : b.toNat ≤ 500000001 := le_iff_toNat_le.mp hb
  have hnNat : n.toNat ≤ 500000001 := le_iff_toNat_le.mp hn
  obtain ⟨hhere, hlater⟩ := k.toNat_getNextUnpruned hb hn
  by_cases hkept : Kept (2 ^ l.toNat) t n.toNat b.toNat
  · rw [hhere hkept]
    exact ⟨⟨UInt64.le_refl b, (k.hasUnprunedBlock_iff n (by omega)).mpr hkept⟩, fun h hh => hh.1⟩
  obtain ⟨⟨hle, hfound⟩, hleast⟩ := isLeast_kept k.lt hkept
  rw [← hlater hkept] at hle hfound hleast
  have hsmall : (getNextUnprunedBlockHeight b n seed).toNat ≤ 2 ^ 32 := by
    rw [hlater hkept]
    omega
  refine ⟨⟨le_iff_toNat_le.mpr hle, (k.hasUnprunedBlock_iff n hsmall).mpr hfound⟩, ?_⟩
  rintro h ⟨hbh, hunpruned⟩
  rw [le_iff_toNat_le] at hbh ⊢
  by_contra hlt
  exact hlt (hleast ⟨hbh, (k.hasUnprunedBlock_iff n (by omega)).mp hunpruned⟩)

theorem toNat_nextStripe (hstr : b.toNat / 4096 % 2 ^ l.toNat = t) :
    (1 + ((stripeOf b l).toUInt64 &&& ((1 : UInt64) <<< l.toUInt64 - 1))).toUInt32.toNat =
      (b.toNat / 4096 + 1) % 2 ^ l.toNat + 1 := by
  have hpow : 2 ^ l.toNat ≤ 2 ^ 7 := pow_le_pow_right (by omega) k.few_stripes
  have hlt := mod_lt (b.toNat / 4096 + 1) (Nat.two_pow_pos l.toNat)
  rw [UInt64.toNat_toUInt32, toNat_add, UInt64.toNat_and, toNat_mask k.few_stripes,
    Nat.and_two_pow_sub_one_eq_mod, toNat_toUInt64, toNat_stripeOf b k.few_stripes,
    Nat.mod_add_mod, toNat_one]
  omega

/-- The three ways of the search for the next pruned block. In the last one it asks for the
next stripe, and gets the tip when that is before it. -/
theorem getNextPruned_cases (hb : b ≤ maxBlockNumber + 1) (hn : n ≤ maxBlockNumber + 1) :
    ∃ r, getNextPrunedBlockHeight b n seed = .ok r ∧ ((n.toNat ≤ b.toNat + 5500 ∧ r = n) ∨
        (¬Kept (2 ^ l.toNat) t n.toNat b.toNat ∧ r = b) ∨
        (b.toNat + 5500 < n.toNat ∧ b.toNat / 4096 % 2 ^ l.toNat = t ∧
          r.toNat = min ((b.toNat / 4096 + 1) * 4096) (n.toNat - 5500))) := by
  have hbNat : b.toNat ≤ 500000001 := le_iff_toNat_le.mp hb
  simp only [getNextPrunedBlockHeight, if_neg k.stripe_ne_zero, k.log, if_neg k.log_ne_zero,
    tip_iff n (by omega : b.toNat ≤ 2 ^ 32), ne_eq, k.stripeOf_eq_iff]
  by_cases htop : n.toNat ≤ b.toNat + 5500
  · exact ⟨n, by rw [if_pos htop]; rfl, Or.inl ⟨htop, rfl⟩⟩
  by_cases hstr : b.toNat / 4096 % 2 ^ l.toNat = t
  case neg =>
    exact ⟨b, by rw [if_neg htop, if_pos hstr]; rfl, Or.inr (Or.inl ⟨not_or.mpr ⟨htop, hstr⟩, rfl⟩)⟩
  have hnext := k.toNat_nextStripe hstr
  have hone : 1 < 2 ^ l.toNat := Nat.one_lt_two_pow (by have := k.some_stripes; omega)
  have hlt := mod_lt (b.toNat / 4096 + 1) (Nat.two_pow_pos l.toNat)
  obtain ⟨next, hmake, knext⟩ := makePruningSeed_keeps k.some_stripes k.few_stripes
    (by rw [hnext]; omega) (by rw [hnext]; omega)
  rw [hnext, Nat.add_sub_cancel] at knext
  have hother : ¬Kept (2 ^ l.toNat) ((b.toNat / 4096 + 1) % 2 ^ l.toNat) n.toNat b.toNat :=
    not_or.mpr ⟨htop, mod_ne_succ_mod hone⟩
  refine ⟨getNextUnprunedBlockHeight b n next, ?_, Or.inr (Or.inr ⟨by omega, hstr, ?_⟩)⟩
  · rw [if_neg htop, if_neg (not_not.mpr hstr), hmake]
    rfl
  · rw [(knext.toNat_getNextUnpruned hb hn).2 hother, stripeStart_next hone]

end Keeps

/-- The stripe of `b` is kept and its end is at the tip or beyond. -/
def EndsInTip (b n : UInt64) (pruningSeed : UInt32) : Prop :=
  b.toNat + 5500 < n.toNat ∧ hasUnprunedBlock b n pruningSeed = true ∧
    n.toNat ≤ (b.toNat / 4096 + 1) * 4096 + 5500

/-- The next height with an unpruned block is the least one. -/
theorem next_unpruned_isLeast (s l : UInt32) (hl : 1 ≤ l.toNat) (hl' : l.toNat ≤ 7)
    (hs : 1 ≤ s.toNat) (hs' : s.toNat ≤ 2 ^ l.toNat) (b n : UInt64)
    (hb : b ≤ maxBlockNumber + 1) (hn : n ≤ maxBlockNumber + 1) :
    ∃ seed, makePruningSeed s l = .ok seed ∧
      IsLeast {h | b ≤ h ∧ hasUnprunedBlock h n seed = true}
        (getNextUnprunedBlockHeight b n seed) := by
  obtain ⟨seed, hmake, k⟩ := makePruningSeed_keeps hl hl' hs hs'
  exact ⟨seed, hmake, k.isLeast_unpruned hb hn⟩

/-- From a block in another stripe the search goes to the start of the kept one. -/
theorem next_unpruned_isLeast_third :
    ∃ seed, makePruningSeed 3 3 = .ok seed ∧ getNextUnprunedBlockHeight 5000 100000 seed = 8192 ∧
      IsLeast {h | 5000 ≤ h ∧ hasUnprunedBlock h 100000 seed = true} 8192 := by
  obtain ⟨seed, hmake, hleast⟩ := next_unpruned_isLeast 3 3 (by decide) (by decide) (by decide)
    (by decide) 5000 100000 (by decide) (by decide)
  obtain rfl : 386 = seed := Except.ok.inj hmake
  exact ⟨_, rfl, by decide, hleast⟩

/-- The next height with a pruned block is the least one, or the chain's height, unless the
kept stripe runs into the tip. Then the search stops at the tip, whose blocks are all kept,
and so does what a supplement that is clipped offers. -/
theorem next_pruned_isLeast (s l : UInt32) (hl : 1 ≤ l.toNat) (hl' : l.toNat ≤ 7)
    (hs : 1 ≤ s.toNat) (hs' : s.toNat ≤ 2 ^ l.toNat) (b n : UInt64) (hb : b ≤ n)
    (hn : n ≤ maxBlockNumber + 1) :
    ∃ seed r, makePruningSeed s l = .ok seed ∧ getNextPrunedBlockHeight b n seed = .ok r ∧
      (hasUnprunedBlock b n seed = true → supplementStop true b n seed = .ok (some r)) ∧
      (IsLeast {h | h = n ∨ (b ≤ h ∧ h < n ∧ hasUnprunedBlock h n seed = false)} r ↔
        ¬EndsInTip b n seed) ∧
      (EndsInTip b n seed → r.toNat = n.toNat - 5500) := by
  obtain ⟨seed, hmake, k⟩ := makePruningSeed_keeps hl hl' hs hs'
  have hb' := UInt64.le_trans hb hn
  obtain ⟨r, hr, hcases⟩ := k.getNextPruned_cases hb' hn
  refine ⟨seed, r, hmake, hr, fun hunpruned => ?_, ?_⟩
  · have hleast := (k.isLeast_unpruned hb' hn).2 ⟨UInt64.le_refl b, hunpruned⟩
    rw [supplementStop, if_pos rfl, if_neg (UInt64.not_lt.mpr hleast), hr]
    rfl
  rw [le_iff_toNat_le] at hb
  have hnNat : n.toNat ≤ 500000001 := le_iff_toNat_le.mp hn
  have hkept {h : UInt64} (hh : h.toNat ≤ n.toNat) := k.hasUnprunedBlock_iff n
    (by omega : h.toNat ≤ 2 ^ 32)
  rcases hcases with ⟨htop, rfl⟩ | ⟨hpruned, rfl⟩ | ⟨hbelow, hstripe, hrNat⟩
  · -- everything from `b` on is at the tip
    have hno : ¬EndsInTip b r seed := fun h => absurd h.1 (Nat.not_lt.mpr htop)
    refine ⟨iff_of_true ⟨Or.inl rfl, ?_⟩ hno, fun h => absurd h hno⟩
    rintro h (rfl | ⟨hbh, hlt, hfalse⟩)
    · exact UInt64.le_refl h
    · rw [le_iff_toNat_le] at hbh
      rw [lt_iff_toNat_lt] at hlt
      rw [(hkept hlt.le).mpr (Or.inl (by omega))] at hfalse
      cases hfalse
  · -- `b` itself is pruned
    have hno : ¬EndsInTip r n seed := fun h => hpruned ((hkept hb).mp h.2.1)
    have hlt := Nat.lt_of_not_le (not_or.mp hpruned).1
    refine ⟨iff_of_true ⟨Or.inr ⟨UInt64.le_refl r, lt_iff_toNat_lt.mpr (by omega),
      Bool.eq_false_iff.mpr (mt (hkept hb).mp hpruned)⟩, ?_⟩ hno, fun h => absurd h hno⟩
    rintro h (rfl | ⟨hbh, -, -⟩)
    · exact le_iff_toNat_le.mpr hb
    · exact hbh
  · have hends : EndsInTip b n seed ↔ n.toNat ≤ (b.toNat / 4096 + 1) * 4096 + 5500 :=
      ⟨fun h => h.2.2, fun h => ⟨hbelow, (hkept hb).mpr (Or.inr hstripe), h⟩⟩
    rw [hends]
    refine ⟨⟨?_, fun hearly => ?_⟩, fun hlate => by omega⟩
    · rintro ⟨rfl | ⟨-, hlt, hfalse⟩, -⟩ hlate
      · omega
      · rw [(hkept (lt_iff_toNat_lt.mp hlt).le).mpr (Or.inl (by omega))] at hfalse
        cases hfalse
    · have hrEnd : r.toNat = (b.toNat / 4096 + 1) * 4096 := by omega
      have hother : ¬Kept (2 ^ l.toNat) (s.toNat - 1) n.toNat r.toNat := by
        refine not_or.mpr ⟨by omega, ?_⟩
        rw [hrEnd, Nat.mul_div_cancel _ (by omega), ← hstripe]
        exact (mod_ne_succ_mod (Nat.one_lt_two_pow (by omega))).symm
      refine ⟨Or.inr ⟨le_iff_toNat_le.mpr (by omega), lt_iff_toNat_lt.mpr (by omega),
        Bool.eq_false_iff.mpr (mt (hkept (by omega)).mp hother)⟩, ?_⟩
      rintro h (rfl | ⟨hbh, hlt, hfalse⟩)
      · exact le_iff_toNat_le.mpr (by omega)
      · rw [le_iff_toNat_le] at hbh ⊢
        rw [lt_iff_toNat_lt] at hlt
        by_contra hbefore
        have hsame : h.toNat / 4096 = b.toNat / 4096 := by omega
        rw [(hkept hlt.le).mpr (Or.inr (by rw [hsame]; exact hstripe))] at hfalse
        cases hfalse

/-- Far from the tip the first stripe of eight ends where the second starts. -/
theorem next_pruned_isLeast_far :
    ∃ seed, makePruningSeed 1 3 = .ok seed ∧ getNextPrunedBlockHeight 0 10000 seed = .ok 4096 ∧
      IsLeast {h | h = 10000 ∨ (0 ≤ h ∧ h < 10000 ∧ hasUnprunedBlock h 10000 seed = false)}
        4096 := by
  obtain ⟨seed, r, hmake, hr, -, hleast, -⟩ := next_pruned_isLeast 1 3 (by decide) (by decide)
    (by decide) (by decide) 0 10000 (by decide) (by decide)
  obtain rfl : 384 = seed := Except.ok.inj hmake
  obtain rfl : 4096 = r := Except.ok.inj hr
  exact ⟨_, rfl, rfl, hleast.mpr fun h => absurd h.2.2 (by decide)⟩

/-- With a chain of 9000 blocks it stops at 3500, where the tip starts, although no block is
pruned. -/
theorem next_pruned_stops_at_tip :
    ∃ seed, makePruningSeed 1 3 = .ok seed ∧
      getNextPrunedBlockHeight 0 9000 seed = .ok 3500 ∧
      supplementStop true 0 9000 seed = .ok (some 3500) ∧
      hasUnprunedBlock 3500 9000 seed = true ∧
      ¬IsLeast {h | h = 9000 ∨ (0 ≤ h ∧ h < 9000 ∧ hasUnprunedBlock h 9000 seed = false)}
        3500 := by
  refine ⟨384, rfl, rfl, rfl, by decide, ?_⟩
  rintro ⟨h | ⟨-, -, h⟩, -⟩
  · exact absurd h (by decide)
  · exact absurd h (by decide)

end Monzero.SyncHeights
