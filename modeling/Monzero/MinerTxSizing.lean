import Monzero.MinerTx
import Monzero.RewardPenalty
import Mathlib.Data.UInt

/-!
Sizing the miner transaction of a block template. The reward depends on the weight of the block
and the weight of the block on the bytes of the reward, so that the node searches for a
transaction of the weight it assumed: a transaction that is too light is padded with zeros in
its extra field. The counter of the extra field grows from one byte to two at a length of 128.
A padding that ends there cannot be reached, and the search goes on with more room.
-/
namespace Monzero.MinerTxSizing

open Bytes Emission RewardPenalty MinerTx
open UInt64 (ofNat ofNat_add toNat_add toNat_ofNat')

/-- The ways in which `create_block_template` gives up the search. -/
inductive SizingError
  | firstChance
  | secondChance
  | unexpectedPadding
  | unexpectedWeight
  | noTriesLeft
deriving DecidableEq

/-- A try ends with the transaction, or with the weight to assume next. -/
inductive Outcome
  | done (tx : Coinbase)
  | again (cumulativeWeight : UInt64)

/-- The check at the end of a try. -/
def finish (txsWeight cumulativeWeight : UInt64) (tx : Coinbase) : Except SizingError Outcome :=
  if cumulativeWeight ≠ txsWeight + getTransactionWeight tx then .error .unexpectedWeight
  else .ok (.done tx)

def withExtra (tx : Coinbase) (extra : List UInt8) : Coinbase := { tx with extra := extra }

/-- The body of the loop, after the transaction was built. -/
def fitMinerTx (txsWeight cumulativeWeight : UInt64) (tx : Coinbase) :
    Except SizingError Outcome :=
  let coinbaseWeight := getTransactionWeight tx
  if coinbaseWeight > cumulativeWeight - txsWeight then
    .ok (.again (txsWeight + coinbaseWeight))
  else if coinbaseWeight < cumulativeWeight - txsWeight then
    let delta := cumulativeWeight - txsWeight - coinbaseWeight
    let extra := tx.extra ++ List.replicate delta.toNat 0
    let padded := withExtra tx extra
    if cumulativeWeight ≠ txsWeight + getTransactionWeight padded then
      if cumulativeWeight + 1 ≠ txsWeight + getTransactionWeight padded then
        .error .unexpectedPadding
      else
        let shorter := withExtra tx (extra.take (extra.length - 1))
        if cumulativeWeight ≠ txsWeight + getTransactionWeight shorter then
          .ok (.again (cumulativeWeight + (delta - 1)))
        else finish txsWeight cumulativeWeight shorter
    else finish txsWeight cumulativeWeight padded
  else finish txsWeight cumulativeWeight tx

/-- The loop of `create_block_template`, with the number of the next transaction to build. -/
def sizeLoop (construct : ℕ → UInt64 → Option Coinbase) (txsWeight : UInt64) :
    ℕ → ℕ → UInt64 → Except SizingError Coinbase
  | 0, _, _ => .error .noTriesLeft
  | tries + 1, no, cumulativeWeight =>
      match construct no cumulativeWeight with
      | none => .error .secondChance
      | some tx =>
          match fitMinerTx txsWeight cumulativeWeight tx with
          | .error e => .error e
          | .ok (.done tx) => .ok tx
          | .ok (.again next) => sizeLoop construct txsWeight tries (no + 1) next

/-- What a block template is made for. Every transaction that is built has new keys. -/
structure Template where
  keys : ℕ → MinerKeys
  height : UInt64
  medianWeight : UInt64
  alreadyGeneratedCoins : UInt64
  txsWeight : UInt64
  fee : UInt64
  nonce : List UInt8
  version : UInt8

namespace Template

def construct (T : Template) (no : ℕ) (weight : UInt64) : Option Coinbase :=
  constructMinerTx (T.keys no) T.height T.medianWeight T.alreadyGeneratedCoins weight T.fee T.nonce
    (if T.version ≥ 4 then 1 else 11) T.version

def createMinerTx (T : Template) : Except SizingError Coinbase :=
  match T.construct 0 T.txsWeight with
  | none => .error .firstChance
  | some tx =>
      sizeLoop T.construct T.txsWeight 10 1 (T.txsWeight + getTransactionWeight tx)

end Template

section Tries

variable {cw txsWeight : UInt64} {tx tx' : Coinbase} {tries no : ℕ}
  {construct : ℕ → UInt64 → Option Coinbase}

theorem finish_done (h : finish txsWeight cw tx = .ok (.done tx')) :
    tx' = tx ∧ cw = txsWeight + getTransactionWeight tx := by
  rw [finish] at h
  split at h
  · cases h
  · rename_i hwt
    cases h
    exact ⟨rfl, not_not.mp hwt⟩

theorem finish_of_eq (h : cw = txsWeight + getTransactionWeight tx) :
    finish txsWeight cw tx = .ok (.done tx) := by
  rw [finish, if_neg (not_not.mpr h)]

/-- A try that is done changed the extra field only, and has the weight that was assumed. -/
theorem fitMinerTx_done (h : fitMinerTx txsWeight cw tx = .ok (.done tx')) :
    tx'.vout = tx.vout ∧ cw = txsWeight + getTransactionWeight tx' := by
  simp only [fitMinerTx] at h
  split at h
  · cases h
  split at h
  · split at h
    · split at h
      · cases h
      · split at h
        · cases h
        · obtain ⟨rfl, hwt⟩ := finish_done h
          exact ⟨rfl, hwt⟩
    · obtain ⟨rfl, hwt⟩ := finish_done h
      exact ⟨rfl, hwt⟩
  · obtain ⟨rfl, hwt⟩ := finish_done h
    exact ⟨rfl, hwt⟩

theorem sizeLoop_ok (h : sizeLoop construct txsWeight tries no cw = .ok tx) :
    ∃ no' built, construct no' (txsWeight + getTransactionWeight tx) = some built ∧
      tx.vout = built.vout := by
  induction tries generalizing no cw with
  | zero => cases h
  | succ tries ih =>
    rw [sizeLoop] at h
    split at h
    · cases h
    · rename_i built hbuilt
      split at h
      · cases h
      · rename_i done hfit
        cases h
        obtain ⟨hvout, hwt⟩ := fitMinerTx_done hfit
        exact ⟨no, built, hwt ▸ hbuilt, hvout⟩
      · exact ih h

theorem sizeLoop_done (hbuilt : construct no cw = some tx)
    (hfit : fitMinerTx txsWeight cw tx = .ok (.done tx')) :
    sizeLoop construct txsWeight (tries + 1) no cw = .ok tx' := by
  simp only [sizeLoop, hbuilt, hfit]

theorem sizeLoop_again {next : UInt64} (hbuilt : construct no cw = some tx)
    (hfit : fitMinerTx txsWeight cw tx = .ok (.again next)) :
    sizeLoop construct txsWeight (tries + 1) no cw =
      sizeLoop construct txsWeight tries (no + 1) next := by
  simp only [sizeLoop, hbuilt, hfit]

theorem sizeLoop_none (hbuilt : construct no cw = none) :
    sizeLoop construct txsWeight (tries + 1) no cw = .error .secondChance := by
  simp only [sizeLoop, hbuilt]

end Tries

section Step

variable (txsW : UInt64) {tx : Coinbase} {height amt : UInt64} {ver : UInt8}
  {a b extra room fixed delta : ℕ}

theorem Pays.withExtra (h : Pays tx height ver amt) (extra : List UInt8) :
    Pays (withExtra tx extra) height ver amt :=
  ⟨h.version_eq, h.unlock_eq, h.height_eq, h.amounts_eq, h.tagged⟩

/-- The size of a transaction whose extra field has the given length. -/
def sizeFor (fixed extra : ℕ) : ℕ := fixed + varintSize extra + extra

theorem getTransactionWeight_eq (h : Pays tx height ver amt) : getTransactionWeight tx =
      ofNat (sizeFor (fixedSize height ver amt) tx.extra.length) := by
  rw [getTransactionWeight, h.length_writeCoinbase, sizeFor]

theorem sizeFor_short (fixed : ℕ) (h : extra < 128) : sizeFor fixed extra = fixed + 1 + extra := by
  rw [sizeFor, varintSize_of_lt h]

theorem sizeFor_long (fixed : ℕ) (hlarge : 128 ≤ extra) (h : extra < 16384) :
    sizeFor fixed extra = fixed + 2 + extra := by
  rw [sizeFor, varintSize_of_lt_sq hlarge h]

theorem add_ofNat_inj (ha : a < 2 ^ 64) (hb : b < 2 ^ 64) :
    txsW + ofNat a = txsW + ofNat b ↔ a = b := by
  rw [UInt64.add_right_inj, ← UInt64.toNat_inj, toNat_ofNat', toNat_ofNat',
    Nat.mod_eq_of_lt ha, Nat.mod_eq_of_lt hb]

theorem ofNat_lt_iff (ha : a < 2 ^ 64) (hb : b < 2 ^ 64) :
    ofNat a < ofNat b ↔ a < b := by
  rw [UInt64.lt_iff_toNat_lt, toNat_ofNat', toNat_ofNat', Nat.mod_eq_of_lt ha,
    Nat.mod_eq_of_lt hb]

theorem fitMinerTx_of_eq (tx : Coinbase) :
    fitMinerTx txsW (txsW + getTransactionWeight tx) tx = .ok (.done tx) := by
  have hroom : txsW + getTransactionWeight tx - txsW = getTransactionWeight tx := by
    grind
  simp only [fitMinerTx, hroom, gt_iff_lt, UInt64.lt_irrefl, if_false]
  exact finish_of_eq rfl

theorem weight_withExtra (h : Pays tx height ver amt) (extra : List UInt8) :
    getTransactionWeight (withExtra tx extra) =
      ofNat (sizeFor (fixedSize height ver amt) extra.length) := by
  rw [getTransactionWeight_eq (Pays.withExtra h extra)]
  rfl

theorem finish_withExtra (h : Pays tx height ver amt) {extra : List UInt8}
    (hroom : room = sizeFor (fixedSize height ver amt) extra.length) :
    finish txsW (txsW + ofNat room) (withExtra tx extra) =
      .ok (.done (withExtra tx extra)) :=
  finish_of_eq (by rw [weight_withExtra h, hroom])

theorem sizeFor_lt_of_le {e : ℕ} (hdelta : room = sizeFor fixed extra + delta)
    (hroom : room < 10000) (he : e ≤ extra + delta) : sizeFor fixed e < 2 ^ 64 := by
  have hcnt := varintSize_le e
  rw [sizeFor] at hdelta ⊢
  omega

theorem add_ofNat_pred (room : ℕ) (hpos : 0 < delta) :
    txsW + ofNat room + (ofNat delta - 1) =
      txsW + ofNat (room + (delta - 1)) := by
  obtain ⟨less, rfl⟩ := Nat.exists_eq_succ_of_ne_zero hpos.ne'
  rw [Nat.succ_sub_one, ofNat_add room less, ofNat_add less 1]
  grind

theorem fitMinerTx_of_lt (h : Pays tx height ver amt) (hfix : fixed = fixedSize height ver amt)
    (hdelta : room = sizeFor fixed tx.extra.length + delta) (hpos : 0 < delta)
    (hroom : room < 10000) : fitMinerTx txsW (txsW + ofNat room) tx =
      let extra := tx.extra ++ List.replicate delta 0
      if room = sizeFor fixed (tx.extra.length + delta) then .ok (.done (withExtra tx extra))
      else if room + 1 ≠ sizeFor fixed (tx.extra.length + delta) then .error .unexpectedPadding
      else if room = sizeFor fixed (tx.extra.length + delta - 1) then
        .ok (.done (withExtra tx (extra.take (extra.length - 1))))
      else .ok (.again (txsW + ofNat (room + (delta - 1)))) := by
  subst hfix
  have hbuilt := weight_withExtra h tx.extra
  rw [show withExtra tx tx.extra = tx from rfl] at hbuilt
  have hcancel : txsW + ofNat room - txsW = ofNat room := by grind
  have hdiff : ofNat room -
      ofNat (sizeFor (fixedSize height ver amt) tx.extra.length) = ofNat delta := by
    rw [hdelta, ofNat_add]
    grind
  have htoNat : (ofNat delta).toNat = delta := by
    rw [toNat_ofNat', Nat.mod_eq_of_lt (by omega)]
  have hnext : txsW + ofNat room + 1 = txsW + ofNat (room + 1) := by
    rw [ofNat_add, UInt64.add_assoc]
    rfl
  have hlen : (tx.extra ++ List.replicate delta (0 : UInt8)).length = tx.extra.length + delta := by
    rw [List.length_append, List.length_replicate]
  have hlen' : ((tx.extra ++ List.replicate delta (0 : UInt8)).take
      (tx.extra.length + delta - 1)).length = tx.extra.length + delta - 1 := by
    rw [List.length_take, hlen]
    omega
  have hroom64 : room < 2 ^ 64 := by omega
  have hlight : sizeFor (fixedSize height ver amt) tx.extra.length < room := by omega
  have hsize := hlight.trans hroom64
  have hpadded := sizeFor_lt_of_le hdelta hroom le_rfl
  have hshorter := sizeFor_lt_of_le hdelta hroom (Nat.sub_le _ 1)
  simp only [fitMinerTx, hcancel, hbuilt, hdiff, htoNat, weight_withExtra h, hlen,
    hlen', hnext, add_ofNat_pred txsW room hpos, gt_iff_lt, ofNat_lt_iff hroom64 hsize,
    ofNat_lt_iff hsize hroom64, if_neg hlight.not_gt, if_pos hlight, ne_eq,
    add_ofNat_inj _ hroom64 hpadded, add_ofNat_inj _ hroom64 hshorter,
    add_ofNat_inj _ (show room + 1 < 2 ^ 64 by omega) hpadded]
  by_cases hfits : room = sizeFor (fixedSize height ver amt) (tx.extra.length + delta)
  · rw [if_neg (not_not.mpr hfits), if_pos hfits, finish_withExtra txsW h (by rwa [hlen])]
  rw [if_pos hfits, if_neg hfits]
  by_cases hover : room + 1 = sizeFor (fixedSize height ver amt) (tx.extra.length + delta)
  · rw [if_neg (not_not.mpr hover), if_neg (not_not.mpr hover)]
    by_cases hfits' : room = sizeFor (fixedSize height ver amt) (tx.extra.length + delta - 1)
    · rw [if_neg (not_not.mpr hfits'), if_pos hfits', finish_withExtra txsW h (by rwa [hlen'])]
    · rw [if_pos hfits', if_neg hfits']
  · rw [if_pos hover, if_pos hover]

/-- A padding that does not end at a length of 128 gives the weight that was assumed. -/
theorem fitMinerTx_lucky (h : Pays tx height ver amt)
    (hfix : fixed = fixedSize height ver amt) (hle : sizeFor fixed tx.extra.length ≤ room)
    (hroom : room < 10000) (hlucky : tx.extra.length < 128 →
      tx.extra.length + (room - sizeFor fixed tx.extra.length) ≠ 128) :
    ∃ tx', fitMinerTx txsW (txsW + ofNat room) tx = .ok (.done tx') := by
  obtain ⟨delta, hdelta⟩ := Nat.exists_eq_add_of_le hle
  rw [hdelta, Nat.add_sub_cancel_left] at hlucky
  rcases Nat.eq_zero_or_pos delta with rfl | hpos
  · rw [hdelta, Nat.add_zero, hfix, ← getTransactionWeight_eq h, fitMinerTx_of_eq]
    exact ⟨tx, rfl⟩
  rw [fitMinerTx_of_lt txsW h hfix hdelta hpos hroom]
  have hextra : tx.extra.length + delta < 16384 := by
    rw [sizeFor] at hdelta
    omega
  by_cases hshort : tx.extra.length < 128
  · rw [sizeFor_short fixed hshort] at hdelta
    by_cases hstill : tx.extra.length + delta < 128
    · rw [sizeFor_short fixed hstill, if_pos (by omega)]
      exact ⟨_, rfl⟩
    · have hover := hlucky hshort
      rw [sizeFor_long fixed (by omega) hextra, sizeFor_long fixed (by omega) (by omega),
        if_neg (by omega), if_neg (by omega), if_pos (by omega)]
      exact ⟨_, rfl⟩
  · rw [sizeFor_long fixed (by omega) (by omega)] at hdelta
    rw [sizeFor_long fixed (by omega) hextra, if_pos (by omega)]
    exact ⟨_, rfl⟩

/-- A padding that ends at a length of 128 is one byte too much, and one less is too few. -/
theorem fitMinerTx_unlucky (h : Pays tx height ver amt) (hfix : fixed = fixedSize height ver amt)
    (hpos : 0 < delta) (hextra : tx.extra.length + delta = 128) (hbound : fixed < 5000) :
    fitMinerTx txsW (txsW + ofNat (sizeFor fixed tx.extra.length + delta)) tx =
      .ok (.again (txsW + ofNat (sizeFor fixed tx.extra.length + delta + (delta - 1)))) := by
  have hsize := sizeFor_short fixed (by omega : tx.extra.length < 128)
  rw [fitMinerTx_of_lt txsW h hfix rfl hpos (by omega), hextra,
    sizeFor_long fixed le_rfl (by omega), sizeFor_short fixed (by omega : 128 - 1 < 128), hsize,
    if_neg (by omega), if_neg (by omega), if_neg (by omega)]

end Step

namespace Template

/-- One output, a median below 2^32 and amounts below 2^64. -/
structure Regular (T : Template) : Prop where
  one_output : 4 ≤ T.version
  median_lt : (penaltyMedian T.medianWeight T.version).toNat < 2 ^ 32
  paid_lt : (baseReward T.alreadyGeneratedCoins).toNat + T.fee.toNat < 2 ^ 64

def fixed (T : Template) (reward : UInt64) : ℕ := fixedSize T.height T.version (reward + T.fee)

def size (T : Template) (reward : UInt64) : ℕ := sizeFor (T.fixed reward) (extraSize T.nonce)

/-- A transaction that was built for a weight. -/
structure Built (T : Template) (weight : UInt64) (tx : Coinbase) (reward : UInt64) : Prop where
  reward_eq : getBlockReward T.medianWeight weight T.alreadyGeneratedCoins T.version = some reward
  pays : Pays tx T.height T.version (reward + T.fee)
  extra_eq : tx.extra.length = extraSize T.nonce
  nonce_le : T.nonce.length ≤ 255

variable {T : Template} {wt rew rew' : UInt64} {tx tx' first second : Coinbase} {no : ℕ}

theorem built_of_construct (hver : 4 ≤ T.version) (h : T.construct no wt = some tx) :
    ∃ rew, T.Built wt tx rew := by
  rw [construct, if_pos hver] at h
  obtain ⟨rew, hrew, hpays, hextra, hnonce⟩ := constructMinerTx_spec hver h
  exact ⟨rew, hrew, hpays, hextra, hnonce⟩

theorem Built.weight_eq (h : T.Built wt tx rew) : getTransactionWeight tx = ofNat (T.size rew) := by
  rw [getTransactionWeight_eq h.pays, h.extra_eq, size, fixed]

theorem size_lt (hnonce : T.nonce.length ≤ 255) (rew : UInt64) : T.size rew < 400 := by
  have hfix := fixedSize_le T.height T.version (rew + T.fee)
  have hextra := extraSize_le hnonce
  have hcnt : varintSize (extraSize T.nonce) ≤ 2 :=
    (varintSize_mono hextra).trans (varintSize_of_lt_sq (by omega) (by omega)).le
  rw [size, sizeFor, fixed]
  omega

theorem size_mono (h : T.fixed rew ≤ T.fixed rew') : T.size rew ≤ T.size rew' := by
  rw [size, size, sizeFor, sizeFor]
  omega

theorem Built.fixed_le (hT : T.Regular) {wt' : UInt64}
    (h : T.Built wt tx rew) (h' : T.Built wt' tx' rew') (hle : wt ≤ wt') :
    T.fixed rew' ≤ T.fixed rew := by
  have hfall := UInt64.le_iff_toNat_le.mp
    (getBlockReward_antitone hT.median_lt hle h.reward_eq h'.reward_eq)
  have hbase := getBlockReward_le_base hT.median_lt h.reward_eq
  have hpaid := hT.paid_lt
  apply fixedSize_mono
  rw [UInt64.le_iff_toNat_le, toNat_add, toNat_add, Nat.mod_eq_of_lt (by omega),
    Nat.mod_eq_of_lt (by omega)]
  omega

theorem Built.le_add (hT : T.Regular) {a b : ℕ}
    (h : T.Built wt tx rew) (hab : a ≤ b) (hb : b < 2 ^ 32) :
    wt + ofNat a ≤ wt + ofNat b := by
  have hlim := weight_le_of_getBlockReward hT.median_lt h.reward_eq
  have hmed := hT.median_lt
  rw [UInt64.le_iff_toNat_le, toNat_add, toNat_add, toNat_ofNat',
    toNat_ofNat']
  omega

theorem Built.fit_lucky (h : T.Built wt tx rew) {room : ℕ}
    (hle : T.size rew ≤ room) (hroom : room < 10000)
    (hlucky : extraSize T.nonce < 128 → extraSize T.nonce + (room - T.size rew) ≠ 128) :
    ∃ tx', fitMinerTx T.txsWeight (T.txsWeight + ofNat room) tx = .ok (.done tx') := by
  rw [size, ← h.extra_eq] at hle hlucky
  exact fitMinerTx_lucky T.txsWeight h.pays rfl hle hroom hlucky

theorem Built.fit_unlucky (h : T.Built wt tx rew) {delta : ℕ}
    (hpos : 0 < delta) (hextra : extraSize T.nonce + delta = 128) :
    fitMinerTx T.txsWeight (T.txsWeight + ofNat (T.size rew + delta)) tx =
      .ok (.again (T.txsWeight + ofNat (T.size rew + delta + (delta - 1)))) := by
  have hfix := fixedSize_le T.height T.version (rew + T.fee)
  rw [size, ← h.extra_eq]
  rw [← h.extra_eq] at hextra
  exact fitMinerTx_unlucky T.txsWeight h.pays rfl hpos hextra (by rw [fixed]; omega)

/-- The search cannot end: the length of the extra field is 127, and the transaction for the first
weight is one byte larger than the next. -/
def Stuck (T : Template) : Prop :=
  T.nonce.length = 92 ∧ ∃ first second,
    T.construct 0 T.txsWeight = some first ∧
    T.construct 1 (T.txsWeight + getTransactionWeight first) = some second ∧
    getTransactionWeight first = getTransactionWeight second + 1

theorem sizeLoop_stuck (hver : 4 ≤ T.version) (hextra : extraSize T.nonce = 127)
    (h : T.Built wt tx rew) (hwt : wt = T.txsWeight + ofNat (T.size rew + 1)) (tries no : ℕ) :
    sizeLoop T.construct T.txsWeight tries no wt = .error .noTriesLeft ∨
      sizeLoop T.construct T.txsWeight tries no wt = .error .secondChance := by
  induction tries generalizing no with
  | zero => exact Or.inl rfl
  | succ tries ih =>
    cases hbuilt : T.construct no wt with
    | none => exact Or.inr (sizeLoop_none hbuilt)
    | some next =>
      obtain ⟨rew', h'⟩ := built_of_construct hver hbuilt
      have hsame : rew' = rew := Option.some.inj (h'.reward_eq.symm.trans h.reward_eq)
      subst hsame
      have hagain := h'.fit_unlucky Nat.one_pos (by rw [hextra])
      rw [Nat.sub_self, Nat.add_zero, ← hwt] at hagain
      rw [sizeLoop_again hbuilt hagain]
      exact ih (no + 1)

/-- The search from the weight of the first transaction. It ends with the first try, or with the
second after an unlucky padding of two bytes or more. -/
theorem sizeLoop_of_first (hT : T.Regular) (h : T.Built T.txsWeight first rew)
    (hsnd : T.construct 1 (T.txsWeight + ofNat (T.size rew)) = some second)
    (h' : T.Built (T.txsWeight + ofNat (T.size rew)) second rew')
    (hfree : ¬ (extraSize T.nonce = 127 ∧ T.size rew = T.size rew' + 1)) (tries : ℕ) :
    (∃ tx, sizeLoop T.construct T.txsWeight (tries + 2) 1
        (T.txsWeight + ofNat (T.size rew)) = .ok tx) ∨
      sizeLoop T.construct T.txsWeight (tries + 2) 1
        (T.txsWeight + ofNat (T.size rew)) = .error .secondChance := by
  have hsize := size_lt h.nonce_le rew
  have hstart : T.txsWeight ≤ T.txsWeight + ofNat (T.size rew) := by
    simpa using h.le_add hT (Nat.zero_le (T.size rew)) (by omega)
  have hle := size_mono (h.fixed_le hT h' hstart)
  by_cases hlucky : extraSize T.nonce < 128 →
      extraSize T.nonce + (T.size rew - T.size rew') ≠ 128
  · obtain ⟨tx, hfit⟩ := h'.fit_lucky hle (by omega) hlucky
    exact Or.inl ⟨tx, sizeLoop_done hsnd hfit⟩
  obtain ⟨delta, hdelta⟩ := Nat.exists_eq_add_of_le hle
  rw [hdelta, Nat.add_sub_cancel_left, Classical.not_imp, not_not] at hlucky
  obtain ⟨hshort, hextra⟩ := hlucky
  have hagain := h'.fit_unlucky (by omega : 0 < delta) hextra
  rw [← hdelta] at hagain
  rw [sizeLoop_again hsnd hagain]
  cases hthird : T.construct 2 (T.txsWeight + ofNat (T.size rew + (delta - 1))) with
  | none => exact Or.inr (sizeLoop_none hthird)
  | some third =>
    -- The room has grown by at least one byte and the transaction has not, so that the padding
    -- now ends beyond 128.
    obtain ⟨reward'', h''⟩ := built_of_construct hT.one_output hthird
    have hle' := size_mono (h'.fixed_le hT h'' (h.le_add hT (Nat.le_add_right _ _) (by omega)))
    obtain ⟨tx, hfit⟩ := h''.fit_lucky
      (by omega : T.size reward'' ≤ T.size rew + (delta - 1)) (by omega) (by omega)
    exact Or.inl ⟨tx, sizeLoop_done hthird hfit⟩

theorem createMinerTx_of_first
    (hfst : T.construct 0 T.txsWeight = some first) (h : T.Built T.txsWeight first rew) :
    T.createMinerTx =
      sizeLoop T.construct T.txsWeight 10 1 (T.txsWeight + ofNat (T.size rew)) := by
  rw [createMinerTx, hfst, ← h.weight_eq]

theorem createMinerTx_pays (hver : 4 ≤ T.version) (h : T.createMinerTx = .ok tx) : ∃ rew,
      getBlockReward T.medianWeight (T.txsWeight + getTransactionWeight tx)
        T.alreadyGeneratedCoins T.version = some rew ∧
      sumAmounts (tx.vout.map MinerOut.amount) = rew + T.fee := by
  rw [createMinerTx] at h
  split at h
  · cases h
  · obtain ⟨no, built, hbuilt, hvout⟩ := sizeLoop_ok h
    obtain ⟨rew, hrew⟩ := built_of_construct hver hbuilt
    exact ⟨rew, hrew.reward_eq, by rw [hvout, hrew.pays.sum_amounts]⟩

/-- The search is stuck exactly if one byte of room is left at a length of 127. -/
theorem stuck_iff (hfst : T.construct 0 T.txsWeight = some first)
    (h : T.Built T.txsWeight first rew)
    (hsnd : T.construct 1 (T.txsWeight + ofNat (T.size rew)) = some second)
    (h' : T.Built (T.txsWeight + ofNat (T.size rew)) second rew') :
    T.Stuck ↔ extraSize T.nonce = 127 ∧ T.size rew = T.size rew' + 1 := by
  have hsize := size_lt h.nonce_le rew
  have hsize' := size_lt h.nonce_le rew'
  have hweights : getTransactionWeight first = getTransactionWeight second + 1 ↔
      T.size rew = T.size rew' + 1 := by
    rw [h.weight_eq, h'.weight_eq]
    have hone : ofNat (T.size rew') + 1 = ofNat (T.size rew' + 1) := by
      rw [ofNat_add]
      rfl
    rw [hone, ← UInt64.add_right_inj T.txsWeight, add_ofNat_inj _ (by omega) (by omega)]
  rw [Stuck, extraSize_eq_iff, ← hweights]
  rw [← h.weight_eq] at hsnd
  constructor
  · rintro ⟨hnonce, first', second', hfst', hsnd', hone⟩
    rw [hfst, Option.some.injEq] at hfst'
    subst hfst'
    rw [hsnd, Option.some.injEq] at hsnd'
    subst hsnd'
    exact ⟨hnonce, hone⟩
  · rintro ⟨hnonce, hone⟩
    exact ⟨hnonce, first, second, hfst, hsnd, hone⟩

theorem createMinerTx_ok_iff (hT : T.Regular) (hfst : T.createMinerTx ≠ .error .firstChance)
    (hsnd : T.createMinerTx ≠ .error .secondChance) :
    (∃ tx, T.createMinerTx = .ok tx) ↔ ¬ T.Stuck := by
  cases hbuilt : T.construct 0 T.txsWeight with
  | none => exact absurd (by rw [createMinerTx, hbuilt]) hfst
  | some first =>
    obtain ⟨rew, h⟩ := built_of_construct hT.one_output hbuilt
    rw [createMinerTx_of_first hbuilt h] at hsnd ⊢
    cases hbuilt' : T.construct 1 (T.txsWeight + ofNat (T.size rew)) with
    | none => exact absurd (sizeLoop_none hbuilt') hsnd
    | some second =>
      obtain ⟨rew', h'⟩ := built_of_construct hT.one_output hbuilt'
      rw [stuck_iff hbuilt h hbuilt' h']
      constructor
      · rintro ⟨tx, hok⟩ ⟨hextra, hone⟩
        have hfail := sizeLoop_stuck hT.one_output hextra h' (by rw [hone]) 10 1
        rw [hok] at hfail
        rcases hfail with hfail | hfail <;> cases hfail
      · intro hfree
        exact (sizeLoop_of_first hT h hbuilt' h' hfree 8).resolve_right hsnd

end Template

/-- The miner transaction of a template pays the reward for the weight the block has with it, and
the fees. It is found unless the search is stuck. -/
theorem create_miner_tx_sizing (T : Template) (hT : T.Regular) :
    (∀ tx, T.createMinerTx = .ok tx → ∃ reward,
      getBlockReward T.medianWeight (T.txsWeight + getTransactionWeight tx)
        T.alreadyGeneratedCoins T.version = some reward ∧
      sumAmounts (tx.vout.map MinerOut.amount) = reward + T.fee) ∧
    (T.createMinerTx ≠ .error .firstChance → T.createMinerTx ≠ .error .secondChance →
      ((∃ tx, T.createMinerTx = .ok tx) ↔ ¬ T.Stuck)) :=
  ⟨fun _ h => Template.createMinerTx_pays hT.one_output h, Template.createMinerTx_ok_iff hT⟩

/-- A template at the median whose fees raise the first amount to 2^42, which takes one byte more
than the amounts below. -/
def crossing (nonceLength : ℕ) : Template where
  keys _ := ⟨Blob.zero 32, fun _ => some (Blob.zero 32, 0)⟩
  height := 3000000
  medianWeight := 300000
  alreadyGeneratedCoins := moneySupply
  txsWeight := 300000
  fee := 2 ^ 42 - 326000000000
  nonce := List.replicate nonceLength 0
  version := 16

theorem crossing_regular (nonceLength : ℕ) : (crossing nonceLength).Regular := by
  refine ⟨?_, ?_, ?_⟩
  · exact (by decide : (4 : UInt8) ≤ 16)
  · exact (by decide : (penaltyMedian 300000 16).toNat < 2 ^ 32)
  · exact (by decide +kernel : (baseReward moneySupply).toNat +
      (2 ^ 42 - 326000000000 : UInt64).toNat < 2 ^ 64)

/-- With a nonce of 91 bytes one zero is added. -/
theorem create_miner_tx_crossing : ∃ tx reward, (crossing 91).createMinerTx = .ok tx ∧
    getBlockReward 300000 (300000 + getTransactionWeight tx) moneySupply 16 = some reward ∧
    sumAmounts (tx.vout.map MinerOut.amount) = reward + (2 ^ 42 - 326000000000) := by
  obtain ⟨hpays, hok⟩ := create_miner_tx_sizing (crossing 91) (crossing_regular 91)
  have hfound : (crossing 91).createMinerTx.toOption.isSome := by decide +kernel
  obtain ⟨tx, htx⟩ := (hok (fun h => by simp [h, Except.toOption] at hfound)
    (fun h => by simp [h, Except.toOption] at hfound)).mpr
      (fun h => by simp [crossing, Template.Stuck] at h)
  obtain ⟨reward, hreward, hsum⟩ := hpays tx htx
  exact ⟨tx, reward, htx, hreward, hsum⟩

/-- With a nonce of 92 bytes every try assumes the same weight. -/
theorem create_miner_tx_stuck : (crossing 92).createMinerTx = .error .noTriesLeft := by
  decide +kernel

end Monzero.MinerTxSizing
