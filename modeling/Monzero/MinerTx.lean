import Monzero.Emission
import Monzero.SortedExtra

/-!
The miner transaction. Its outputs pay the reward of the block and the fees; from version 4
on there is one output, and none when there is nothing to pay. Its extra field holds the key
of the transaction and the nonce the miner asked for. The weight is the size of its bytes.
-/
namespace Monzero.MinerTx

open Bytes Primitives Emission TxExtra TxExtraRoundTrip SortedExtra Buckets List

/-- An output to a key, with a view tag from `HF_VERSION_VIEW_TAGS` on. -/
structure MinerOut where
  amount : UInt64
  key : PublicKey
  viewTag : Option UInt8
deriving DecidableEq

/-- A miner transaction: one input, no ring signature. -/
structure Coinbase where
  version : ℕ
  unlockTime : UInt64
  height : UInt64
  vout : List MinerOut
  extra : List UInt8
deriving DecidableEq

/-- `txout_target_v` of an output. -/
def writeTarget (o : MinerOut) : List UInt8 :=
  match o.viewTag with
  | none => 0x02 :: o.key.bytes
  | some tag => 0x03 :: (o.key.bytes ++ [tag])

def writeOut (o : MinerOut) : List UInt8 := writeVarint o.amount.toNat ++ writeTarget o

/-- The bytes of a miner transaction. One of version 1 ends with its prefix; later ones have the
type of their signatures, `RCTTypeNull`. -/
def writeCoinbase (tx : Coinbase) : List UInt8 :=
  writeVarint tx.version ++ writeVarint tx.unlockTime.toNat ++ writeVarint 1 ++
    0xFF :: writeVarint tx.height.toNat ++ writeVarint tx.vout.length ++ tx.vout.flatMap writeOut ++
    writeVarint tx.extra.length ++ tx.extra ++ if tx.version = 1 then [] else [0x00]

def getTransactionWeight (tx : Coinbase) : UInt64 := UInt64.ofNat (writeCoinbase tx).length

/-- The loop of `decompose_amount_into_digits`, from the lowest digit up. A 64-bit number has at
most twenty digits. -/
def decomposeLoop (dustThreshold : UInt64) :
    ℕ → UInt64 → UInt64 → UInt64 → Bool → List UInt64
  | 0, _, _, dust, handled => if handled = false ∧ dust ≠ 0 then [dust] else []
  | fuel + 1, amount, order, dust, handled =>
      if amount = 0 then (if handled = false ∧ dust ≠ 0 then [dust] else [])
      else
        let chunk := amount % 10 * order
        if dust + chunk ≤ dustThreshold then
          decomposeLoop dustThreshold fuel (amount / 10) (order * 10) (dust + chunk) handled
        else
          (if handled = false ∧ dust ≠ 0 then [dust] else []) ++
            (if chunk ≠ 0 then [chunk] else []) ++
            decomposeLoop dustThreshold fuel (amount / 10) (order * 10) dust
              (handled || dust ≠ 0)

def decomposeAmountIntoDigits (amount dustThreshold : UInt64) : List UInt64 :=
  decomposeLoop dustThreshold 20 amount 1 0 false

/-- The first two amounts are added until there are no more than the limit. -/
def mergeAmounts (maxOuts : ℕ) : UInt64 → List UInt64 → List UInt64
  | first, [] => [first]
  | first, second :: rest =>
      if maxOuts < rest.length + 2 then mergeAmounts maxOuts (second + first) rest
      else first :: second :: rest

def baseRewardClampThreshold : UInt64 := 10000000

def defaultDustThreshold : UInt64 := 200000000

/-- The keys of one call: a new transaction key, and for each output the key and the view tag
derived from it and the miner's address. -/
structure MinerKeys where
  txPub : PublicKey
  out : ℕ → Option (PublicKey × UInt8)

def addExtraNonceToTxExtra (extra nonce : List UInt8) : Option (List UInt8) :=
  if nonce.length ≤ txExtraNonceMaxCount then some (extra ++ 0x02 :: writeString nonce) else none

/-- The extra field of `construct_miner_tx`. -/
def minerExtra (keys : MinerKeys) (nonce : List UInt8) : Option (List UInt8) := do
  let extra := 0x01 :: keys.txPub.bytes
  let extra ← if nonce = [] then some extra else addExtraNonceToTxExtra extra nonce
  sortTxExtra extra false

/-- The amounts of the outputs. -/
def outAmounts (blockReward height : UInt64) (maxOuts : ℕ) (version : UInt8) :
    Option (List UInt64) :=
  let amounts :=
    decomposeAmountIntoDigits blockReward (if version ≥ 2 then 0 else defaultDustThreshold)
  if maxOuts = 0 then none
  else if height = 0 ∨ version ≥ 4 then
    match amounts with
    | [] => some []
    | first :: rest => some (mergeAmounts maxOuts first rest)
  else if maxOuts ≥ amounts.length then some amounts
  else none

def makeOut (keys : MinerKeys) (version : UInt8) (amount : UInt64) (no : ℕ) : Option MinerOut := do
  let (key, tag) ← keys.out no
  return ⟨amount, key, if version ≥ 15 then some tag else none⟩

def constructMinerTx (keys : MinerKeys) (height medianWeight alreadyGeneratedCoins
    currentBlockWeight fee : UInt64) (nonce : List UInt8) (maxOuts : ℕ) (version : UInt8) :
    Option Coinbase := do
  let extra ← minerExtra keys nonce
  let reward ← getBlockReward medianWeight currentBlockWeight alreadyGeneratedCoins version
  let paid := reward + fee
  let blockReward :=
    if version ≥ 2 ∧ version < 4 then paid - paid % baseRewardClampThreshold else paid
  let amounts ← outAmounts blockReward height maxOuts version
  let vout ← amounts.zipIdx.mapM fun a => makeOut keys version a.1 a.2
  if amounts.foldl (· + ·) 0 ≠ blockReward then none
  else some ⟨if version ≥ 4 then 2 else 1, height + 60, height, vout, extra⟩

/-- The sum of amounts, in 64 bits. -/
def sumAmounts (amounts : List UInt64) : UInt64 := amounts.foldl (· + ·) 0

theorem foldl_add_eq (amts : List UInt64) (start : UInt64) :
    amts.foldl (· + ·) start = start + sumAmounts amts := by
  induction amts generalizing start with
  | nil => simp [sumAmounts]
  | cons a rest ih =>
    rw [sumAmounts, foldl_cons, foldl_cons, ih, ih (0 + a)]
    grind

theorem sumAmounts_cons (a : UInt64) (rest : List UInt64) :
    sumAmounts (a :: rest) = a + sumAmounts rest := by
  rw [sumAmounts, foldl_cons, foldl_add_eq]
  grind

variable {ver : UInt8} (amt : UInt64)

theorem toNat_div_ten : (amt / 10).toNat = amt.toNat / 10 := by
  rw [UInt64.toNat_div]
  rfl

theorem digit_add : amt % 10 + amt / 10 * 10 = amt := by
  have hten : (10 : UInt64).toNat = 10 := rfl
  have hlt := amt.toNat_lt
  apply UInt64.toNat_inj.mp
  rw [UInt64.toNat_add, UInt64.toNat_mul, UInt64.toNat_mod, UInt64.toNat_div, hten]
  omega

/-- Without a dust threshold the digits that are not zero add up to the amount. -/
theorem sum_decomposeLoop (fuel : ℕ) (amt order : UInt64) (handled : Bool)
    (hfuel : amt.toNat < 10 ^ fuel) :
    sumAmounts (decomposeLoop 0 fuel amt order 0 handled) = amt * order := by
  induction fuel generalizing amt order handled with
  | zero =>
    have hzero : amt = 0 := UInt64.toNat_inj.mp (by simpa using hfuel)
    simp [decomposeLoop, sumAmounts, hzero]
  | succ fuel ih =>
    rw [decomposeLoop]
    by_cases hzero : amt = 0
    · simp [hzero, sumAmounts]
    have hnext : (amt / 10).toNat < 10 ^ fuel := by
      rw [toNat_div_ten]
      rw [pow_succ] at hfuel
      omega
    have hsplit : amt * order = amt % 10 * order + amt / 10 * (order * 10) := by
      conv_lhs => rw [← digit_add amt]
      grind
    rw [if_neg hzero]
    dsimp only
    rw [UInt64.zero_add]
    by_cases hchunk : amt % 10 * order = 0
    · rw [hchunk, if_pos (by decide), ih _ _ _ hnext, hsplit, hchunk, UInt64.zero_add]
    · have hpos : ¬ amt % 10 * order ≤ 0 := by
        simpa using hchunk
      rw [if_neg hpos, if_neg (by simp), if_pos hchunk, nil_append, singleton_append,
        sumAmounts_cons, ih _ _ _ hnext, hsplit]

theorem sum_decomposeAmountIntoDigits : sumAmounts (decomposeAmountIntoDigits amt 0) = amt := by
  have hlt := amt.toNat_lt
  rw [decomposeAmountIntoDigits, sum_decomposeLoop 20 amt 1 false (by omega), UInt64.mul_one]

theorem decomposeAmountIntoDigits_eq_nil_iff : decomposeAmountIntoDigits amt 0 = [] ↔ amt = 0 := by
  constructor
  · intro hnil
    rw [← sum_decomposeAmountIntoDigits amt, hnil]
    rfl
  · rintro rfl
    rfl

theorem mergeAmounts_one (first : UInt64) (rest : List UInt64) :
    mergeAmounts 1 first rest = [first + sumAmounts rest] := by
  induction rest generalizing first with
  | nil => simp [mergeAmounts, sumAmounts]
  | cons second rest ih =>
    have hmove : second + first + sumAmounts rest = first + (second + sumAmounts rest) := by grind
    rw [mergeAmounts, if_pos (by omega), ih, sumAmounts_cons, hmove]

variable {height : UInt64} {m n : ℕ} {keys : MinerKeys} {o : MinerOut} {nonce : List UInt8}
  {tx : Coinbase}

/-- From version 4 on there is one output, or none when there is nothing to pay. -/
theorem outAmounts_eq {blockReward : UInt64} (hver : 4 ≤ ver) :
    outAmounts blockReward height 1 ver = some (if blockReward = 0 then [] else [blockReward]) := by
  have htwo : ver ≥ 2 := UInt8.le_trans (by decide : (2 : UInt8) ≤ 4) hver
  rw [outAmounts]
  simp only [if_pos htwo, if_neg Nat.one_ne_zero, if_pos (Or.inr hver)]
  have hsum := sum_decomposeAmountIntoDigits blockReward
  have hnil := decomposeAmountIntoDigits_eq_nil_iff blockReward
  cases hdig : decomposeAmountIntoDigits blockReward 0 with
  | nil => rw [if_pos (hnil.mp hdig)]
  | cons first rest =>
    rw [hdig, sumAmounts_cons] at hsum
    have hne : blockReward ≠ 0 := fun h => by simp [hnil.mpr h] at hdig
    rw [if_neg hne, ← hsum, ← mergeAmounts_one]

/-- The number of bytes of a varint. -/
def varintSize (n : ℕ) : ℕ := (writeVarint n).length

theorem length_writeVarintBytes_mono (fuel : ℕ) (hle : m ≤ n) :
    (writeVarintBytes fuel m).length ≤ (writeVarintBytes fuel n).length := by
  induction fuel generalizing m n with
  | zero => rfl
  | succ fuel ih =>
    rw [writeVarintBytes, writeVarintBytes]
    by_cases hm : m < 128
    · rw [if_pos hm]
      split <;> simp
    · rw [if_neg hm, if_neg (by omega), length_cons, length_cons]
      exact Nat.succ_le_succ (ih (Nat.div_le_div_right hle))

theorem varintSize_mono (hle : m ≤ n) : varintSize m ≤ varintSize n :=
  length_writeVarintBytes_mono 10 hle

theorem varintSize_le (n : ℕ) : varintSize n ≤ 10 := length_writeVarintBytes_le 10 n

theorem varintSize_of_lt (h : n < 128) : varintSize n = 1 := by
  simp [varintSize, writeVarint, writeVarintBytes, h]

theorem varintSize_pos (n : ℕ) : 1 ≤ varintSize n :=
  (varintSize_of_lt (by omega : 0 < 128)).ge.trans (varintSize_mono (Nat.zero_le n))

theorem varintSize_of_lt_sq (hlarge : 128 ≤ n) (h : n < 16384) : varintSize n = 2 := by
  have hnext : n / 128 < 128 := by omega
  simp [varintSize, writeVarint, writeVarintBytes, hnext, hlarge.not_gt]

def minerFields (keys : MinerKeys) (nonce : List UInt8) : List TxExtraField :=
  .pubKey keys.txPub :: if nonce = [] then [] else [.nonce nonce]

theorem minerExtra_eq (keys : MinerKeys) (nonce : List UInt8) : minerExtra keys nonce =
      if nonce.length ≤ 255 then some ((minerFields keys nonce).flatMap writeField) else none := by
  have hsort (fs : List TxExtraField) (hwritable : ∀ f ∈ fs, Writable f)
      (horder : gather fieldTag sortOrder fs = fs) :
      sortTxExtra (fs.flatMap writeField) false = some (fs.flatMap writeField) := by
    have hprs := parsed_written_append hwritable .nil
    rw [append_nil, append_nil] at hprs
    rw [sortTxExtra_eq, parseTxExtra_of_parsed hprs, Option.map_some, horder]
  rw [minerExtra, minerFields]
  by_cases hemp : nonce = []
  · have hkey := hsort [.pubKey keys.txPub] (by simp [Writable])
      (by simp [gather, sortOrder, fieldTag])
    simpa [hemp, writeField] using hkey
  · by_cases hlen : nonce.length ≤ 255
    · have hboth := hsort [.pubKey keys.txPub, .nonce nonce]
        (by simp [Writable, txExtraNonceMaxCount, hlen]) (by simp [gather, sortOrder, fieldTag])
      simpa [hemp, hlen, writeField, addExtraNonceToTxExtra, txExtraNonceMaxCount] using hboth
    · simp [hemp, hlen, addExtraNonceToTxExtra, txExtraNonceMaxCount]

/-- The size of the extra field before any padding. -/
def extraSize (nonce : List UInt8) : ℕ :=
  33 + if nonce = [] then 0 else 1 + varintSize nonce.length + nonce.length

theorem length_minerFields (keys : MinerKeys) (nonce : List UInt8) :
    ((minerFields keys nonce).flatMap writeField).length = extraSize nonce := by
  rw [minerFields, extraSize]
  split
  · simp [writeField]
  · simp only [writeField, writeString, varintSize, flatMap_cons, flatMap_nil,
      length_append, length_cons, Blob.size_eq, length_nil]
    omega

/-- A miner transaction of version 2 with one output of the amount, or none for nothing. -/
structure Pays (tx : Coinbase) (height : UInt64) (version : UInt8) (amount : UInt64) : Prop where
  version_eq : tx.version = 2
  unlock_eq : tx.unlockTime = height + 60
  height_eq : tx.height = height
  amounts_eq : tx.vout.map MinerOut.amount = if amount = 0 then [] else [amount]
  tagged : ∀ o ∈ tx.vout, o.viewTag.isSome = decide (version ≥ 15)

theorem sum_paid (paid : UInt64) : sumAmounts (if paid = 0 then [] else [paid]) = paid := by
  split
  · rename_i hzero
    rw [hzero]
    rfl
  · simp [sumAmounts]

theorem makeOut_spec {amt : UInt64} {no : ℕ} (h : makeOut keys ver amt no = some o) :
    o.amount = amt ∧ o.viewTag.isSome = decide (ver ≥ 15) := by
  simp only [makeOut, Option.bind_eq_bind, Option.bind_eq_some_iff, Option.pure_def,
    Option.some.injEq] at h
  obtain ⟨out, -, rfl⟩ := h
  refine ⟨rfl, ?_⟩
  by_cases htags : ver ≥ 15 <;> simp [htags]

theorem makeOuts_spec {amts : List UInt64} {k : ℕ} {vout : List MinerOut}
    (h : (amts.zipIdx k).mapM (fun a => makeOut keys ver a.1 a.2) = some vout) :
    vout.map MinerOut.amount = amts ∧ ∀ o ∈ vout, o.viewTag.isSome = decide (ver ≥ 15) := by
  induction amts generalizing k vout with
  | nil =>
    cases h
    exact ⟨rfl, by simp⟩
  | cons amt rest ih =>
    simp only [zipIdx_cons, mapM_cons, Option.bind_eq_bind, Option.bind_eq_some_iff,
      Option.pure_def, Option.some.injEq] at h
    obtain ⟨o, ho, others, hothers, rfl⟩ := h
    obtain ⟨hamt, htag⟩ := makeOut_spec ho
    obtain ⟨hamts, htags⟩ := ih hothers
    exact ⟨by rw [map_cons, hamt, hamts], forall_mem_cons.mpr ⟨htag, htags⟩⟩

theorem constructMinerTx_spec {med agc cbw fee : UInt64} (hver : 4 ≤ ver)
    (h : constructMinerTx keys height med agc cbw fee nonce 1 ver = some tx) :
    ∃ rew, getBlockReward med cbw agc ver = some rew ∧
      Pays tx height ver (rew + fee) ∧ tx.extra.length = extraSize nonce ∧ nonce.length ≤ 255 := by
  have hlate : ¬ (ver ≥ 2 ∧ ver < 4) := fun hand => UInt8.not_lt.mpr hver hand.2
  simp only [constructMinerTx, minerExtra_eq, outAmounts_eq hver, if_neg hlate,
    Option.bind_eq_bind, Option.bind_eq_some_iff, Option.some.injEq, exists_eq_left',
    if_pos (show ver ≥ 4 from hver)] at h
  obtain ⟨extra, hextra, rew, hrew, vout, hvout, htx⟩ := h
  split at hextra
  on_goal 2 => cases hextra
  rename_i hnonce
  have hsum := sum_paid (rew + fee)
  rw [sumAmounts] at hsum
  rw [if_neg (not_not.mpr hsum)] at htx
  rw [Option.some.injEq] at hextra htx
  subst htx
  obtain ⟨hamts, htags⟩ := makeOuts_spec hvout
  exact ⟨rew, hrew, ⟨rfl, rfl, rfl, hamts, htags⟩, by rw [← hextra, length_minerFields], hnonce⟩

/-- The bytes before the extra field, and the type of the signatures after it. -/
def fixedSize (height : UInt64) (version : UInt8) (amount : UInt64) : ℕ :=
  5 + varintSize (height + 60).toNat + varintSize height.toNat +
    if amount = 0 then 0 else varintSize amount.toNat + 33 + if version ≥ 15 then 1 else 0

theorem length_writeOut (htag : o.viewTag.isSome = decide (ver ≥ 15)) : (writeOut o).length =
      varintSize o.amount.toNat + 33 + if ver ≥ 15 then 1 else 0 := by
  rw [writeOut, writeTarget, length_append]
  cases hview : o.viewTag with
  | none =>
    have hnot : ¬ ver ≥ 15 := by simpa [hview] using htag
    simp [varintSize, hnot]
  | some tag =>
    have htags : ver ≥ 15 := by simpa [hview] using htag.symm
    simp [varintSize, htags]

theorem Pays.length_writeCoinbase {amt : UInt64} (h : Pays tx height ver amt) :
    (writeCoinbase tx).length =
      fixedSize height ver amt + varintSize tx.extra.length + tx.extra.length := by
  have hone : (writeVarint 1).length = 1 := varintSize_of_lt (by omega)
  have htwo : (writeVarint 2).length = 1 := varintSize_of_lt (by omega)
  have houts : (writeVarint tx.vout.length).length + (tx.vout.flatMap writeOut).length =
      1 + if amt = 0 then 0 else
        varintSize amt.toNat + 33 + if ver ≥ 15 then 1 else 0 := by
    have hamts := h.amounts_eq
    by_cases hzero : amt = 0
    · rw [if_pos hzero, map_eq_nil_iff] at hamts
      rw [hamts, if_pos hzero]
      rfl
    · rw [if_neg hzero, map_eq_singleton_iff] at hamts
      obtain ⟨o, hvout, rfl⟩ := hamts
      rw [hvout, if_neg hzero, flatMap_singleton, length_singleton, hone,
        length_writeOut (h.tagged o (by simp [hvout]))]
  simp only [writeCoinbase, h.version_eq, h.unlock_eq, h.height_eq, length_append,
    length_cons, hone, htwo, fixedSize, varintSize] at houts ⊢
  simp only [OfNat.ofNat_ne_one, if_false, length_singleton]
  omega

theorem Pays.sum_amounts {amt : UInt64}
    (h : Pays tx height ver amt) : sumAmounts (tx.vout.map MinerOut.amount) = amt := by
  rw [h.amounts_eq, sum_paid]

theorem fixedSize_mono (height : UInt64) (ver : UInt8) {amt amt' : UInt64}
    (hle : amt ≤ amt') : fixedSize height ver amt ≤ fixedSize height ver amt' := by
  have hsize := varintSize_mono (UInt64.le_iff_toNat_le.mp hle)
  rw [fixedSize, fixedSize]
  by_cases hzero : amt = 0
  · rw [if_pos hzero]
    omega
  · have hzero' : amt' ≠ 0 := fun h => hzero (UInt64.le_zero_iff.mp (h ▸ hle))
    rw [if_neg hzero, if_neg hzero']
    omega

theorem fixedSize_le (height : UInt64) (ver : UInt8) (amt : UInt64) :
    fixedSize height ver amt ≤ 69 := by
  have hunlock := varintSize_le (height + 60).toNat
  have hht := varintSize_le height.toNat
  have hamt := varintSize_le amt.toNat
  rw [fixedSize]
  split
  · omega
  · split <;> omega

theorem extraSize_eq_iff (nonce : List UInt8) : extraSize nonce = 127 ↔ nonce.length = 92 := by
  rw [extraSize]
  by_cases hemp : nonce = []
  · simp [hemp]
  · rw [if_neg hemp]
    by_cases hshort : nonce.length < 128
    · rw [varintSize_of_lt hshort]
      omega
    · have hcnt := varintSize_pos nonce.length
      omega

theorem extraSize_le (h : nonce.length ≤ 255) : extraSize nonce ≤ 291 := by
  have hsize : varintSize nonce.length ≤ 2 :=
    (varintSize_mono h).trans (varintSize_of_lt_sq (by omega) (by omega)).le
  rw [extraSize]
  split <;> omega

end Monzero.MinerTx
