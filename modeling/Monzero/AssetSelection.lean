import Monzero.AssetBuilders
import Monzero.GreedyCover
import Monzero.Tally
import Monzero.WalletSpendable

/-!
The inputs of an asset transfer. The wallet goes through its eligible transfers from the
greatest amount down until the amount is reached or the sixteen inputs of a balance group
are used. When the eligible amounts together fit 64 bits and the spend keys can be derived
again, this finds a cover whenever sixteen transfers can cover the amount, with as few
transfers as possible, and what is left over is the change.
-/
namespace Monzero.AssetSelection

open Bytes Checked AssetConfidential AssetRecipient AssetBuilders WalletAssets WalletSpendable List
  ComparatorSort GreedyCover Tally

def changeAmount (request : AssetTransferRequest) (total : UInt64) : UInt64 :=
  total - (request.transferAmount + request.burnAmount)

/-- The destinations of a transfer: the recipient, the change, and an output of amount zero when
there is neither. -/
def transferDestinations (request : AssetTransferRequest) (recipient : AccountPublicAddress)
    (recipientIsSubaddress : Bool) (changeAddress : AccountPublicAddress) (total : UInt64) :
    List AssetTransferDestination :=
  let change : AssetTransferDestination :=
    { address := changeAddress, isSubaddress := request.subaddrAccount ≠ 0,
      amount := changeAmount request total }
  let destinations :=
    (if request.transferAmount ≠ 0 then
      [{ address := recipient, isSubaddress := recipientIsSubaddress,
         amount := request.transferAmount }] else []) ++
    if changeAmount request total ≠ 0 then [change] else []
  if destinations = [] then [{ change with amount := 0 }] else destinations

/-- The wallet and the request pass the checks before the selection. -/
structure Admitted (W : Wallet) (request : AssetTransferRequest) : Prop where
  lightWallet : request.lightWallet = false
  full : ¬(W.watchOnly = true ∨ W.multisig = true ∨ W.backgroundSyncing = true ∨
    request.isBackgroundWallet = true)
  softwareDevice : request.softwareDevice = true
  nonzero : ¬(request.transferAmount = 0 ∧ request.burnAmount = 0)
  fits : request.transferAmount.toNat + request.burnAmount.toNat < 2 ^ 64
  active : request.assetsActive = some true

/-- What the transfer and the burn need together. -/
def required (request : AssetTransferRequest) : ℕ :=
  request.transferAmount.toNat + request.burnAmount.toNat

/-- The transfers of the wallet that can be inputs. -/
def eligible (request : AssetTransferRequest) (transfers : List AssetTransferDetails) :
    List AssetTransferDetails :=
  transfers.filter (isEligible request)

/-- The amount of a transfer as a number. -/
def worth (td : AssetTransferDetails) : ℕ := td.amount.toNat

variable {D : Derivations} {W : Wallet}

/-! ### The order of the candidates -/

/-- What the candidates are compared by. -/
def candidateKey (td : AssetTransferDetails) : ℕᵒᵈ ×ₗ List ℕ :=
  toLex (OrderDual.toDual (worth td), digits td.outputId)

theorem spentBefore_compares : ComparesBy spentBefore candidateKey := by
  intro a b
  rw [spentBefore, candidateKey, candidateKey, Prod.Lex.toLex_lt_toLex, OrderDual.toDual_lt_toDual,
    OrderDual.toDual_inj]
  by_cases h : a.amount = b.amount
  · rw [if_neg (not_not.mpr h), memcmpLt_iff]
    simp [worth, h]
  · rw [if_pos h, decide_eq_true_eq, gt_iff_lt, UInt64.lt_iff_toNat_lt]
    have hworth : worth a ≠ worth b := fun heq => h (UInt64.toNat_inj.mp heq)
    simp only [hworth, false_and, or_false]
    rfl

/-- The candidates in the order in which they are tried. -/
def candidates (request : AssetTransferRequest) (transfers : List AssetTransferDetails) :
    List AssetTransferDetails :=
  sortBy spentBefore (eligible request transfers)

theorem candidates_perm (req : AssetTransferRequest) (tds : List AssetTransferDetails) :
    (candidates req tds).Perm (eligible req tds) :=
  sortBy_perm _ _

theorem candidates_heaviestFirst (req : AssetTransferRequest) (tds : List AssetTransferDetails) :
    HeaviestFirst worth (candidates req tds) := by
  refine (sortBy_pairwise spentBefore_compares _).imp ?_
  intro a b h
  rw [candidateKey, candidateKey, Prod.Lex.toLex_le_toLex] at h
  rcases h with h | ⟨h, -⟩
  · exact le_of_lt (OrderDual.toDual_lt_toDual.mp h)
  · exact (OrderDual.toDual_inj.mp h).ge

/-! ### The loop -/

/-- The loop takes a front part of the candidates. It goes on while the amount is not reached,
and stops when it is, at the end, or at sixteen inputs. -/
theorem selectLoop_spec (amt : UInt64) (rest sel : List AssetTransferDetails)
    (total : UInt64) (hkeys : ∀ td ∈ rest, regenerates D W td = true)
    (hfits : total.toNat + weigh worth rest < 2 ^ 64)
    (hcap : sel.length ≤ maxConfidentialAssetInputs) :
    ∃ n sum, selectLoop D W amt rest sel total = .ok (sel ++ rest.take n, sum) ∧
      sum.toNat = total.toNat + weigh worth (rest.take n) ∧ n ≤ rest.length ∧
      sel.length + n ≤ maxConfidentialAssetInputs ∧
      (∀ m, 0 < m → m < n → total.toNat + weigh worth (rest.take m) < amt.toNat) ∧
      (amt.toNat ≤ sum.toNat ∨ n = rest.length ∨ sel.length + n = maxConfidentialAssetInputs) := by
  induction rest generalizing sel total with
  | nil => exact ⟨0, total, by simp [selectLoop], by simp, by simp, hcap, by simp, by simp⟩
  | cons td rest ih =>
    rw [selectLoop]
    by_cases hfull : sel.length = maxConfidentialAssetInputs
    · refine ⟨0, total, ?_, by simp, by simp, hcap, by simp, Or.inr (Or.inr hfull)⟩
      simp [hfull]
      rfl
    · have hkey := hkeys td mem_cons_self
      have hworth : worth td = td.amount.toNat := rfl
      rw [weigh_cons] at hfits
      have hroom : ¬td.amount > 18446744073709551615 - total := by
        rw [gt_sub_iff]
        omega
      have hsum : (total + td.amount).toNat = total.toNat + worth td := by
        rw [UInt64.toNat_add, Nat.mod_eq_of_lt (by omega)]
        rfl
      have hgoes : ¬regenerates D W td = false := by simp [hkey]
      simp only [hfull, if_false, failIf_of_not _ hroom, failIf_of_not _ hgoes, ok_bind]
      by_cases hreached : total + td.amount ≥ amt
      · rw [if_pos hreached]
        rw [ge_iff_le, UInt64.le_iff_toNat_le] at hreached
        refine ⟨1, total + td.amount, rfl, by simpa using hsum, by simp, by omega, ?_,
          Or.inl hreached⟩
        intro m hm hlt
        omega
      · rw [if_neg hreached]
        rw [ge_iff_le, UInt64.le_iff_toNat_le, hsum] at hreached
        obtain ⟨n, sum, hrun, hval, hn, hins, hbelow, hstop⟩ :=
          ih (sel ++ [td]) (total + td.amount)
            (fun other hother => hkeys other (mem_cons_of_mem _ hother))
            (by rw [hsum]; omega) (by rw [length_append, length_singleton]; omega)
        rw [length_append, length_singleton] at hins hstop
        refine ⟨n + 1, sum, ?_, ?_, by simpa using hn, by omega, ?_, by rw [length_cons]; omega⟩
        · rw [hrun, take_succ_cons, append_assoc, singleton_append]
        · rw [hval, hsum, take_succ_cons, weigh_cons, Nat.add_assoc]
        · intro m hm hlt
          obtain ⟨k, rfl⟩ := Nat.exists_eq_succ_of_ne_zero hm.ne'
          rw [take_succ_cons, weigh_cons]
          by_cases hk : k = 0
          · subst hk
            simpa using hreached
          · have hpre := hbelow k (Nat.pos_of_ne_zero hk) (by omega)
            rw [hsum] at hpre
            omega

/-- The selection from the front: the first `n` candidates, where no fewer reach the amount. -/
structure Front (request : AssetTransferRequest) (transfers selected : List AssetTransferDetails)
    (total : UInt64) (n : ℕ) : Prop where
  taken : selected = (candidates request transfers).take n
  length_eq : selected.length = n
  value : total.toNat = weigh worth selected
  cap : n ≤ maxConfidentialAssetInputs
  shorter : ∀ m < n, weigh worth ((candidates request transfers).take m) < required request
  stopped : required request ≤ total.toNat ∨
    n = (candidates request transfers).length ∨ n = maxConfidentialAssetInputs

theorem required_eq {req : AssetTransferRequest} (h : Admitted W req) :
    (req.transferAmount + req.burnAmount).toNat = required req := by
  rw [UInt64.toNat_add, Nat.mod_eq_of_lt h.fits]
  rfl

theorem required_pos {req : AssetTransferRequest} (h : Admitted W req) : 0 < required req := by
  have hnonzero := h.nonzero
  rw [← UInt64.toNat_inj, ← UInt64.toNat_inj] at hnonzero
  simp only [UInt64.toNat_zero] at hnonzero
  rw [required]
  omega

/-- With the keys at hand and the amounts in range, the wallet selects from the front, and fails
only when that is not enough. -/
theorem exists_front {req : AssetTransferRequest} {tds : List AssetTransferDetails}
    (hadm : Admitted W req) (hfits : weigh worth (eligible req tds) < 2 ^ 64)
    (hkeys : ∀ td ∈ eligible req tds, regenerates D W td = true) :
    ∃ sel total n, Front req tds sel total n ∧ ∀ res, selectAssetInputs D W req tds = .ok res ↔
        required req ≤ total.toNat ∧ (sel, total) = res := by
  have hperm := candidates_perm req tds
  obtain ⟨n, total, hrun, hval, hn, hcap, hshorter, hstopped⟩ :=
    selectLoop_spec (D := D) (W := W) (req.transferAmount + req.burnAmount)
      (candidates req tds) [] 0 (fun td htd => hkeys td (hperm.mem_iff.mp htd))
      (by simpa [weigh_perm hperm] using hfits) (Nat.zero_le _)
  simp only [nil_append, UInt64.toNat_zero, Nat.zero_add, length_nil,
    required_eq hadm] at hrun hval hcap hshorter hstopped
  refine ⟨_, total, n, ⟨rfl, by rw [length_take, Nat.min_eq_left hn], hval, hcap, ?_, hstopped⟩, ?_⟩
  · intro m hm
    by_cases hzero : m = 0
    · subst hzero
      simpa using required_pos hadm
    · exact hshorter m (Nat.pos_of_ne_zero hzero) hm
  · intro res
    have hroom : ¬req.transferAmount > 18446744073709551615 - req.burnAmount := by
      rw [gt_sub_iff]
      have := hadm.fits
      omega
    have hsort : (tds.filter (isEligible req)).insertionSort
        (fun a b => spentBefore b a = false) = candidates req tds := rfl
    simp only [selectAssetInputs, bind_eq_ok, failIf_eq_ok, exists_unit, pure_eq_ok,
      hadm.active, hadm.lightWallet, hadm.full, hadm.softwareDevice,
      hadm.nonzero, hroom, hsort, hrun, Except.ok.injEq, exists_eq_left',
      Bool.false_eq_true, Bool.true_eq_false, not_false_eq_true, true_and]
    rw [UInt64.lt_iff_toNat_lt, required_eq hadm, not_lt]

namespace Front

variable {req : AssetTransferRequest} {tds sel : List AssetTransferDetails}
  {total : UInt64} {n : ℕ}

theorem subperm (h : Front req tds sel total n) : sel.Subperm (eligible req tds) := by
  rw [h.taken]
  exact (take_sublist _ _).subperm.trans (candidates_perm req tds).subperm

theorem reaches (h : Front req tds sel total n) {cover : List AssetTransferDetails}
    (hcover : List.Sublist cover (eligible req tds))
    (hlen : cover.length ≤ maxConfidentialAssetInputs)
    (hcovers : required req ≤ weigh worth cover) : required req ≤ total.toNat := by
  have hcandidates := hcover.subperm.trans (candidates_perm req tds).symm.subperm
  have hbest := weigh_le_front hcandidates (candidates_heaviestFirst req tds)
  rcases h.stopped with hreached | hend | hfull
  · exact hreached
  all_goals
    have hn : cover.length ≤ n := by
      have := hcandidates.length_le
      omega
    rw [h.value, h.taken]
    exact hcovers.trans (hbest.trans (weigh_take_le_of_le hn))

theorem length_le (h : Front req tds sel total n) {cover : List AssetTransferDetails}
    (hcover : List.Sublist cover (eligible req tds))
    (hcovers : required req ≤ weigh worth cover) : sel.length ≤ cover.length := by
  rw [h.length_eq]
  exact length_le_of_covers (candidates_heaviestFirst req tds) h.shorter
    (hcover.subperm.trans (candidates_perm req tds).symm.subperm) hcovers

end Front

def paid (destination : AssetTransferDestination) : ℕ := destination.amount.toNat

theorem weigh_destinations (req : AssetTransferRequest) (rcpt : AccountPublicAddress)
    (recipientIsSubaddress : Bool) (changeAddress : AccountPublicAddress) (total : UInt64) :
    weigh paid (transferDestinations req rcpt recipientIsSubaddress changeAddress total) =
      req.transferAmount.toNat + (changeAmount req total).toNat := by
  by_cases htr : req.transferAmount = 0
  · by_cases hchange : changeAmount req total = 0
    · simp [transferDestinations, htr, hchange, paid]
    · simp [transferDestinations, htr, hchange, paid]
  · by_cases hchange : changeAmount req total = 0
    · simp [transferDestinations, htr, hchange, paid]
    · simp [transferDestinations, htr, hchange, paid]

/-- Asset input selection is complete and minimal. It succeeds exactly when at most sixteen
eligible transfers cover the amount, and then takes as few eligible transfers as any cover has,
each once; the change is what they are worth beyond the amount. -/
theorem asset_input_selection (D : Derivations) (W : Wallet) (request : AssetTransferRequest)
    (transfers : List AssetTransferDetails) (hadmitted : Admitted W request)
    (hfits : weigh worth (eligible request transfers) < 2 ^ 64)
    (hkeys : ∀ td ∈ eligible request transfers, regenerates D W td = true) :
    ((∃ result, selectAssetInputs D W request transfers = .ok result) ↔
      ∃ cover, List.Sublist cover (eligible request transfers) ∧
        cover.length ≤ maxConfidentialAssetInputs ∧ required request ≤ weigh worth cover) ∧
    ∀ selected total, selectAssetInputs D W request transfers = .ok (selected, total) →
      List.Subperm selected (eligible request transfers) ∧
      selected.length ≤ maxConfidentialAssetInputs ∧
      total.toNat = weigh worth selected ∧ required request ≤ total.toNat ∧
      (∀ cover, List.Sublist cover (eligible request transfers) →
        required request ≤ weigh worth cover → selected.length ≤ cover.length) ∧
      (changeAmount request total).toNat = weigh worth selected - required request ∧
      ∀ recipient recipientIsSubaddress changeAddress,
        weigh paid (transferDestinations request recipient recipientIsSubaddress changeAddress
          total) + request.burnAmount.toNat = weigh worth selected := by
  obtain ⟨selected, total, n, hfront, hselect⟩ := exists_front hadmitted hfits hkeys
  constructor
  · constructor
    · rintro ⟨result, hresult⟩
      obtain ⟨hreached, -⟩ := (hselect result).mp hresult
      obtain ⟨cover, hcover, hcoverSub⟩ := hfront.subperm
      refine ⟨cover, hcoverSub, ?_, ?_⟩
      · rw [hcover.length_eq, hfront.length_eq]
        exact hfront.cap
      · rwa [weigh_perm hcover, ← hfront.value]
    · rintro ⟨cover, hcover, hlength, hcovers⟩
      exact ⟨(selected, total), (hselect _).mpr ⟨hfront.reaches hcover hlength hcovers, rfl⟩⟩
  · intro selected' total' hresult
    obtain ⟨hreached, heq⟩ := (hselect _).mp hresult
    obtain ⟨rfl, rfl⟩ := Prod.mk.inj heq
    have hle : request.transferAmount + request.burnAmount ≤ total := by
      rwa [UInt64.le_iff_toNat_le, required_eq hadmitted]
    have hchange : (changeAmount request total).toNat =
        weigh worth selected - required request := by
      rw [changeAmount, UInt64.toNat_sub_of_le _ _ hle, required_eq hadmitted, hfront.value]
    refine ⟨hfront.subperm, hfront.length_eq ▸ hfront.cap, hfront.value, hreached,
      fun cover hcover hcovers => hfront.length_le hcover hcovers, hchange, ?_⟩
    intro recipient recipientIsSubaddress changeAddress
    rw [weigh_destinations, hchange]
    rw [hfront.value] at hreached
    simp only [required] at hreached ⊢
    omega

section Sample

open ToyCrypto WalletConsistency

/-- A transfer of one asset that the wallet can spend. -/
def sampleTransfer (id : ℕ) (amount : UInt64) : AssetTransferDetails where
  assetId := keyOfNat 7
  outputId := keyOfNat id
  txid := keyOfNat 1
  blockHeight := 3
  outputIndex := 0
  amount := amount
  mask := keyOfNat 0
  subaddrIndex := { major := 0, minor := 0 }
  destination := keyOfNat id
  txPublicKey := keyOfNat 9
  keyImage := keyOfNat id
  keyImageKnown := true
  spent := false
  spentHeight := 0

def sampleTransfers : List AssetTransferDetails :=
  [sampleTransfer 1 2, sampleTransfer 2 5, { sampleTransfer 3 9 with spent := true },
    sampleTransfer 4 4]

def sampleRequest : AssetTransferRequest where
  assetId := keyOfNat 7
  transferAmount := 6
  burnAmount := 1
  subaddrAccount := 0
  subaddrIndices := []
  lightWallet := false
  isBackgroundWallet := false
  softwareDevice := true
  assetsActive := some true

/-- Seven units out of two, five and four: the two greatest are taken, and two units are
change. -/
theorem asset_input_selection_two_of_three :
    selectAssetInputs sumDerivations sumWallet sampleRequest sampleTransfers =
      .ok ([sampleTransfer 2 5, sampleTransfer 4 4], 9) ∧
    (changeAmount sampleRequest 9).toNat = 2 ∧
    ∀ cover, List.Sublist cover (eligible sampleRequest sampleTransfers) →
      7 ≤ weigh worth cover → 2 ≤ cover.length := by
  have hselect : selectAssetInputs sumDerivations sumWallet sampleRequest sampleTransfers =
      .ok ([sampleTransfer 2 5, sampleTransfer 4 4], 9) := by decide +kernel
  have h := (asset_input_selection sumDerivations sumWallet sampleRequest sampleTransfers
    ⟨rfl, by decide, rfl, by decide, by decide, rfl⟩ (by decide +kernel) (by decide +kernel)).2 _ _
    hselect
  exact ⟨hselect, h.2.2.2.2.2.1, h.2.2.2.2.1⟩

end Sample

end Monzero.AssetSelection
