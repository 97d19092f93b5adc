import Monzero.WalletSpendable

/-!
Detaching undoes scanning. A scanned transaction marks transfers as spent and appends
what it sends to the wallet, both with its height. Transactions from a height on leave
marks and transfers that detaching at the height takes away again, as long as they spend
nothing that was spent below it: such a transfer would lose its first mark.
-/
namespace Monzero.WalletDetach

open Primitives AssetConfidential AssetWire AssetRecipient TxExtra WalletAssets WalletConsistency
open List

variable (C : Crypto Key) (H : TransactionHashes) (D : Derivations) (W : Wallet)

/-- The arguments of one call of `scan_asset_outputs`. -/
structure ScannedTx where
  txid : Hash
  tx : Transaction
  height : ℕ
  blockVersion : ℕ
  pool : Bool

/-- One call of `scan_asset_outputs`. -/
def scan (transfers : List AssetTransferDetails) (s : ScannedTx) : List AssetTransferDetails :=
  scanAssetOutputs C H D W s.txid s.tx s.height s.blockVersion s.pool transfers

/-- The calls for a list of transactions, in order. -/
def scanAll (txs : List ScannedTx) (transfers : List AssetTransferDetails) :
    List AssetTransferDetails :=
  txs.foldl (scan C H D W) transfers

/-- The payload a scanned transaction is read for. -/
def scannedPayload (s : ScannedTx) : Option (AssetTransactionPayload Key) :=
  if s.pool = true ∨ s.blockVersion < hfVersionMonzeroAssets then none
  else
    match parseNativeAssetTransaction C H s.tx.toTransactionPrefix s.blockVersion W.nettype with
    | .ok (some p) => some p
    | _ => none

/-- The asset key images that occur in a scanned transaction. -/
def keyImages (s : ScannedTx) : List Key :=
  match scannedPayload C H W s with
  | none => []
  | some p => p.ownershipProofs.map AssetOwnershipProof.keyImage

theorem scan_eq (tds : List AssetTransferDetails) (s : ScannedTx) :
    scan C H D W tds s = (scannedPayload C H W s).elim tds
      fun p => scanPayload C D W s.txid s.height p tds := by
  unfold scan scanAssetOutputs scannedPayload
  split
  · rfl
  · cases parseNativeAssetTransaction C H s.tx.toTransactionPrefix s.blockVersion W.nettype with
    | error e => rfl
    | ok found => cases found <;> rfl

variable {C H D W} {later : List Key} {height markHeight : ℕ}
  {transfers start : List AssetTransferDetails} {image : Key} {td : AssetTransferDetails}
  {txs : List ScannedTx}

theorem scan_invariant (I : List AssetTransferDetails → Prop) {s : ScannedTx}
    (hmark : ∀ transfers, I transfers → ∀ image ∈ keyImages C H W s,
      I (markSpent s.height image transfers))
    (hreceive : ∀ transfers, I transfers → ∀ td : AssetTransferDetails,
      td.blockHeight = s.height → td.spent = false → td.spentHeight = 0 → I (transfers ++ [td]))
    (h : I transfers) : I (scan C H D W transfers s) := by
  rw [scan_eq]
  cases hpay : scannedPayload C H W s with
  | none => exact h
  | some p =>
    rw [keyImages, hpay] at hmark
    rw [Option.elim_some, scanPayload]
    refine List.foldlRecOn (motive := I) _ _ ?_ ?_
    · refine List.foldlRecOn (motive := I) _ _ h ?_
      intro transfers htrs proof hpf
      exact hmark transfers htrs _ (mem_map_of_mem hpf)
    · intro transfers htrs output _
      rcases receiveOutput_cases C D W s.txid s.height p.carrierPrefixHash output.1 output.2
        W.subaddresses transfers with hsame | ⟨id, decoded, subaddress, -, -, hadded⟩
      · rw [hsame]
        exact htrs
      · rw [hadded]
        exact hreceive transfers htrs _ rfl rfl rfl

theorem scanAll_invariant (I : List AssetTransferDetails → Prop) (txs : List ScannedTx)
    (hmark : ∀ s ∈ txs, ∀ transfers, I transfers → ∀ image ∈ keyImages C H W s,
      I (markSpent s.height image transfers))
    (hreceive : ∀ s ∈ txs, ∀ transfers, I transfers → ∀ td : AssetTransferDetails,
      td.blockHeight = s.height → td.spent = false → td.spentHeight = 0 → I (transfers ++ [td]))
    (h : I transfers) : I (scanAll C H D W txs transfers) := by
  refine List.foldlRecOn (motive := I) _ _ h ?_
  intro transfers htrs s hs
  exact scan_invariant I (hmark s hs) (hreceive s hs) htrs

/-! ### Below the height -/

/-- The marks of a list of transfers: what is not spent carries no height, and what was spent
below a height is not among some key images. -/
structure Marked (height : ℕ) (later : List Key) (transfers : List AssetTransferDetails) :
    Prop where
  unspent : ∀ td ∈ transfers, td.spent = false → td.spentHeight = 0
  spent : ∀ td ∈ transfers, td.spent = true → td.spentHeight < height → td.keyImage ∉ later

theorem Marked.markSpent (h : Marked height later transfers)
    (himg : markHeight < height → image ∉ later) :
    Marked height later (markSpent markHeight image transfers) where
  unspent td htd hunspent := by
    rcases mem_markSpent htd with hold | ⟨old, -, -, rfl⟩
    · exact h.unspent td hold hunspent
    · cases hunspent
  spent td htd hspent hbelow := by
    rcases mem_markSpent htd with hold | ⟨old, -, hkey, rfl⟩
    · exact h.spent td hold hspent hbelow
    · exact hkey ▸ himg hbelow

theorem Marked.receive (h : Marked height later transfers)
    (hspent : td.spent = false) (hht : td.spentHeight = 0) :
    Marked height later (transfers ++ [td]) where
  unspent other hother hunspent := by
    rcases mem_append.mp hother with hold | hnew
    · exact h.unspent other hold hunspent
    · rw [mem_singleton.mp hnew, hht]
  spent other hother hspent' := by
    rcases mem_append.mp hother with hold | hnew
    · exact h.spent other hold hspent'
    · rw [mem_singleton.mp hnew, hspent] at hspent'
      cases hspent'

theorem scanAll_below (hbelow : ∀ s ∈ txs, s.height < height)
    (himages : ∀ s ∈ txs, ∀ image ∈ keyImages C H W s, image ∉ later)
    (huntouched : UntouchedFrom height start) (hmarked : Marked height later start) :
    UntouchedFrom height (scanAll C H D W txs start) ∧
      Marked height later (scanAll C H D W txs start) := by
  refine scanAll_invariant
    (fun transfers => UntouchedFrom height transfers ∧ Marked height later transfers) txs ?_ ?_
    ⟨huntouched, hmarked⟩
  · rintro s hs transfers ⟨huntouched, hmarked⟩ image himg
    refine ⟨?_, hmarked.markSpent fun _ => himages s hs image himg⟩
    intro td htd
    rcases mem_markSpent htd with hold | ⟨old, hold, -, rfl⟩
    · exact huntouched td hold
    · exact ⟨(huntouched old hold).1, fun _ => hbelow s hs⟩
  · rintro s hs transfers ⟨huntouched, hmarked⟩ td hht hspent hmark
    refine ⟨?_, hmarked.receive hspent hmark⟩
    intro other hother
    rcases mem_append.mp hother with hold | hnew
    · exact huntouched other hold
    · rw [mem_singleton.mp hnew, hht, hspent]
      exact ⟨hbelow s hs, fun h => by cases h⟩

/-! ### From the height on -/

/-- What detaching makes of one transfer's mark. -/
def unmark (height : ℕ) (td : AssetTransferDetails) : AssetTransferDetails :=
  if td.spent = true ∧ td.spentHeight ≥ height then { td with spent := false, spentHeight := 0 }
  else td

/-- A mark from the height on is taken back, to the state of a transfer that was not spent below
it. -/
theorem unmark_marked {height : ℕ} (hat : height ≤ markHeight)
    (hunspent : td.spent = false → td.spentHeight = 0)
    (hspent : ¬(td.spent = true ∧ td.spentHeight < height)) :
    unmark height { td with spent := true, spentHeight := markHeight } = unmark height td := by
  have hmarked : unmark height { td with spent := true, spentHeight := markHeight } =
      { td with spent := false, spentHeight := 0 } := if_pos ⟨rfl, hat⟩
  rw [hmarked, unmark]
  cases hcase : td.spent with
  | false =>
    rw [if_neg (by simp), ← hunspent hcase, ← hcase]
  | true =>
    rw [if_pos ⟨rfl, Nat.not_lt.mp fun hlt => hspent ⟨hcase, hlt⟩⟩]

theorem detach_eq (height : ℕ) (tds : List AssetTransferDetails) : detachAssetTransfers height tds =
      (tds.map (unmark height)).filter fun td => ¬td.blockHeight ≥ height := rfl

theorem detach_markSpent {height : ℕ} (hat : height ≤ markHeight)
    (himg : image ∈ later) (h : Marked height later transfers) :
    detachAssetTransfers height (markSpent markHeight image transfers) =
      detachAssetTransfers height transfers := by
  rw [detach_eq, detach_eq]
  congr 1
  induction transfers with
  | nil => rfl
  | cons td rest ih =>
    have hrest : Marked height later rest :=
      ⟨fun other hother => h.unspent other (mem_cons_of_mem _ hother),
        fun other hother => h.spent other (mem_cons_of_mem _ hother)⟩
    rw [WalletAssets.markSpent]
    by_cases hown : td.keyImageKnown ∧ td.keyImage = image
    · rw [if_pos hown, map_cons, map_cons, unmark_marked hat (h.unspent td mem_cons_self)]
      rintro ⟨hspent, hbelow⟩
      exact h.spent td mem_cons_self hspent hbelow (hown.2 ▸ himg)
    · rw [if_neg hown, map_cons, map_cons, ih hrest]

theorem detach_receive (hht : height ≤ td.blockHeight) (hspent : td.spent = false) :
    detachAssetTransfers height (transfers ++ [td]) = detachAssetTransfers height transfers := by
  have hsame : unmark height td = td := if_neg (by simp [hspent])
  simp [detach_eq, hsame, hht]

theorem detach_scanAll (habove : ∀ s ∈ txs, height ≤ s.height)
    (h : Marked height (txs.flatMap (keyImages C H W)) start) :
    detachAssetTransfers height (scanAll C H D W txs start) =
      detachAssetTransfers height start := by
  refine (scanAll_invariant (fun transfers =>
    detachAssetTransfers height transfers = detachAssetTransfers height start ∧
      Marked height (txs.flatMap (keyImages C H W)) transfers) txs ?_ ?_ ⟨rfl, h⟩).1
  · rintro s hs transfers ⟨hsame, hmarked⟩ image himg
    have hlater : image ∈ txs.flatMap (keyImages C H W) :=
      mem_flatMap.mpr ⟨s, hs, himg⟩
    refine ⟨(detach_markSpent (habove s hs) hlater hmarked).trans hsame, ?_⟩
    exact hmarked.markSpent fun hlt => absurd hlt (Nat.not_lt.mpr (habove s hs))
  · rintro s hs transfers ⟨hsame, hmarked⟩ td hht hspent hmark
    exact ⟨(detach_receive (hht ▸ habove s hs) hspent).trans hsame, hmarked.receive hspent hmark⟩

/-! ### The whole history -/

theorem split_at_height (h : txs.Pairwise fun a b => a.height ≤ b.height) (height : ℕ) :
    txs = txs.filter (fun s => s.height < height) ++ txs.filter fun s => height ≤ s.height := by
  induction txs with
  | nil => rfl
  | cons s rest ih =>
    obtain ⟨hfst, hrest⟩ := pairwise_cons.mp h
    by_cases hlt : s.height < height
    · rw [filter_cons_of_pos (by simpa using hlt), filter_cons_of_neg (by simpa using hlt),
        cons_append, ← ih hrest]
    · have hnone : rest.filter (fun s => s.height < height) = [] := by
        rw [filter_eq_nil_iff]
        intro s' hs'
        have := hfst s' hs'
        simp only [decide_eq_true_eq]
        omega
      have hall : rest.filter (fun s => height ≤ s.height) = rest := by
        rw [filter_eq_self]
        intro s' hs'
        have := hfst s' hs'
        simp only [decide_eq_true_eq]
        omega
      rw [filter_cons_of_neg (by simpa using hlt), hnone, filter_cons_of_pos
        (by simpa using hlt), hall, nil_append]

/-- A wallet that has received and spent nothing from a height on, and none of whose spent
transfers is spent again by the transactions from there on. -/
structure SettledBelow (C : Crypto Key) (H : TransactionHashes) (W : Wallet) (height : ℕ)
    (txs : List ScannedTx) (start : List AssetTransferDetails) : Prop where
  untouched : UntouchedFrom height start
  marked : Marked height
    ((txs.filter fun s => height ≤ s.height).flatMap (keyImages C H W)) start

theorem settledBelow_nil (height : ℕ) (txs : List ScannedTx) :
    SettledBelow C H W height txs [] where
  untouched := by simp [UntouchedFrom]
  marked := ⟨by simp, by simp⟩

/-- Detaching undoes scanning: after scanning transactions with rising heights in which no asset
key image occurs twice, detaching at any height leaves the transfers that scanning only the
transactions below it gives. -/
theorem detach_undoes_scanning (C : Crypto Key) (H : TransactionHashes) (D : Derivations)
    (W : Wallet) (start : List AssetTransferDetails) (txs : List ScannedTx) (height : ℕ)
    (hstart : SettledBelow C H W height txs start)
    (hheights : txs.Pairwise fun a b => a.height ≤ b.height)
    (himages : txs.Pairwise fun a b =>
      ∀ image ∈ keyImages C H W a, image ∉ keyImages C H W b) :
    detachAssetTransfers height (scanAll C H D W txs start) =
      scanAll C H D W (txs.filter fun s => s.height < height) start := by
  have hsplit := split_at_height hheights height
  have happend : scanAll C H D W txs start = scanAll C H D W (txs.filter fun s => height ≤ s.height)
        (scanAll C H D W (txs.filter fun s => s.height < height) start) := by
    conv_lhs => rw [hsplit]
    exact foldl_append
  have hapart : ∀ s ∈ txs.filter (fun s => s.height < height), ∀ image ∈ keyImages C H W s,
      image ∉ (txs.filter fun s => height ≤ s.height).flatMap (keyImages C H W) := by
    rw [hsplit, pairwise_append] at himages
    intro s hs image himage hmem
    obtain ⟨s', hs', himage'⟩ := mem_flatMap.mp hmem
    exact himages.2.2 s hs s' hs' image himage himage'
  have hbelow := scanAll_below (D := D)
    (fun s hs => of_decide_eq_true (mem_filter.mp hs).2) hapart hstart.untouched hstart.marked
  rw [happend, detach_scanAll (fun s hs => of_decide_eq_true (mem_filter.mp hs).2) hbelow.2,
    (detach_eq_self_iff ..).mpr hbelow.1]

section Sample

open ToyCrypto ToyNode

def sampleHistory : List ScannedTx :=
  paidTxs.zipIdx.map fun e =>
    { txid := toyHashes.txHash e.1, tx := e.1, height := e.2 + 1,
      blockVersion := hfVersionMonzeroAssets, pool := false }

/-- The wallet spends what it received and receives it again; detaching at the height of the
payment takes both back. -/
theorem detach_undoes_payment :
    (scanAll toy toyHashes sumDerivations sumWallet sampleHistory []).map
      (fun td => (td.blockHeight, td.spent, td.spentHeight)) = [(1, true, 2), (2, false, 0)] ∧
    detachAssetTransfers 2 (scanAll toy toyHashes sumDerivations sumWallet sampleHistory []) =
      scanAll toy toyHashes sumDerivations sumWallet
        (sampleHistory.filter fun s => s.height < 2) [] := by
  exact ⟨by decide +kernel, detach_undoes_scanning toy toyHashes sumDerivations sumWallet []
    sampleHistory 2 (settledBelow_nil 2 sampleHistory) (by decide +kernel) (by decide +kernel)⟩

end Sample

end Monzero.WalletDetach
