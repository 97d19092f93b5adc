import Monzero.WalletConsistency

/-!
What the unspent transfers of a wallet are worth. Transfers are told apart by output id, but
they are spent by one-time key, and nothing on the chain keeps two outputs from having the
same one. The known key images of the unspent transfers are pairwise different exactly when
the one-time keys of different unspent outputs and the key images of these keys are, and
then no two inputs of a transfer share a key image.
-/
namespace Monzero.WalletSpendable

open Bytes Checked Primitives AssetWire AssetRecipient TxExtra TxMemoryPool Blockchain NodeRuns List
  Runs WalletAssets WalletConsistency ToyCrypto ToyNode

variable {C : Crypto Key} {H : TransactionHashes} {D : Derivations} {W : Wallet}

/-- The transfers that count towards a balance and whose key image the wallet knows. -/
def spendable (transfers : List AssetTransferDetails) : List AssetTransferDetails :=
  transfers.filter fun td => td.spent = false ∧ td.keyImageKnown = true

/-- What a scan keeps: the output ids of the transfers differ, and a known key image is that of
the one-time key. -/
structure Found (W : Wallet) (transfers : List AssetTransferDetails) : Prop where
  ids : (transfers.map AssetTransferDetails.outputId).Nodup
  images : ∀ td ∈ transfers, td.keyImageKnown = true → ∃ derivation,
    W.keyImageOf td.destination derivation td.outputIndex td.subaddrIndex = some td.keyImage

theorem map_markSpent {β : Type} (f : AssetTransferDetails → β)
    (hf : ∀ td height, f { td with spent := true, spentHeight := height } = f td) (height : ℕ)
    (ki : Key) (tds : List AssetTransferDetails) : (markSpent height ki tds).map f = tds.map f := by
  induction tds with
  | nil => rfl
  | cons td rest ih =>
    rw [markSpent]
    split
    · rw [map_cons, map_cons, hf]
    · rw [map_cons, map_cons, ih]

/-- The fields that say which output a transfer is and how it is spent. -/
def identity (td : AssetTransferDetails) : Hash × Key × Key × Bool × ℕ × SubaddressIndex :=
  (td.outputId, td.destination, td.keyImage, td.keyImageKnown, td.outputIndex, td.subaddrIndex)

variable {transfers : List AssetTransferDetails}

theorem Found.of_identity {transfers' : List AssetTransferDetails} (h : Found W transfers)
    (hsame : transfers'.map identity = transfers.map identity) : Found W transfers' := by
  refine ⟨?_, ?_⟩
  · have hids : transfers'.map AssetTransferDetails.outputId =
        transfers.map AssetTransferDetails.outputId := by
      have hfst := congrArg (List.map Prod.fst) hsame
      rw [map_map, map_map] at hfst
      exact hfst
    rw [hids]
    exact h.ids
  · intro td' htd' hknown
    have hmem : identity td' ∈ transfers.map identity := hsame ▸ mem_map_of_mem htd'
    obtain ⟨td, htd, heq⟩ := mem_map.mp hmem
    simp only [identity, Prod.mk.injEq] at heq
    obtain ⟨-, hdest, himg, hknown', hidx, hsub⟩ := heq
    rw [← hdest, ← himg, ← hidx, ← hsub]
    exact h.images td htd (hknown'.trans hknown)

theorem found_markSpent (h : Found W transfers) (height : ℕ) (ki : Key) :
    Found W (markSpent height ki transfers) :=
  h.of_identity (map_markSpent identity (fun _ _ => rfl) height ki transfers)

theorem found_receiveOutput (h : Found W transfers) (txid : Hash) (height : ℕ) (car : Hash)
    (out : PayloadOutput Key) (index : ℕ) (subs : List (PublicKey × SubaddressIndex)) :
    Found W (receiveOutput C D W txid height car out index subs transfers) := by
  rcases receiveOutput_cases C D W txid height car out index subs transfers with
    hsame | ⟨id, dec, sub, -, hnew, hadded⟩
  · rw [hsame]
    exact h
  · rw [hadded]
    refine ⟨?_, ?_⟩
    · rw [map_append, nodup_append]
      refine ⟨h.ids, nodup_singleton _, ?_⟩
      intro a ha b hb hab
      obtain ⟨td, htd, rfl⟩ := mem_map.mp ha
      obtain rfl := mem_singleton.mp hb
      exact hnew td htd hab
    · intro td htd hknown
      rcases mem_append.mp htd with htd | htd
      · exact h.images td htd hknown
      · rw [mem_singleton.mp htd] at hknown ⊢
        obtain ⟨image, himg⟩ := Option.isSome_iff_exists.mp hknown
        have hderived := himg
        unfold receivedKeyImage at hderived
        split at hderived
        · obtain ⟨derivation, -, hkey⟩ := Option.bind_eq_some_iff.mp hderived
          refine ⟨derivation, ?_⟩
          simp only [receivedDetails, himg, Option.getD_some]
          exact hkey
        · cases hderived

theorem found_scanPayload (h : Found W transfers) (txid : Hash) (height : ℕ)
    (p : AssetTransactionPayload Key) : Found W (scanPayload C D W txid height p transfers) := by
  unfold scanPayload
  refine List.foldlRecOn (motive := Found W) _ _ ?_ ?_
  · refine List.foldlRecOn (motive := Found W) _ _ h ?_
    intro tds' htrs pf _
    exact found_markSpent htrs height pf.keyImage
  · intro tds' htrs out _
    exact found_receiveOutput htrs txid height p.carrierPrefixHash out.1 out.2 W.subaddresses

theorem found_processNewTransaction (h : Found W transfers) (txid : Hash) (tx : Transaction)
    (height ver : ℕ) (pool : Bool) :
    Found W (processNewTransaction C H D W txid tx height ver pool transfers) := by
  unfold processNewTransaction scanAssetOutputs
  split
  · exact h
  · split
    · exact h
    · exact h
    · exact found_scanPayload h txid height _

theorem found_scanChain (bs : List StoredBlock) : Found W (scanChain C H D W bs) := by
  induction bs with
  | nil => exact ⟨nodup_nil, by simp [scanChain]⟩
  | cons b below ih =>
    rw [scanChain]
    unfold processNewBlockchainEntry
    split
    · exact ih
    · refine List.foldlRecOn (motive := Found W) _ _ ?_ ?_
      · split
        · exact ih
        · exact found_processNewTransaction ih ..
      · intro transfers htrs ent _
        exact found_processNewTransaction htrs ..

/-- Where the key image is a function of the one-time key, those of the spendable transfers are
pairwise different exactly if different outputs have different one-time keys and these have
different key images. -/
theorem Found.images_nodup_iff (h : Found W transfers) {image : Key → Key}
    (himage : ∀ destination derivation index subaddress keyImage,
      W.keyImageOf destination derivation index subaddress = some keyImage →
        keyImage = image destination) :
    ((spendable transfers).map AssetTransferDetails.keyImage).Nodup ↔
      (∀ a ∈ spendable transfers, ∀ b ∈ spendable transfers,
        a.destination = b.destination → a.outputId = b.outputId) ∧
      ∀ a ∈ spendable transfers, ∀ b ∈ spendable transfers,
        image a.destination = image b.destination → a.destination = b.destination := by
  have hknown : ∀ td ∈ spendable transfers, td.keyImage = image td.destination := by
    intro td htd
    obtain ⟨htd, hunspent⟩ := mem_filter.mp htd
    obtain ⟨derivation, hderived⟩ := h.images td htd (of_decide_eq_true hunspent).2
    exact himage _ _ _ _ _ hderived
  have hids : ((spendable transfers).map AssetTransferDetails.outputId).Nodup :=
    h.ids.sublist (filter_sublist.map _)
  constructor
  · intro hnodup
    have hsame : ∀ a ∈ spendable transfers, ∀ b ∈ spendable transfers,
        image a.destination = image b.destination → a = b := by
      intro a ha b hb himages
      refine inj_on_of_nodup_map hnodup ha hb ?_
      rw [hknown a ha, hknown b hb, himages]
    refine ⟨fun a ha b hb heq => ?_, fun a ha b hb heq => ?_⟩
    · rw [hsame a ha b hb (congrArg image heq)]
    · rw [hsame a ha b hb heq]
  · rintro ⟨hkeys, hinjective⟩
    refine List.Nodup.map_on ?_ (List.Nodup.of_map _ hids)
    intro a ha b hb himages
    rw [hknown a ha, hknown b hb] at himages
    exact inj_on_of_nodup_map hids ha hb (hkeys a ha b hb (hinjective a ha b hb himages))

variable {res : List AssetTransferDetails × UInt64}

theorem selectLoop_taken (required : UInt64) (candidates sel : List AssetTransferDetails)
    (total : UInt64) (h : selectLoop D W required candidates sel total = .ok res) :
    ∃ taken, res.1 = sel ++ taken ∧ taken <+: candidates := by
  induction candidates generalizing sel total with
  | nil =>
    cases h
    exact ⟨[], by simp, nil_prefix⟩
  | cons td rest ih =>
    rw [selectLoop] at h
    split at h
    · cases h
      exact ⟨[], by simp, nil_prefix⟩
    · simp only [bind_eq_ok, exists_unit] at h
      obtain ⟨-, -, h⟩ := h
      split at h
      · cases h
        exact ⟨[td], rfl, prefix_iff_eq_take.mpr rfl⟩
      · obtain ⟨taken, hres, htaken⟩ := ih _ _ h
        refine ⟨td :: taken, ?_, (prefix_cons_inj td).mpr htaken⟩
        rw [hres, append_assoc]
        rfl

theorem selectAssetInputs_subperm {req : AssetTransferRequest}
    (h : selectAssetInputs D W req transfers = .ok res) :
    List.Subperm res.1 (spendable transfers) := by
  simp only [selectAssetInputs, bind_eq_ok, exists_unit] at h
  obtain ⟨-, -, -, -, -, h⟩ := h
  cases hact : req.assetsActive with
  | none =>
    rw [hact] at h
    cases h
  | some active =>
    simp only [hact, bind_eq_ok, exists_unit] at h
    obtain ⟨-, sel, hsel, -, h⟩ := h
    cases h
    obtain ⟨taken, hres, htaken⟩ := selectLoop_taken _ _ _ _ hsel
    rw [nil_append] at hres
    rw [hres]
    have heligible : (transfers.filter (isEligible req)).Sublist (spendable transfers) := by
      refine monotone_filter_right _ fun td htd => ?_
      have hfacts := of_decide_eq_true htd
      exact decide_eq_true ⟨hfacts.2.1, hfacts.2.2.1⟩
    exact htaken.sublist.subperm.trans ((perm_insertionSort _ _).subperm.trans heligible.subperm)

def otherCollection : AssetTypes.IssuanceDescriptor :=
  unitDescriptor .mainnet .collection 2 nullHash nullHash

/-- The issuance of another collection, to the same address with the same transaction key. -/
def otherIssue : Transaction := issuanceTx 2 otherCollection

/-- The issuance with a transaction key of its own. -/
def freshIssue : Transaction :=
  carry 2 { issuance 2 otherCollection with
    outputRecipients := [[{ recipient 22 with txPublicKey := keyOfNat 10 }]] }

/-- The node after both issuances, and the two transfers that the wallet finds. -/
def freshNode : Node := withBlock startNode [firstIssue, freshIssue] [firstIssue, freshIssue]

end Monzero.WalletSpendable
