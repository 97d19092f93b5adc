import Monzero.SenderLaws

/-!
The commitments of a transfer. The destinations are filled up with zero amounts, a burn
takes the last place, and every place has a mask of its own. Together they are commitments
to amounts and masks with the sums of the inputs, so they balance.
-/
namespace Monzero.TransferCommitments

open Primitives AssetConfidential AssetRecipient AssetBuilders SenderLaws List

variable {C : Crypto Key} {D : Derivations} {S : SenderPrimitives} {coins : Coins} {order : ℕ}
  {dests : List AssetTransferDestination} {burn : UInt64}

/-! ### Padding -/

theorem padDestinations_eq (count : ℕ) (h : dests ≠ []) :
    ∃ last ∈ dests, padDestinations count dests =
      dests ++ List.replicate (count - dests.length) { last with amount := 0 } := by
  refine ⟨dests.getLast h, getLast_mem h, ?_⟩
  rw [padDestinations, getLast?_eq_some_getLast h]

theorem length_padDestinations {count : ℕ} (h : dests ≠ []) (hcnt : dests.length ≤ count) :
    (padDestinations count dests).length = count := by
  obtain ⟨last, -, heq⟩ := padDestinations_eq count h
  rw [heq, length_append, length_replicate]
  omega

theorem sum_padDestinations {count : ℕ} (h : dests ≠ []) :
    ((padDestinations count dests).map fun d => d.amount.toNat).sum =
      (dests.map fun d => d.amount.toNat).sum := by
  obtain ⟨last, -, heq⟩ := padDestinations_eq count h
  rw [heq, map_append, sum_append, map_replicate, sum_replicate]
  simp

theorem address_of_padded {A : Arithmetic C D S order} {count : ℕ} (h : dests ≠ [])
    (haddresses : ∀ d ∈ dests, ValidAddress A d.address) :
    ∀ d ∈ padDestinations count dests, ValidAddress A d.address := by
  obtain ⟨last, hlast, heq⟩ := padDestinations_eq count h
  intro d hd
  rw [heq] at hd
  rcases mem_append.mp hd with hd | hd
  · exact haddresses d hd
  · rw [eq_of_mem_replicate hd]
    exact haddresses last hlast

/-! ### Commitments -/

theorem outputs_add_burns (burn : UInt64) :
    maxConfidentialAssetOutputs - burnOutputs burn + burnOutputs burn =
      maxConfidentialAssetOutputs := by
  rw [burnOutputs]
  split <;> rfl

theorem map_zipIdx_fst {α β : Type} (f : α → β) (l : List α) :
    (l.zipIdx.map fun e => f e.1) = l.map f := by
  conv_rhs => rw [← zipIdx_map_fst 0 l, map_map]
  rfl

theorem zipWith_append_left {α β γ : Type} (f : α → β → γ) (l l' : List α) (m : List β) :
    List.zipWith f (l ++ l') m = List.zipWith f l m ++ List.zipWith f l' (m.drop l.length) := by
  induction l generalizing m with
  | nil => simp
  | cons a rest ih =>
    cases m with
    | nil => simp
    | cons b m => simp [ih]

theorem amounts_transferOutputs (n : ℕ) :
    (transferOutputs C S coins n dests burn).map OutputOrder.amount =
      ((padDestinations (maxConfidentialAssetOutputs - burnOutputs burn)
        dests).zip (transferMasks C S coins n)).map fun e => e.1.amount := by
  rw [transferOutputs, map_map]
  exact map_zipIdx_fst (fun e : AssetTransferDestination × Key => e.1.amount) _

theorem commitments_transferOutputs (n : ℕ) :
    ((transferOutputs C S coins n dests burn).map fun o => C.commit o.amount o.mask) =
      List.zipWith C.commit ((padDestinations (maxConfidentialAssetOutputs - burnOutputs burn)
        dests).map AssetTransferDestination.amount) (transferMasks C S coins n) := by
  rw [transferOutputs, map_map, zipWith_map_left, ← map_uncurry_zip_eq_zipWith]
  exact map_zipIdx_fst (fun e : AssetTransferDestination × Key => C.commit e.1.amount e.2) _

section Padded

variable (hnonempty : dests ≠ [])
  (hlimit : dests.length ≤ maxConfidentialAssetOutputs - burnOutputs burn)

include hnonempty hlimit

theorem proofAmounts_eq (n : ℕ) : proofAmounts (transferOutputs C S coins n dests burn) burn =
      (padDestinations (maxConfidentialAssetOutputs - burnOutputs burn) dests).map
        AssetTransferDestination.amount ++ if burn = 0 then [] else [burn] := by
  have hlen := length_padDestinations hnonempty hlimit
  have hmasks := length_transferMasks C S coins n
  have hfst : ((padDestinations (maxConfidentialAssetOutputs - burnOutputs burn)
      dests).zip (transferMasks C S coins n)).map Prod.fst =
        padDestinations (maxConfidentialAssetOutputs - burnOutputs burn) dests :=
    map_fst_zip (by omega)
  rw [proofAmounts, amounts_transferOutputs]
  congr 1
  conv_rhs => rw [← hfst, map_map]
  rfl

theorem length_proofAmounts {n : ℕ} :
    (proofAmounts (transferOutputs C S coins n dests burn) burn).length =
      maxConfidentialAssetOutputs := by
  have hburn : (if burn = 0 then [] else [burn]).length = burnOutputs burn := by
    rw [burnOutputs]
    split <;> rfl
  rw [proofAmounts_eq hnonempty hlimit, length_append, length_map,
    length_padDestinations hnonempty hlimit, hburn, outputs_add_burns]

theorem commitments_eq (n : ℕ) :
    ((transferOutputs C S coins n dests burn).map fun o => C.commit o.amount o.mask) ++
        burnCommitments C S coins n burn =
      List.zipWith C.commit (proofAmounts (transferOutputs C S coins n dests burn) burn)
        (transferMasks C S coins n) := by
  have hmasks := length_transferMasks C S coins n
  rw [proofAmounts_eq hnonempty hlimit, zipWith_append_left, commitments_transferOutputs,
    length_map, length_padDestinations hnonempty hlimit, burnCommitments, burnOutputs]
  congr 1
  by_cases hzero : burn = 0
  · simp [hzero]
  · have hne : transferMasks C S coins n ≠ [] := by
      intro hnil
      rw [hnil] at hmasks
      cases hmasks
    have hlast : (transferMasks C S coins n).drop (maxConfidentialAssetOutputs - 1) =
        [(transferMasks C S coins n).getLastD C.zero] := by
      rw [← hmasks, drop_length_sub_one hne, getLastD_eq_getLast?,
        getLast?_eq_some_getLast hne, Option.getD_some]
    rw [if_neg hzero, if_neg hzero, if_neg hzero, hlast]
    rfl

theorem sum_proofAmounts (n : ℕ) : ((proofAmounts (transferOutputs C S coins n dests burn) burn).map
      UInt64.toNat).sum = (dests.map fun d => d.amount.toNat).sum + burn.toNat := by
  rw [proofAmounts_eq hnonempty hlimit, map_append, sum_append, map_map]
  congr 1
  · exact sum_padDestinations hnonempty
  · split
    · rename_i hzero
      rw [hzero]
      rfl
    · simp

theorem commitments_balance (A : Arithmetic C D S order) (hcoins : Reduced S coins) (aid : Hash)
    {ins : List AssetTransferInput} (hcon : (ins.map fun input => input.amount.toNat).sum =
      (dests.map fun d => d.amount.toNat).sum + burn.toNat) :
    C.addKeys ((transferPseudoInputs C coins aid ins).map ConfidentialPseudoInput.commitment) =
      C.addKeys (List.zipWith C.commit
        (proofAmounts (transferOutputs C S coins ins.length dests burn) burn)
        (transferMasks C S coins ins.length)) := by
  obtain ⟨amts, hamts⟩ : ∃ amts, proofAmounts (transferOutputs C S coins ins.length
    dests burn) burn = amts := ⟨_, rfl⟩
  obtain ⟨masks, hmasks⟩ : ∃ masks, transferMasks C S coins ins.length = masks := ⟨_, rfl⟩
  have hlen : amts.length = masks.length := by
    rw [← hamts, ← hmasks, length_transferMasks, length_proofAmounts hnonempty hlimit]
  have hpseudo : (transferPseudoInputs C coins aid ins).map ConfidentialPseudoInput.commitment =
        (ins.zipIdx.map fun e => (e.1.amount, coins.pseudoMask e.2)).map fun e =>
          C.commit e.1 e.2 := by
    rw [transferPseudoInputs, map_map, map_map]
    rfl
  have hzip : List.zipWith C.commit amts masks =
      (amts.zip masks).map fun e => C.commit e.1 e.2 := by
    rw [← map_uncurry_zip_eq_zipWith]
    rfl
  have hsum : ((ins.zipIdx.map fun e => (e.1.amount, coins.pseudoMask e.2)).map
      fun e => e.1.toNat).sum = ((amts.zip masks).map fun e => e.1.toNat).sum := by
    have hfst : (amts.zip masks).map Prod.fst = amts := map_fst_zip hlen.le
    have htoNat : ((amts.zip masks).map fun e => e.1.toNat) = amts.map UInt64.toNat := by
      conv_rhs => rw [← hfst, map_map]
      rfl
    rw [htoNat, ← hamts, sum_proofAmounts hnonempty hlimit, ← hcon, map_map]
    exact congrArg List.sum (map_zipIdx_fst (fun input => input.amount.toNat) ins)
  have hmaskSum : ((ins.zipIdx.map fun e => (e.1.amount, coins.pseudoMask e.2)).map
      fun e => A.scalar e.2).sum = ((amts.zip masks).map fun e => A.scalar e.2).sum := by
    have hsnd : (amts.zip masks).map Prod.snd = masks := map_snd_zip hlen.ge
    have hscalar : ((amts.zip masks).map fun e => A.scalar e.2) = masks.map A.scalar := by
      conv_rhs => rw [← hsnd, map_map]
      rfl
    have hrange : ins.zipIdx.map Prod.snd = List.range ins.length := by
      rw [zipIdx_map_snd, range_eq_range']
    rw [hscalar, ← hmasks, sum_transferMasks A hcoins, ← hrange, map_map, map_map]
    rfl
  have hreduced : ∀ e ∈ ins.zipIdx.map fun e => (e.1.amount, coins.pseudoMask e.2),
      S.scCheck e.2 = true := by
    intro e he
    obtain ⟨e, -, rfl⟩ := mem_map.mp he
    exact hcoins.pseudoMask e.2
  have hreduced' : ∀ e ∈ amts.zip masks, S.scCheck e.2 = true := by
    intro e he
    exact transferMasks_reduced A hcoins ins.length _ (hmasks ▸ (of_mem_zip he).2)
  rw [hamts, hmasks, hpseudo, hzip, addKeys_commitments A hreduced,
    addKeys_commitments A hreduced', hsum, hmaskSum]

end Padded

end Monzero.TransferCommitments
