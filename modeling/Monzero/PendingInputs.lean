import Monzero.TxExtra
import Mathlib.Data.Finset.Basic
import Mathlib.Data.Finset.Dedup
import Mathlib.Data.Finset.Lattice.Lemmas

/-!
The check of a saved transaction against the wallet. The indexes saved with the transaction
select outputs of the wallet, and the inputs of the transaction have to spend exactly these.
-/
namespace Monzero.PendingInputs

open Bytes Primitives TxExtra List

/-- What the check reads of `transfer_details`. -/
structure TransferImage where
  keyImageKnown : Bool
  keyImagePartial : Bool
  keyImage : Key

/-- An output the check accepts. -/
def TransferImage.Usable (output : TransferImage) : Prop :=
  output.keyImageKnown = true ∧ output.keyImagePartial = false ∧ output.keyImage ≠ Blob.zero 32

section Check

variable (transferCount : ℕ) (lookup : ℕ → TransferImage)

/-- The loop over the selected indexes, with the indexes and the key images already seen. -/
def collectImages : List ℕ → Finset ℕ → Finset Key → Option (Finset Key)
  | [], _, images => some images
  | idx :: rest, indices, images =>
      if transferCount ≤ idx ∨ idx ∈ indices then none
      else
        let output := lookup idx
        if output.keyImageKnown = false ∨ output.keyImagePartial = true ∨
            output.keyImage = Blob.zero 32 ∨ output.keyImage ∈ images then none
        else collectImages rest (insert idx indices) (insert output.keyImage images)

/-- The loop over the inputs: each takes its key image out of the set. -/
def eraseImages : List TxIn → Finset Key → Option (Finset Key)
  | [], images => some images
  | .gen _ :: _, _ => none
  | .toKey keyImage :: rest, images =>
      if keyImage ∈ images then eraseImages rest (images.erase keyImage) else none

def pendingInputsMatchWallet (tx : TransactionPrefix) (selected : List ℕ) : Bool :=
  if selected = [] ∨ selected.length ≠ tx.vin.length then false
  else
    match collectImages transferCount lookup selected ∅ ∅ with
    | none => false
    | some images => eraseImages tx.vin images == some ∅

end Check

variable {cnt : ℕ} {lookup : ℕ → TransferImage} {images left : Finset Key}
  {sel : List ℕ}

theorem collectImages_eq_some (idxs : Finset ℕ) :
    collectImages cnt lookup sel idxs images = some left ↔
      (∀ idx ∈ sel, idx < cnt ∧ idx ∉ idxs ∧ (lookup idx).Usable ∧ (lookup idx).keyImage ∉ images) ∧
      sel.Nodup ∧ (sel.map fun idx => (lookup idx).keyImage).Nodup ∧
      left = images ∪ (sel.map fun idx => (lookup idx).keyImage).toFinset := by
  -- An index or an image of the rest that is not in the enlarged set is in neither the set nor
  -- the head.
  induction sel generalizing idxs images with
  | nil => simp [collectImages, @eq_comm _ left]
  | cons idx rest ih =>
    simp only [collectImages, TransferImage.Usable] at ih ⊢
    split_ifs with hidx himage
    · simp only [forall_mem_cons, false_iff]
      rintro ⟨⟨⟨hlt, hnot, -⟩, -⟩, -⟩
      exact hidx.elim (by omega) hnot
    · simp only [forall_mem_cons, false_iff]
      rintro ⟨⟨⟨-, -, ⟨hknown, hpartial, hnull⟩, hnot⟩, -⟩, -⟩
      simp_all
    · rw [ih]
      simp only [not_or, not_le, Bool.not_eq_false, Bool.not_eq_true] at hidx himage
      simp only [Finset.mem_insert, not_or, forall_mem_cons, map_cons, nodup_cons, toFinset_cons,
        Finset.insert_union, Finset.union_insert]
      grind

theorem eraseImages_eq_some {vin : List TxIn} : eraseImages vin images = some left ↔
      ∃ keys : List Key, keys.map .toKey = vin ∧ keys.Nodup ∧ (∀ k ∈ keys, k ∈ images) ∧
        left = images \ keys.toFinset := by
  induction vin generalizing images with
  | nil => simp [eraseImages, @eq_comm _ left]
  | cons input rest ih =>
    cases input with
    | gen height => simp [eraseImages, map_eq_cons_iff]
    | toKey ki =>
      simp only [eraseImages]
      split_ifs with hmem
      · rw [ih]
        constructor
        · rintro ⟨keys, rfl, hnodup, hin, rfl⟩
          refine ⟨ki :: keys, rfl, ?_, ?_, ?_⟩
          · exact nodup_cons.mpr ⟨fun h => by simpa using hin _ h, hnodup⟩
          · simpa [hmem] using fun k hk => (Finset.mem_erase.mp (hin k hk)).2
          · simp [Finset.sdiff_insert, Finset.erase_sdiff_comm]
        · rintro ⟨keys, hvin, hnodup, hin, rfl⟩
          obtain ⟨key, tail, rfl, hkey, rfl⟩ := map_eq_cons_iff.mp hvin
          cases hkey
          rw [nodup_cons] at hnodup
          refine ⟨tail, rfl, hnodup.2, fun k hk => ?_, ?_⟩
          · exact Finset.mem_erase.mpr ⟨fun h => hnodup.1 (h ▸ hk), hin k (mem_cons_of_mem _ hk)⟩
          · simp [Finset.sdiff_insert, Finset.erase_sdiff_comm]
      · simp only [false_iff]
        rintro ⟨keys, hvin, -, hin, -⟩
        obtain ⟨key, tail, rfl, hkey, -⟩ := map_eq_cons_iff.mp hvin
        cases hkey
        exact hmem (hin _ mem_cons_self)

/-- The check passes exactly for inputs that spend the selected outputs, each once. -/
theorem pending_inputs_match_iff (tx : TransactionPrefix) (selected : List ℕ) (transferCount : ℕ)
    (lookup : ℕ → TransferImage) :
    pendingInputsMatchWallet transferCount lookup tx selected = true ↔
      selected ≠ [] ∧ selected.Nodup ∧ (∀ idx ∈ selected, idx < transferCount) ∧
      (∀ idx ∈ selected, (lookup idx).Usable) ∧
      (selected.map fun idx => (lookup idx).keyImage).Nodup ∧
      ∃ keys : List Key, tx.vin = keys.map .toKey ∧ keys.Nodup ∧
        ∀ k, k ∈ keys ↔ ∃ idx ∈ selected, (lookup idx).keyImage = k := by
  rw [pendingInputsMatchWallet]
  constructor
  · intro h
    split_ifs at h with hsizes
    rw [not_or] at hsizes
    cases hcollect : collectImages transferCount lookup selected ∅ ∅ with
    | none => simp [hcollect] at h
    | some images =>
      simp only [hcollect, beq_iff_eq] at h
      obtain ⟨hsel, hidx, himages, rfl⟩ := (collectImages_eq_some _).mp hcollect
      obtain ⟨keys, hvin, hkeys, hin, hall⟩ := eraseImages_eq_some.mp h
      refine ⟨hsizes.1, hidx, fun i hi => (hsel i hi).1, fun i hi => (hsel i hi).2.2.1, himages,
        keys, hvin.symm, hkeys, fun k => ⟨fun hk => by simpa using hin k hk, fun hk => ?_⟩⟩
      by_contra hnot
      have hmem : k ∈ (∅ : Finset Key) := by
        rw [hall]
        simpa [hnot] using hk
      simp at hmem
  · rintro ⟨hne, hidx, hrange, husable, himages, keys, hvin, hkeys, hmem⟩
    have hperm : keys.Perm (selected.map fun idx => (lookup idx).keyImage) := by
      rw [perm_ext_iff_of_nodup hkeys himages]
      simpa using hmem
    have hcollect : collectImages transferCount lookup selected ∅ ∅ =
        some (selected.map fun idx => (lookup idx).keyImage).toFinset := by
      rw [collectImages_eq_some]
      exact ⟨fun i hi => ⟨hrange i hi, by simp, husable i hi, by simp⟩, hidx, himages, by simp⟩
    rw [if_neg (by simp [hne, hvin, hperm.length_eq]), hcollect]
    simp only [beq_iff_eq]
    refine eraseImages_eq_some.mpr
      ⟨keys, hvin.symm, hkeys, fun k hk => by simpa using (hmem k).mp hk, ?_⟩
    rw [toFinset_eq_of_perm _ _ hperm]
    simp

end Monzero.PendingInputs
