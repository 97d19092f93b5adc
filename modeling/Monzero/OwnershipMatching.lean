import Monzero.AssetConfidential
import Mathlib.Data.List.Perm.Basic
import Mathlib.Data.List.Range

/-!
What accepted groups and ownership proofs establish. The search for proofs is
greedy, visits the inputs in order and flags the proof it used; when it succeeds
and every flag is set, the proofs are a rearrangement of the inputs that need one,
each matching its input, with pairwise distinct key images.
-/
namespace Monzero.OwnershipMatching

open Checked Primitives AssetTypes AssetConfidential List

variable {K : Type} [DecidableEq K] (C : Crypto K) (pfs : List (AssetOwnershipProof K))
  (net : NetworkType) (car : Hash)

theorem findMatch_spec (matched : List ℕ) (input : ConfidentialPseudoInput K)
    (pf : AssetOwnershipProof K) (index : ℕ) (h : findMatch pfs matched input = .ok (pf, index)) :
    pfs[index]? = some pf ∧ index ∉ matched ∧ Matches pf input := by
  unfold findMatch at h
  split at h
  · cases h
  · rename_i found hfilter
    cases h
    have hmem : (pf, index) ∈ pfs.zipIdx.filter
        fun e => e.2 ∉ matched ∧ Matches e.1 input := by rw [hfilter]; simp
    rw [mem_filter, mem_zipIdx_iff_getElem?] at hmem
    simpa using hmem
  · cases h

theorem proveInput_eq_ok (st st' : List ℕ × List K) (input : ConfidentialPseudoInput K)
    (h : proveInput C pfs net car st input = .ok st') :
    ∃ pf index, findMatch pfs st.1 input = .ok (pf, index) ∧
      pf.keyImage ∉ st.2 ∧ verifyAssetOwnershipProof C pf net car = .ok () ∧
      st' = (st.1 ++ [index], st.2 ++ [pf.keyImage]) := by
  simp only [proveInput, bind_eq_ok, failIf_eq_ok, pure_eq_ok, exists_unit] at h
  obtain ⟨⟨pf, index⟩, hmatch, himg, hverify, hstate⟩ := h
  exact ⟨pf, index, hmatch, himg, hverify, hstate.symm⟩

theorem loop_proveInput (ins : List (ConfidentialPseudoInput K)) (st st' : List ℕ × List K)
    (hindexes : st.1.Nodup) (himages : st.2.Nodup)
    (h : loop (proveInput C pfs net car) ins st = .ok st') :
    ∃ used : List (AssetOwnershipProof K × ℕ),
      st' = (st.1 ++ used.map Prod.snd, st.2 ++ used.map fun e => e.1.keyImage) ∧
      List.Forall₂ (fun e input => Matches e.1 input) used ins ∧ (∀ e ∈ used, pfs[e.2]? = some e.1 ∧
        verifyAssetOwnershipProof C e.1 net car = .ok ()) ∧
      st'.1.Nodup ∧ st'.2.Nodup := by
  induction ins generalizing st with
  | nil =>
    cases h
    exact ⟨[], by simp, List.Forall₂.nil, by simp, hindexes, himages⟩
  | cons input rest ih =>
    obtain ⟨next, hstep, hrest⟩ := loop_cons_eq_ok.mp h
    obtain ⟨pf, index, hmatch, hnew, hverify, rfl⟩ :=
      proveInput_eq_ok C pfs net car st next input hstep
    obtain ⟨hget, hfresh, hmatches⟩ := findMatch_spec pfs st.1 input pf index hmatch
    have hindexes' : (st.1 ++ [index]).Nodup := by
      simp only [nodup_append, hindexes, nodup_singleton, true_and, mem_singleton, forall_eq]
      exact fun a ha hai => hfresh (hai ▸ ha)
    have himages' : (st.2 ++ [pf.keyImage]).Nodup := by
      simp only [nodup_append, himages, nodup_singleton, true_and, mem_singleton, forall_eq]
      exact fun a ha hai => hnew (hai ▸ ha)
    obtain ⟨used, hstate, hall, hused, hnd⟩ := ih _ hindexes' himages' hrest
    refine ⟨(pf, index) :: used, by simpa using hstate, List.Forall₂.cons hmatches hall, ?_, hnd⟩
    intro e he
    rcases mem_cons.mp he with rfl | he
    · exact ⟨hget, hverify⟩
    · exact hused e he

/-- Entries read off a list at pairwise distinct positions that cover it are a
rearrangement of the list. -/
private theorem perm_of_indexes {α : Type} {l : List α} {used : List (α × ℕ)}
    (hget : ∀ e ∈ used, l[e.2]? = some e.1) (hnd : (used.map Prod.snd).Nodup)
    (hcover : ∀ i < l.length, i ∈ used.map Prod.snd) : (used.map Prod.fst).Perm l := by
  have hrange : (used.map Prod.snd).Perm (List.range l.length) := by
    rw [perm_ext_iff_of_nodup hnd nodup_range]
    intro i
    rw [mem_range]
    refine ⟨fun hi => ?_, hcover i⟩
    obtain ⟨e, he, rfl⟩ := mem_map.mp hi
    exact (List.getElem?_eq_some_iff.mp (hget e he)).1
  have hsome : (used.map Prod.fst).map some = (used.map Prod.snd).map fun i => l[i]? := by
    simp only [map_map]
    exact map_congr_left fun e he => (hget e he).symm
  have hl : (List.range l.length).map (fun i => l[i]?) = l.map some := by
    apply ext_getElem
    · simp
    · intro i h₁ h₂
      simp only [length_map, length_range] at h₁
      simp [h₁]
  have hperm : ((used.map Prod.fst).map some).Perm (l.map some) := by
    rw [hsome, ← hl]
    exact hrange.map _
  exact (map_perm_map_iff (Option.some_injective α)).mp hperm

/-- The ownership proofs of an accepted transaction, one for each input that needs one. -/
structure Owned (C : Crypto K) (inputs : List (ConfidentialPseudoInput K))
    (proofs : List (AssetOwnershipProof K)) (network : NetworkType) (carrier : Hash) : Prop where
  matching : ∃ arranged : List (AssetOwnershipProof K), arranged.Perm proofs ∧
    List.Forall₂ Matches arranged inputs
  verified : ∀ proof ∈ proofs, verifyAssetOwnershipProof C proof network carrier = .ok ()
  keyImages_nodup : (proofs.map AssetOwnershipProof.keyImage).Nodup

theorem owned_of_loop {ins : List (ConfidentialPseudoInput K)} {st : List ℕ × List K}
    (h : loop (proveInput C pfs net car) ins ([], []) = .ok st)
    (hcover : ∀ index < pfs.length, index ∈ st.1) : Owned C ins pfs net car := by
  obtain ⟨used, rfl, hmatches, hused, hindexes, himages⟩ :=
    loop_proveInput C pfs net car _ _ _ nodup_nil nodup_nil h
  have hperm := perm_of_indexes (fun e he => (hused e he).1) hindexes hcover
  refine ⟨⟨used.map Prod.fst, hperm, ?_⟩, ?_, ?_⟩
  · rw [forall₂_map_left_iff]
    exact hmatches
  · intro pf hpf
    obtain ⟨e, he, rfl⟩ := mem_map.mp (hperm.mem_iff.mpr hpf)
    exact (hused e he).2
  · have himagesPerm := hperm.map AssetOwnershipProof.keyImage
    rw [map_map] at himagesPerm
    exact himagesPerm.nodup_iff.mp himages

theorem verifyWithOwnership_owned {bals : List (ConfidentialAssetBalance K)}
    {pfs : List (AssetOwnershipProof K)} {known : List Hash}
    {iss : Option IssuanceDescriptor} {net : NetworkType} {car : Hash} {u : Unit}
    (h : verifyConfidentialAssetTransactionWithOwnership C bals pfs known iss net car = .ok u) :
    verifyConfidentialAssetTransaction C bals known iss = .ok () ∧
      ∃ iid, deriveIssuedId C iss = .ok iid ∧ Owned C (inputsToProve iid bals) pfs net car := by
  simp only [verifyConfidentialAssetTransactionWithOwnership, bind_eq_ok, failIf_eq_ok,
    exists_unit, not_not] at h
  obtain ⟨hvalid, iid, hiss, st, hloop, hcover⟩ := h
  exact ⟨hvalid, iid, hiss, owned_of_loop C pfs net car hloop hcover⟩

end Monzero.OwnershipMatching
