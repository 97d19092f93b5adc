import Monzero.OwnershipMatching
import Monzero.AcceptedGroups
import Monzero.AssetWire
import Mathlib.Algebra.BigOperators.Group.List.Basic
import Mathlib.Data.List.NodupEquivFin

/-!
The pairing of ownership proofs and pseudo inputs does not depend on the order in which
they are listed. A proof and an input are paired by asset and commitment, and two proofs
for one such pair make the search fail, so an accepted transaction has one proof for each
pair and one input for each proof. Acceptance is therefore a statement about the proofs
and the inputs as collections, and rearranging them changes nothing.
-/
namespace Monzero.OwnershipBijection

open Bytes Checked Primitives AssetTypes AssetConfidential OwnershipMatching AcceptedGroups List

section Places

variable {α β κ : Type} {f : α → κ} {l : List α}

theorem zipIdx_inj (h : (l.map f).Nodup) {e e' : α × ℕ}
    (he : e ∈ l.zipIdx) (he' : e' ∈ l.zipIdx) (heq : f e.1 = f e'.1) : e = e' := by
  have hmap : l.zipIdx.map (fun e => f e.1) = l.map f := by
    conv_rhs => rw [← zipIdx_map_fst 0 l, map_map]
    rfl
  exact inj_on_of_nodup_map (hmap ▸ h) he he' heq

theorem zipIdx_nodup (l : List α) : l.zipIdx.Nodup := by
  apply List.Nodup.of_map Prod.snd
  rw [zipIdx_map_snd]
  exact nodup_range'

/-- Two lists that hold the same values, each once, correspond place by place. -/
theorem exists_places_equiv [DecidableEq κ] {g : β → κ} {l' : List β}
    (hnd : (l.map f).Nodup) (hperm : (l.map f).Perm (l'.map g)) :
    ∃ σ : Fin l.length ≃ Fin l'.length, ∀ i, f (l.get i) = g (l'.get (σ i)) := by
  have hnd' : (l'.map g).Nodup := hperm.nodup_iff.mp hnd
  let place : Fin (l.map f).length ≃ Fin (l'.map g).length :=
    (hnd.getEquiv _).trans
      ((Equiv.subtypeEquivRight fun _ => hperm.mem_iff).trans (hnd'.getEquiv _).symm)
  have hplace : ∀ i, (l.map f).get i = (l'.map g).get (place i) := by
    intro i
    have hval := congrArg Subtype.val ((hnd'.getEquiv _).apply_symm_apply
      ((Equiv.subtypeEquivRight fun _ => hperm.mem_iff) (hnd.getEquiv _ i)))
    exact hval.symm
  refine ⟨(finCongr (by simp)).trans (place.trans (finCongr (by simp))), fun i => ?_⟩
  simpa using hplace (Fin.cast (by simp) i)

end Places

variable {K : Type}

/-- What a proof is found by. -/
def proofKey (proof : AssetOwnershipProof K) : Hash × K := (proof.assetId, proof.pseudoInput)

/-- What an input is looked up with. -/
def inputKey (input : ConfidentialPseudoInput K) : Hash × K :=
  (input.sourceAssetId, input.commitment)

theorem matches_iff (pf : AssetOwnershipProof K) (input : ConfidentialPseudoInput K) :
    Matches pf input ↔ proofKey pf = inputKey input := by
  simp [Matches, proofKey, inputKey]

/-- Point addition: keys of the main subgroup are decoded, added in a commutative group, and
the sum is encoded. -/
structure AddsPoints (C : Crypto K) (G : Type) [AddCommMonoid G] where
  decode : K → G
  encode : G → K
  addKeys_eq : ∀ keys, keys.all C.isInMainSubgroup = true →
    C.addKeys keys = encode (keys.map decode).sum

/-- The same group with its pseudo inputs in another order. -/
structure SameGroup (b b' : ConfidentialAssetBalance K) : Prop where
  assetId : b'.assetId = b.assetId
  pseudoInputs : b.pseudoInputs.Perm b'.pseudoInputs
  outputs : b'.outputs = b.outputs
  burns : b'.burns = b.burns
  rangeProofs : b'.rangeProofs = b.rangeProofs

/-- The same groups in another order, each with its inputs in any order. -/
def Rearranged (balances balances' : List (ConfidentialAssetBalance K)) : Prop :=
  ∃ reordered, balances.Perm reordered ∧ List.Forall₂ SameGroup reordered balances'

variable [DecidableEq K]

/-- Proofs and inputs as collections: one proof for each pair of an asset and a commitment,
the same pairs on both sides, each proof valid, no key image twice. -/
structure Answered (C : Crypto K) (inputs : List (ConfidentialPseudoInput K))
    (proofs : List (AssetOwnershipProof K)) (network : NetworkType) (carrier : Hash) : Prop where
  keys_nodup : (proofs.map proofKey).Nodup
  keys_perm : (proofs.map proofKey).Perm (inputs.map inputKey)
  verified : ∀ proof ∈ proofs, verifyAssetOwnershipProof C proof network carrier = .ok ()
  keyImages_nodup : (proofs.map AssetOwnershipProof.keyImage).Nodup

/-! ### The search for one proof -/

variable {e : AssetOwnershipProof K × ℕ} {pfs : List (AssetOwnershipProof K)} {C : Crypto K}
  {net : NetworkType} {car : Hash} {ins : List (ConfidentialPseudoInput K)}
  {known : List Hash} {iss : Option IssuanceDescriptor} {issuedId : Option Hash}

theorem findMatch_eq_ok_iff (pfs : List (AssetOwnershipProof K)) (matched : List ℕ)
    (input : ConfidentialPseudoInput K) : findMatch pfs matched input = .ok e ↔
      pfs.zipIdx.filter (fun e => e.2 ∉ matched ∧ Matches e.1 input) = [e] := by
  unfold findMatch
  split
  · rename_i hnil
    rw [hnil]
    simp
  · rename_i hone
    rw [hone]
    simp
  · rename_i hmany
    simp only [reduceCtorEq, false_iff]
    exact hmany e

theorem findMatch_of_unique {matched : List ℕ} {input : ConfidentialPseudoInput K}
    (hkeys : (pfs.map proofKey).Nodup) (he : e ∈ pfs.zipIdx) (hunused : e.2 ∉ matched)
    (hkey : proofKey e.1 = inputKey input) : findMatch pfs matched input = .ok e := by
  have hfilter : pfs.zipIdx.filter (fun e => e.2 ∉ matched ∧ Matches e.1 input) =
      pfs.zipIdx.filter (· == e) := by
    apply filter_congr
    intro e' he'
    rw [Bool.eq_iff_iff, decide_eq_true_eq, beq_iff_eq, matches_iff]
    constructor
    · rintro ⟨-, hkey'⟩
      exact zipIdx_inj hkeys he' he (hkey'.trans hkey.symm)
    · rintro rfl
      exact ⟨hunused, hkey⟩
  rw [findMatch_eq_ok_iff, hfilter, filter_beq,
    count_eq_one_of_mem (zipIdx_nodup pfs) he, replicate_one]

/-! ### The search for all of them -/

/-- Of two proofs for the same pair neither is ever used: while both are free, an input that
asks for them is refused. -/
theorem loop_skips_twins {st st' : List ℕ × List K} {twin : AssetOwnershipProof K × ℕ}
    (he : e ∈ pfs.zipIdx) (htwin : twin ∈ pfs.zipIdx) (hne : e ≠ twin)
    (hkey : proofKey e.1 = proofKey twin.1) (hfree : e.2 ∉ st.1 ∧ twin.2 ∉ st.1)
    (h : loop (proveInput C pfs net car) ins st = .ok st') : e.2 ∉ st'.1 ∧ twin.2 ∉ st'.1 := by
  refine loop_invariant (fun s => e.2 ∉ s.1 ∧ twin.2 ∉ s.1) ?_ hfree h
  intro s input s' _ hs hstep
  obtain ⟨pf, index, hfind, -, -, rfl⟩ :=
    proveInput_eq_ok C pfs net car s s' input hstep
  have hfilter := (findMatch_eq_ok_iff pfs s.1 input).mp hfind
  -- an index that is one of the two belongs to that pf, and then the other was found too
  have hother : ∀ a b : AssetOwnershipProof K × ℕ, a ∈ pfs.zipIdx → b ∈ pfs.zipIdx →
      a ≠ b → proofKey a.1 = proofKey b.1 → b.2 ∉ s.1 → a.2 ≠ index := by
    intro a b ha hb hab hkey hb' hidx
    obtain ⟨hget, -, hmatches⟩ := findMatch_spec pfs s.1 input pf index hfind
    have hpf : a.1 = pf := by
      have hget' := mem_zipIdx_iff_getElem?.mp ha
      rw [hidx, hget] at hget'
      exact (Option.some.inj hget').symm
    have hmem : b ∈ pfs.zipIdx.filter fun e => e.2 ∉ s.1 ∧ Matches e.1 input := by
      rw [mem_filter, decide_eq_true_eq, matches_iff, ← hkey, hpf]
      exact ⟨hb, hb', (matches_iff ..).mp hmatches⟩
    rw [hfilter, mem_singleton] at hmem
    exact hab (Prod.ext (by rw [hpf, hmem]) (by rw [hidx, hmem]))
  simp only [mem_append, mem_singleton, not_or]
  exact ⟨⟨hs.1, hother e twin he htwin hne hkey hs.2⟩,
    ⟨hs.2, hother twin e htwin he hne.symm hkey.symm hs.1⟩⟩

/-- The search succeeds on inputs whose pairs are all different and all have a proof. The
entries of `used` are those found before. -/
theorem exists_loop_proveInput (hkeys : (pfs.map proofKey).Nodup)
    (hverified : ∀ pf ∈ pfs, verifyAssetOwnershipProof C pf net car = .ok ())
    (himages : (pfs.map AssetOwnershipProof.keyImage).Nodup)
    (ins : List (ConfidentialPseudoInput K)) (used : List (AssetOwnershipProof K × ℕ))
    (hused : ∀ e ∈ used, e ∈ pfs.zipIdx)
    (hnd : ((used.map fun e => proofKey e.1) ++ ins.map inputKey).Nodup)
    (hfound : ∀ input ∈ ins, inputKey input ∈ pfs.map proofKey) :
    ∃ st, loop (proveInput C pfs net car) ins
      (used.map Prod.snd, used.map fun e => e.1.keyImage) = .ok st := by
  induction ins generalizing used with
  | nil => exact ⟨_, rfl⟩
  | cons input rest ih =>
    obtain ⟨pf, hpf, hkey⟩ := mem_map.mp (hfound input mem_cons_self)
    obtain ⟨index, hidx⟩ := mem_iff_getElem?.mp hpf
    have hmem : (pf, index) ∈ pfs.zipIdx := mem_zipIdx_iff_getElem?.mpr hidx
    have hnew : (pf, index) ∉ used := by
      intro hin
      have hin' : inputKey input ∈ used.map fun e => proofKey e.1 :=
        mem_map.mpr ⟨_, hin, hkey⟩
      exact (nodup_append.mp hnd).2.2 _ hin' _ mem_cons_self rfl
    have hunused : index ∉ used.map Prod.snd := by
      intro hin
      obtain ⟨e, he, rfl⟩ := mem_map.mp hin
      have hget := mem_zipIdx_iff_getElem?.mp (hused e he)
      rw [hidx] at hget
      have heq : e = (pf, e.2) := Prod.ext (Option.some.inj hget).symm rfl
      exact hnew (heq ▸ he)
    have hfresh : pf.keyImage ∉ used.map fun e => e.1.keyImage := by
      intro hin
      obtain ⟨e, he, himg⟩ := mem_map.mp hin
      exact hnew (zipIdx_inj himages (hused e he) hmem himg ▸ he)
    have hstep : proveInput C pfs net car
        (used.map Prod.snd, used.map fun e => e.1.keyImage) input =
          .ok ((used ++ [(pf, index)]).map Prod.snd,
            (used ++ [(pf, index)]).map fun e => e.1.keyImage) := by
      simp only [proveInput, findMatch_of_unique hkeys hmem hunused hkey, ok_bind,
        failIf_of_not _ hfresh, hverified pf hpf, map_append, map_cons, map_nil]
      rfl
    obtain ⟨st, hstate⟩ := ih (used ++ [(pf, index)]) (by
        intro e he
        rcases mem_append.mp he with he | he
        · exact hused e he
        · exact mem_singleton.mp he ▸ hmem)
      (by simpa [hkey] using hnd) (fun other hother => hfound other (mem_cons_of_mem _ hother))
    exact ⟨st, loop_cons_eq_ok.mpr ⟨_, hstep, hstate⟩⟩

theorem answered_iff (C : Crypto K) (pfs : List (AssetOwnershipProof K))
    (net : NetworkType) (car : Hash) (ins : List (ConfidentialPseudoInput K)) :
    (∃ st, loop (proveInput C pfs net car) ins ([], []) = .ok st ∧
      ∀ index < pfs.length, index ∈ st.1) ↔
    Answered C ins pfs net car := by
  constructor
  · rintro ⟨st, hloop, hcover⟩
    have howned := owned_of_loop C pfs net car hloop hcover
    obtain ⟨arranged, hperm, hmatches⟩ := howned.matching
    have hmap : arranged.map proofKey = ins.map inputKey := by
      rw [← forall₂_eq_eq_eq, forall₂_map_left_iff, forall₂_map_right_iff]
      exact hmatches.imp fun _ _ => (matches_iff ..).mp
    refine ⟨?_, ?_, howned.verified, howned.keyImages_nodup⟩
    · rw [nodup_iff_getElem?_ne_getElem?]
      intro i j hij hj heq
      rw [length_map] at hj
      rw [getElem?_map, getElem?_map, getElem?_eq_getElem (hij.trans hj),
        getElem?_eq_getElem hj, Option.map_some, Option.map_some, Option.some.injEq] at heq
      have hplaces : (pfs[i], i) ≠ (pfs[j], j) := by
        intro h
        exact hij.ne (congrArg Prod.snd h)
      have hunused := loop_skips_twins (mem_zipIdx_iff_getElem?.mpr (by simp))
        (mem_zipIdx_iff_getElem?.mpr (by simp)) hplaces heq (by simp) hloop
      exact hunused.1 (hcover i (hij.trans hj))
    · rw [← hmap]
      exact (hperm.map _).symm
  · intro h
    obtain ⟨st, hloop⟩ := exists_loop_proveInput h.keys_nodup h.verified h.keyImages_nodup
      ins [] (by simp) (by simpa using h.keys_perm.nodup_iff.mp h.keys_nodup)
      (fun input hin => h.keys_perm.mem_iff.mpr (mem_map_of_mem hin))
    refine ⟨st, hloop, fun index hidx => ?_⟩
    obtain ⟨used, rfl, hmatches, hused, -⟩ :=
      loop_proveInput C pfs net car ins ([], []) _ nodup_nil nodup_nil hloop
    have hmem : (pfs[index], index) ∈ pfs.zipIdx := by
      rw [mem_zipIdx_iff_getElem?, getElem?_eq_getElem hidx]
    have hkey : proofKey pfs[index] ∈ ins.map inputKey :=
      h.keys_perm.mem_iff.mp (mem_map_of_mem (getElem_mem hidx))
    obtain ⟨input, hin, heq⟩ := mem_map.mp hkey
    obtain ⟨e, he, hmatch⟩ := (forall₂_partner hmatches).2 input hin
    have hplace : e = (pfs[index], index) := by
      refine zipIdx_inj h.keys_nodup (mem_zipIdx_iff_getElem?.mpr (hused e he).1) hmem ?_
      rw [(matches_iff ..).mp hmatch, heq]
    rw [nil_append]
    exact mem_map.mpr ⟨e, he, by rw [hplace]⟩

theorem withOwnership_eq_ok_iff (C : Crypto K) (bals : List (ConfidentialAssetBalance K))
    (pfs : List (AssetOwnershipProof K)) (known : List Hash)
    (iss : Option IssuanceDescriptor) (net : NetworkType) (car : Hash) :
    verifyConfidentialAssetTransactionWithOwnership C bals pfs known iss net car = .ok () ↔
      ∃ issuedId, TransactionAccepted C bals known iss issuedId ∧
        Answered C (inputsToProve issuedId bals) pfs net car := by
  simp only [verifyConfidentialAssetTransactionWithOwnership, bind_eq_ok, failIf_eq_ok,
    exists_unit, not_not, verifyTransaction_eq_ok_iff, answered_iff]
  constructor
  · rintro ⟨⟨issuedId, hacc⟩, derivedId, hderived, hanswered⟩
    rw [hacc.derived, Except.ok.injEq] at hderived
    exact ⟨issuedId, hacc, hderived ▸ hanswered⟩
  · rintro ⟨issuedId, hacc, hanswered⟩
    exact ⟨⟨issuedId, hacc⟩, issuedId, hacc.derived, hanswered⟩

/-- The pseudo inputs of all groups but the one an issuance creates. -/
def inputsOutside (issuedId : Option Hash) (balances : List (ConfidentialAssetBalance K)) :
    List (ConfidentialPseudoInput K) :=
  balances.flatMap fun b => if issuedId = some b.assetId then [] else b.pseudoInputs

/-- The issuance group has a single input, so the inputs that need a proof are those of the
other groups. -/
theorem inputsToProve_eq {bals : List (ConfidentialAssetBalance K)}
    (h : TransactionAccepted C bals known iss issuedId) :
    inputsToProve issuedId bals = inputsOutside issuedId bals := by
  refine flatMap_congr fun b hb => ?_
  by_cases hid : issuedId = some b.assetId
  · obtain ⟨d, hd, -⟩ := exists_issuance (hid ▸ h.derived)
    rw [if_pos hid, if_pos hid, ((h.groups b hb).issued d hd hid).2, drop_one, tail_cons]
  · rw [if_neg hid, if_neg hid]

/-! ### Rearranging groups, inputs and proofs -/

section Rearranging

variable {C : Crypto K} {G : Type} [AddCommMonoid G]

omit [DecidableEq K] in
theorem AddsPoints.addKeys_perm (points : AddsPoints C G) {keys keys' : List K}
    (hperm : keys.Perm keys') (h : keys.all C.isInMainSubgroup = true) :
    C.addKeys keys = C.addKeys keys' := by
  rw [points.addKeys_eq keys h, points.addKeys_eq keys' (hperm.all_eq ▸ h),
    (hperm.map points.decode).sum_eq]

omit [DecidableEq K] in
variable {b b' : ConfidentialAssetBalance K} {pfs' : List (AssetOwnershipProof K)}

theorem SameGroup.symm (h : SameGroup b b') : SameGroup b' b :=
  ⟨h.assetId.symm, h.pseudoInputs.symm, h.outputs.symm, h.burns.symm, h.rangeProofs.symm⟩

omit [DecidableEq K] in
variable {bals bals' : List (ConfidentialAssetBalance K)}

theorem Rearranged.symm (h : Rearranged bals bals') : Rearranged bals' bals := by
  obtain ⟨reordered, hperm, hsame⟩ := h
  obtain ⟨regrouped, hgroups, hback⟩ := perm_comp_forall₂ hperm hsame
  exact ⟨regrouped, hback.symm, (hgroups.imp fun _ _ => SameGroup.symm).flip⟩

theorem SameGroup.balanced (points : AddsPoints C G)
    (hsame : SameGroup b b') (h : verifyConfidentialAssetBalance C b = .ok ()) :
    verifyConfidentialAssetBalance C b' = .ok () := by
  have hcoms := hsame.pseudoInputs.map ConfidentialPseudoInput.commitment
  simp only [verifyConfidentialAssetBalance, bind_eq_ok, failIf_eq_ok, exists_unit, not_not,
    ne_eq, hsame.assetId, hsame.outputs, hsame.burns, hsame.rangeProofs] at h ⊢
  obtain ⟨hid, hins, houts, hlimits, hdom, ⟨hpoints, hvalid⟩, proven, hpfs, hcnt,
    hproven, hburned, hsum⟩ := h
  refine ⟨hid, ?_, houts, ?_, ?_, ⟨?_, hvalid⟩, proven, hpfs, hcnt, hproven, hburned, ?_⟩
  · intro hnil
    exact hins (hnil ▸ hsame.pseudoInputs).eq_nil
  · rwa [← hsame.pseudoInputs.length_eq]
  · intro input hin
    exact hdom input (hsame.pseudoInputs.mem_iff.mpr hin)
  · rwa [← hcoms.all_eq]
  · rw [← points.addKeys_perm hcoms hpoints, hsum]

theorem SameGroup.accepted (points : AddsPoints C G)
    (hsame : SameGroup b b') (h : GroupAccepted C known iss issuedId b) :
    GroupAccepted C known iss issuedId b' where
  unissued_known := by
    rw [hsame.assetId]
    exact h.unissued_known
  issued d hd := by
    rw [hsame.assetId]
    intro hid
    obtain ⟨hnew, hins⟩ := h.issued d hd hid
    have hperm := hsame.pseudoInputs
    rw [hins, singleton_perm] at hperm
    exact ⟨hnew, hperm.symm⟩
  balanced := hsame.balanced points h.balanced

omit [DecidableEq K] in
theorem Rearranged.ids_perm (h : Rearranged bals bals') :
    (bals.map ConfidentialAssetBalance.assetId).Perm
      (bals'.map ConfidentialAssetBalance.assetId) := by
  obtain ⟨reordered, hperm, hsame⟩ := h
  have hids : reordered.map ConfidentialAssetBalance.assetId =
      bals'.map ConfidentialAssetBalance.assetId := by
    rw [← forall₂_eq_eq_eq, forall₂_map_left_iff, forall₂_map_right_iff]
    exact hsame.imp fun _ _ hgroup => hgroup.assetId.symm
  exact hids ▸ hperm.map _

omit [DecidableEq K] in
theorem Rearranged.inputs_perm (h : Rearranged bals bals') (iid : Option Hash) :
    (inputsOutside iid bals).Perm (inputsOutside iid bals') := by
  obtain ⟨reordered, hperm, hsame⟩ := h
  refine (hperm.flatMap_right _).trans ?_
  clear hperm
  induction hsame with
  | nil => exact List.Perm.refl _
  | @cons b b' _ _ hgroup _ ih =>
    rw [flatMap_cons, inputsOutside, flatMap_cons, hgroup.assetId]
    refine List.Perm.append ?_ ih
    by_cases hid : iid = some b.assetId
    · rw [if_pos hid, if_pos hid]
    · rw [if_neg hid, if_neg hid]
      exact hgroup.pseudoInputs

theorem transaction_rearranged (points : AddsPoints C G) (hre : Rearranged bals bals')
    (h : TransactionAccepted C bals known iss issuedId) :
    TransactionAccepted C bals' known iss issuedId where
  nonempty := by
    rintro rfl
    have hperm := hre.ids_perm
    simp [h.nonempty] at hperm
  derived := h.derived
  ids_nodup := hre.ids_perm.nodup_iff.mp h.ids_nodup
  groups := by
    intro b' hb'
    obtain ⟨reordered, hperm, hsame⟩ := hre
    obtain ⟨b, hb, hgroup⟩ := (forall₂_partner hsame).2 b' hb'
    exact hgroup.accepted points (h.groups b (hperm.mem_iff.mpr hb))
  found hsome := by
    obtain ⟨b, hb, hid⟩ := h.found hsome
    have hmem := hre.ids_perm.mem_iff.mp (mem_map_of_mem hb)
    obtain ⟨b', hb', heq⟩ := mem_map.mp hmem
    exact ⟨b', hb', by rw [hid, heq]⟩

omit [DecidableEq K] in
theorem Answered.rearranged {ins' : List (ConfidentialPseudoInput K)} (hins : ins.Perm ins')
    (hpfs : pfs.Perm pfs') (h : Answered C ins pfs net car) : Answered C ins' pfs' net car where
  keys_nodup := (hpfs.map _).nodup_iff.mp h.keys_nodup
  keys_perm := ((hpfs.map _).symm.trans h.keys_perm).trans (hins.map _)
  verified proof hpf := h.verified proof (hpfs.mem_iff.mpr hpf)
  keyImages_nodup := (hpfs.map _).nodup_iff.mp h.keyImages_nodup

theorem accepted_rearranged (points : AddsPoints C G)
    (hre : Rearranged bals bals') (hpfs : pfs.Perm pfs')
    (h : verifyConfidentialAssetTransactionWithOwnership C bals pfs known iss net car = .ok ()) :
    verifyConfidentialAssetTransactionWithOwnership C bals' pfs' known iss net car = .ok () := by
  rw [withOwnership_eq_ok_iff] at h ⊢
  obtain ⟨issuedId, hacc, hanswered⟩ := h
  have hacc' := transaction_rearranged points hre hacc
  refine ⟨issuedId, hacc', ?_⟩
  rw [inputsToProve_eq hacc] at hanswered
  rw [inputsToProve_eq hacc']
  exact hanswered.rearranged (hre.inputs_perm issuedId) hpfs

end Rearranging

/-- Ownership matching is a bijection. The proofs of an accepted transaction correspond one to
one to the inputs outside the issuance group, by asset and commitment; each proof verifies and
no key image occurs twice. And the transaction is accepted in one order of its proofs, its
groups and the inputs of each group exactly when it is in any other. -/
theorem ownership_matching {G : Type} [AddCommMonoid G] (C : Crypto K) (points : AddsPoints C G)
    (balances : List (ConfidentialAssetBalance K)) (proofs : List (AssetOwnershipProof K))
    (known : List Hash) (issuance : Option IssuanceDescriptor) (network : NetworkType)
    (carrier : Hash) :
    (verifyConfidentialAssetTransactionWithOwnership C balances proofs known issuance network
        carrier = .ok () →
      ∃ issuedId, deriveIssuedId C issuance = .ok issuedId ∧
        (∃ σ : Fin proofs.length ≃ Fin (inputsOutside issuedId balances).length,
          ∀ i, Matches (proofs.get i) ((inputsOutside issuedId balances).get (σ i))) ∧
        (∀ proof ∈ proofs, verifyAssetOwnershipProof C proof network carrier = .ok ()) ∧
        (proofs.map AssetOwnershipProof.keyImage).Nodup) ∧
    ∀ balances' proofs', Rearranged balances balances' → proofs.Perm proofs' →
      (verifyConfidentialAssetTransactionWithOwnership C balances' proofs' known issuance network
          carrier = .ok () ↔
        verifyConfidentialAssetTransactionWithOwnership C balances proofs known issuance network
          carrier = .ok ()) := by
  constructor
  · intro h
    obtain ⟨issuedId, haccepted, hanswered⟩ := (withOwnership_eq_ok_iff ..).mp h
    rw [inputsToProve_eq haccepted] at hanswered
    obtain ⟨σ, hσ⟩ := exists_places_equiv hanswered.keys_nodup hanswered.keys_perm
    exact ⟨issuedId, haccepted.derived, ⟨σ, fun i => (matches_iff ..).mpr (hσ i)⟩,
      hanswered.verified, hanswered.keyImages_nodup⟩
  · intro balances' proofs' hre hproofs
    exact ⟨accepted_rearranged points hre.symm hproofs.symm, accepted_rearranged points hre hproofs⟩

section Sample

open ToyCrypto

/-- The toy primitives add keys as numbers. -/
def toyPoints : AddsPoints toy ℕ where
  decode key := leValue key.bytes
  encode := keyOfNat
  addKeys_eq _ _ := rfl

def sampleProof (asset amount : ℕ) : AssetOwnershipProof Key where
  assetId := keyOfNat asset
  pseudoInput := keyOfNat amount
  keyImage := keyOfNat (100 * asset + amount)
  ring := (List.range 16).map fun i =>
    { assetId := keyOfNat asset, outputId := keyOfNat (i + 1),
      publicOutput := { dest := keyOfNat i, mask := keyOfNat amount } }
  signature := { s := List.replicate 16 toy.zero, c1 := toy.zero, I := toy.zero, D := toy.zero }

def sampleGroup (asset : ℕ) (amounts : List ℕ) : ConfidentialAssetBalance Key where
  assetId := keyOfNat asset
  pseudoInputs := amounts.map fun amount =>
    { sourceAssetId := keyOfNat asset, commitment := keyOfNat amount }
  outputs := [keyOfNat amounts.sum]
  burns := []
  rangeProofs := [rangeProof [keyOfNat amounts.sum]]

theorem sample_accepted : verifyConfidentialAssetTransactionWithOwnership toy
    [sampleGroup 7 [3, 4], sampleGroup 8 [3]]
    [sampleProof 7 3, sampleProof 7 4, sampleProof 8 3] [keyOfNat 7, keyOfNat 8] none .mainnet
    (keyOfNat 1) = .ok () := by
  decide +kernel

theorem sample_rearranged : Rearranged [sampleGroup 7 [3, 4], sampleGroup 8 [3]]
    [sampleGroup 8 [3], sampleGroup 7 [4, 3]] := by
  refine ⟨[sampleGroup 8 [3], sampleGroup 7 [3, 4]], List.Perm.swap _ _ _, ?_⟩
  refine List.Forall₂.cons ?_ (List.Forall₂.cons ?_ List.Forall₂.nil)
  · exact ⟨rfl, List.Perm.refl _, rfl, rfl, rfl⟩
  · exact ⟨rfl, List.Perm.swap _ _ _, rfl, rfl, rfl⟩

theorem ownership_matching_two_assets :
    (∃ issuedId, deriveIssuedId toy none = .ok issuedId ∧
      (∃ σ : Fin 3 ≃ Fin (inputsOutside issuedId
          [sampleGroup 7 [3, 4], sampleGroup 8 [3]]).length,
        ∀ i, Matches ([sampleProof 7 3, sampleProof 7 4, sampleProof 8 3].get i)
          ((inputsOutside issuedId [sampleGroup 7 [3, 4], sampleGroup 8 [3]]).get (σ i))) ∧
      (∀ proof ∈ [sampleProof 7 3, sampleProof 7 4, sampleProof 8 3],
        verifyAssetOwnershipProof toy proof .mainnet (keyOfNat 1) = .ok ()) ∧
      ([sampleProof 7 3, sampleProof 7 4, sampleProof 8 3].map
        AssetOwnershipProof.keyImage).Nodup) ∧
    verifyConfidentialAssetTransactionWithOwnership toy
      [sampleGroup 8 [3], sampleGroup 7 [4, 3]]
      [sampleProof 8 3, sampleProof 7 4, sampleProof 7 3] [keyOfNat 7, keyOfNat 8] none .mainnet
      (keyOfNat 1) = .ok () := by
  have h := ownership_matching toy toyPoints [sampleGroup 7 [3, 4], sampleGroup 8 [3]]
    [sampleProof 7 3, sampleProof 7 4, sampleProof 8 3] [keyOfNat 7, keyOfNat 8] none .mainnet
    (keyOfNat 1)
  exact ⟨h.1 sample_accepted, (h.2 _ _ sample_rearranged (reverse_perm _).symm).mpr sample_accepted⟩

end Sample

end Monzero.OwnershipBijection
