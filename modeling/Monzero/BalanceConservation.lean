import Monzero.AcceptedGroups
import Monzero.AssetApplication
import Monzero.Ledger

/-!
Conservation inside one asset transaction, for primitives that keep their promises:
commitments open in one way and add componentwise, an accepted range proof bounds
what it is about, and an accepted ownership proof spends a ring member of the same
amount. Each balance group then conserves its asset as a sum of numbers, and the
groups of a transaction conserve every asset, up to what the transaction issues.
-/
namespace Monzero.BalanceConservation

open Checked Primitives AssetTypes IssuanceCodec AssetConfidential AssetWire OwnershipMatching List
  AcceptedGroups AssetApplication Ledger

variable {K : Type} {C : Crypto K} {order : ℕ}

/-- Ideal primitives: every commitment is a pair of an amount and a mask, added
componentwise modulo the group order. -/
structure Ideal (C : Crypto K) (order : ℕ) where
  opening : K → ZMod order × ZMod order
  order_large : maxConfidentialAssetOutputs * 2 ^ 64 < order
  commit_zero : ∀ supply : UInt64,
    (opening (C.commit supply C.zero)).1 = (supply.toNat : ZMod order)
  addKeys_opening : ∀ keys, opening (C.addKeys keys) = (keys.map opening).sum
  range : ∀ proof, C.bulletproofPlusVerify proof = some true →
    ∀ v ∈ proof.V, (opening (C.scalarmult8 v)).1.val < 2 ^ 64
  /-- The key image of a one-time key. -/
  keyImage : K → K
  linked : ∀ message signature ring offset,
    C.verRctCLSAGSimple message signature ring offset = true →
      ∃ member ∈ ring, (opening member.mask).1 = (opening offset).1 ∧
        signature.I = keyImage member.dest

namespace Ideal

/-- The amount a commitment hides. -/
def amount (I : Ideal C order) (commitment : K) : ℕ := (I.opening commitment).1.val

/-- The amount is one that fits 64 bits. -/
def Bounded (I : Ideal C order) (commitment : K) : Prop := I.amount commitment < 2 ^ 64

theorem order_ne_zero (I : Ideal C order) : NeZero order :=
  ⟨by have := I.order_large; omega⟩

theorem amount_commit (I : Ideal C order) (supply : UInt64) :
    I.amount (C.commit supply C.zero) = supply.toNat := by
  have horder := I.order_large
  have hsupply := supply.toNat_lt
  have hlt : supply.toNat < order := by
    simp only [maxConfidentialAssetOutputs] at horder
    omega
  rw [amount, I.commit_zero, ZMod.val_natCast_of_lt hlt]

/-- Commitments with equal sums hide equal sums of amounts, when there are no more of them
than a balance group may have. -/
theorem sum_amount_eq (I : Ideal C order) (l l' : List K) (hl : ∀ k ∈ l, I.Bounded k)
    (hl' : ∀ k ∈ l', I.Bounded k) (hlen : l.length ≤ maxConfidentialAssetOutputs)
    (hlen' : l'.length ≤ maxConfidentialAssetOutputs) (h : C.addKeys l = C.addKeys l') :
    (l.map I.amount).sum = (l'.map I.amount).sum := by
  have := I.order_ne_zero
  have hsum (l : List K) : (I.opening (C.addKeys l)).1 = (l.map fun k => (I.opening k).1).sum := by
    have hfst := map_list_sum (AddMonoidHom.fst (ZMod order) (ZMod order)) (l.map I.opening)
    rw [map_map] at hfst
    rw [I.addKeys_opening]
    exact hfst
  have heq : (l.map fun k => (I.opening k).1).sum = (l'.map fun k => (I.opening k).1).sum := by
    rw [← hsum, ← hsum, h]
  have hbounded (l : List K) (hl : ∀ k ∈ l, I.Bounded k) :
      ∀ x ∈ l.map fun k => (I.opening k).1, x.val < 2 ^ 64 := by
    intro x hx
    obtain ⟨k, hk, rfl⟩ := mem_map.mp hx
    exact hl k hk
  have hvals := sum_val_eq_of_sum_eq (hbounded l hl)
    (hbounded l' hl') (by rwa [length_map]) (by rwa [length_map]) I.order_large heq
  rw [map_map, map_map] at hvals
  exact hvals

end Ideal

theorem checkRangeProof_eq_ok (C : Crypto K) (count : ℕ) (proven proven' : List K)
    (pf : BulletproofPlus K) (h : checkRangeProof C count proven pf = .ok proven') :
    C.bulletproofPlusVerify pf = some true ∧ proven' = proven ++ pf.V.map C.scalarmult8 := by
  simp only [checkRangeProof, bind_eq_ok, failIf_eq_ok, exists_unit] at h
  obtain ⟨-, h⟩ := h
  split at h
  · cases h
  · cases h
  · rename_i hverify
    cases h
    exact ⟨hverify, rfl⟩

variable (I : Ideal C order) (iss : Option IssuanceDescriptor) (iid : Option Hash)

theorem proven_bounded {count : ℕ} {pfs : List (BulletproofPlus K)} {proven : List K}
    (h : loop (checkRangeProof C count) pfs [] = .ok proven) : ∀ k ∈ proven, I.Bounded k := by
  refine loop_invariant (fun proven => ∀ k ∈ proven, I.Bounded k) ?_ (by simp) h
  intro s pf s' _ hs hstep
  obtain ⟨hverify, rfl⟩ := checkRangeProof_eq_ok C count s s' pf hstep
  intro k hk
  rcases mem_append.mp hk with hk | hk
  · exact hs k hk
  · obtain ⟨v, hv, rfl⟩ := mem_map.mp hk
    exact I.range pf hverify v hv

variable [DecidableEq K] {b : ConfidentialAssetBalance K} {u : Unit}
  {bals : List (ConfidentialAssetBalance K)} {p : AssetTransactionPayload K} {net : NetworkType}
  {car : Hash}

/-- An accepted balance group: outputs and burns are bounded, the inputs belong to the asset,
and when they are bounded too, their sum is the sum of outputs and burns. -/
theorem balance_conserves (h : verifyConfidentialAssetBalance C b = .ok u) :
    (∀ k ∈ b.outputs, I.Bounded k) ∧ (∀ input ∈ b.pseudoInputs, input.sourceAssetId = b.assetId) ∧
      ((∀ input ∈ b.pseudoInputs, I.Bounded input.commitment) →
        (b.pseudoInputs.map fun input => I.amount input.commitment).sum =
          (b.outputs.map I.amount).sum + (b.burns.map I.amount).sum) := by
  simp only [verifyConfidentialAssetBalance, bind_eq_ok, failIf_eq_ok, exists_unit, not_not,
    ne_eq, not_or, not_lt, gt_iff_lt] at h
  obtain ⟨-, -, -, ⟨hins, hcnt⟩, hdom, -, proven, hloop, -, houts, hburns, hsum⟩ := h
  have hall : ∀ k ∈ b.outputs ++ b.burns, I.Bounded k := by
    have hcover : proven = b.outputs ++ b.burns := by
      rw [← take_append_drop b.outputs.length proven, houts, hburns]
    rw [← hcover]
    exact proven_bounded I hloop
  refine ⟨fun k hk => hall k (mem_append_left _ hk), hdom, fun hbounded => ?_⟩
  have hpseudo : ∀ k ∈ b.pseudoInputs.map ConfidentialPseudoInput.commitment, I.Bounded k := by
    intro k hk
    obtain ⟨input, hin, rfl⟩ := mem_map.mp hk
    exact hbounded input hin
  have heq := I.sum_amount_eq _ _ hpseudo hall (by rw [length_map]; exact hins)
    (by rw [length_append]; exact hcnt) hsum
  rw [map_map, map_append, sum_append] at heq
  exact heq

/-- What accepted balance groups are: one per asset, each balanced, and the group of the
issued asset starts from its fixed supply. -/
structure Grouped (C : Crypto K) (issuance : Option IssuanceDescriptor)
    (issuedId : Option Hash) (balances : List (ConfidentialAssetBalance K)) : Prop where
  ids_nodup : (balances.map ConfidentialAssetBalance.assetId).Nodup
  verified : ∀ b ∈ balances, verifyConfidentialAssetBalance C b = .ok ()
  issued : ∀ d, issuance = some d → ∀ b ∈ balances, issuedId = some b.assetId →
    b.pseudoInputs = [{ sourceAssetId := b.assetId, commitment := C.commit d.atomicSupply C.zero }]
  found : issuance.isSome = true → ∃ b ∈ balances, issuedId = some b.assetId

theorem verifyTransaction_grouped {known : List Hash} {iss : Option IssuanceDescriptor}
    {iid : Option Hash} (hiss : deriveIssuedId C iss = .ok iid)
    (h : verifyConfidentialAssetTransaction C bals known iss = .ok u) : Grouped C iss iid bals := by
  obtain ⟨derivedId, hacc⟩ := (verifyTransaction_eq_ok_iff ..).mp h
  obtain rfl : derivedId = iid := Except.ok.inj (hacc.derived.symm.trans hiss)
  exact ⟨hacc.ids_nodup, fun b hb => (hacc.groups b hb).balanced,
    fun d hd b hb hid => ((hacc.groups b hb).issued d hd hid).2, hacc.found⟩

def createdEntries (I : Ideal C order) (p : AssetTransactionPayload K) : List (Hash × ℕ) :=
  (payloadOutputs p).map fun output => (output.assetId, I.amount output.commitment)

def burnedEntries (I : Ideal C order) (p : AssetTransactionPayload K) : List (Hash × ℕ) :=
  p.balances.flatMap fun b => b.burns.map fun burn => (b.assetId, I.amount burn)

def consumedEntries (I : Ideal C order) (p : AssetTransactionPayload K) : List (Hash × ℕ) :=
  p.ownershipProofs.map fun proof => (proof.assetId, I.amount proof.pseudoInput)

/-- The supply an issuance brings in. -/
def issuedEntries (issuance : Option IssuanceDescriptor) (issuedId : Option Hash) :
    List (Hash × ℕ) :=
  match issuance, issuedId with
  | some d, some id => [(id, d.atomicSupply.toNat)]
  | _, _ => []

omit [DecidableEq K] in
theorem createdEntries_eq (h : validateAssetTransactionPayloadShape p = .ok u) :
    createdEntries I p =
      p.balances.flatMap fun b => b.outputs.map fun k => (b.assetId, I.amount k) := by
  obtain ⟨hlen, hcounts, -⟩ := shape_facts h
  have hgroups : p.balances = (p.balances.zip p.outputRecipients).map Prod.fst :=
    (map_fst_zip hlen.ge).symm
  rw [createdEntries, payloadOutputs, map_flatMap]
  conv_rhs => rw [hgroups, flatMap_map]
  refine flatMap_congr fun g hg => ?_
  have houts : g.1.outputs = (g.2.zip g.1.outputs).map Prod.snd :=
    (map_snd_zip (hcounts g hg).ge).symm
  conv_rhs => rw [houts, map_map]
  rw [map_map]
  rfl

def inputEntries (I : Ideal C order) (inputs : List (ConfidentialPseudoInput K)) :
    List (Hash × ℕ) :=
  inputs.map fun input => (input.sourceAssetId, I.amount input.commitment)

theorem group_total (h : verifyConfidentialAssetBalance C b = .ok ())
    (hbounded : ∀ input ∈ b.pseudoInputs, I.Bounded input.commitment) (a : Hash) :
    total a (inputEntries I b.pseudoInputs) =
      total a (b.outputs.map fun k => (b.assetId, I.amount k)) +
        total a (b.burns.map fun k => (b.assetId, I.amount k)) := by
  obtain ⟨-, hdom, hsum⟩ := balance_conserves I h
  have hentries : inputEntries I b.pseudoInputs =
      b.pseudoInputs.map fun input => (b.assetId, I.amount input.commitment) :=
    map_congr_left fun input hin => by rw [hdom input hin]
  rw [hentries, total_map_key, total_map_key, total_map_key, hsum hbounded]
  by_cases ha : b.assetId = a
  · rw [if_pos ha, if_pos ha, if_pos ha]
  · rw [if_neg ha, if_neg ha, if_neg ha]

omit [DecidableEq K] in
theorem inputs_total (hnone : iss = none → iid = none)
    (hnd : (bals.map ConfidentialAssetBalance.assetId).Nodup)
    (hiss : ∀ d, iss = some d → ∀ b ∈ bals, iid = some b.assetId → b.pseudoInputs =
        [{ sourceAssetId := b.assetId, commitment := C.commit d.atomicSupply C.zero }])
    (hfound : iss.isSome = true → ∃ b ∈ bals, iid = some b.assetId) (a : Hash) :
    total a (bals.flatMap fun b => inputEntries I b.pseudoInputs) =
      total a (inputEntries I (inputsToProve iid bals)) + total a (issuedEntries iss iid) := by
  rw [inputEntries, inputsToProve, map_flatMap, total_flatMap, total_flatMap]
  cases iss with
  | none =>
    rw [hnone rfl]
    simp [issuedEntries, inputEntries]
  | some d =>
    obtain ⟨issued, hmem, hid⟩ := hfound rfl
    -- the supply stands once in the sum over the groups, because their ids are distinct
    have hsupply : total issued.assetId
        (bals.map fun b => (b.assetId, if b.assetId = a then d.atomicSupply.toNat else 0)) =
        if issued.assetId = a then d.atomicSupply.toNat else 0 := by
      refine total_of_nodup _ ?_ (issued.assetId, _) (mem_map_of_mem hmem)
      rw [map_map]
      exact hnd
    have hentries : total a (issuedEntries (some d) iid) =
        if issued.assetId = a then d.atomicSupply.toNat else 0 := by
      rw [hid]
      simp [issuedEntries]
    rw [hentries, ← hsupply, total, map_map, ← sum_map_add]
    refine congrArg List.sum (map_congr_left fun b hb => ?_)
    by_cases hb' : b.assetId = issued.assetId
    · have hpseudo := hiss d rfl b hb (by rw [hid, hb'])
      simp [hpseudo, hid, hb', inputEntries, I.amount_commit]
    · have hne : iid ≠ some b.assetId := by
        rw [hid]
        intro heq
        exact hb' (Option.some.inj heq).symm
      simp [hne, hb', inputEntries]

omit [DecidableEq K] in
theorem consumed_total {ins : List (ConfidentialPseudoInput K)}
    (h : Owned C ins p.ownershipProofs net car) (a : Hash) :
    total a (consumedEntries I p) = total a (inputEntries I ins) := by
  obtain ⟨arranged, hperm, hmatches⟩ := h.matching
  have hentries : arranged.map (fun pf => (pf.assetId, I.amount pf.pseudoInput)) =
      inputEntries I ins := by
    rw [inputEntries, ← forall₂_eq_eq_eq, forall₂_map_left_iff, forall₂_map_right_iff]
    exact hmatches.imp fun pf input hm => by rw [hm.1, hm.2]
  rw [consumedEntries, ← hentries]
  exact (total_perm a (hperm.map _)).symm

omit [DecidableEq K] in
theorem deriveIssuedId_none {iss : Option IssuanceDescriptor} {iid : Option Hash}
    (h : deriveIssuedId C iss = .ok iid) (hnone : iss = none) : iid = none := by
  rw [hnone] at h
  cases h
  rfl

/-- Every input of an accepted transaction is bounded: a proof answers for it, or it is the
supply of the issuance. -/
theorem inputs_bounded {pfs : List (AssetOwnershipProof K)} (hnone : iss = none → iid = none)
    (hgrouped : Grouped C iss iid bals) (howned : Owned C (inputsToProve iid bals) pfs net car)
    (hpfs : ∀ pf ∈ pfs, I.Bounded pf.pseudoInput) :
    ∀ b ∈ bals, ∀ input ∈ b.pseudoInputs, I.Bounded input.commitment := by
  intro b hb input hin
  by_cases hid : iid = some b.assetId
  · cases iss with
    | none =>
      rw [hnone rfl] at hid
      cases hid
    | some d =>
      rw [hgrouped.issued d rfl b hb hid, mem_singleton] at hin
      rw [hin, Ideal.Bounded, I.amount_commit]
      exact d.atomicSupply.toNat_lt
  · have hprove : input ∈ inputsToProve iid bals := by
      refine mem_flatMap.mpr ⟨b, hb, ?_⟩
      rw [if_neg hid]
      exact hin
    obtain ⟨arranged, hperm, hmatches⟩ := howned.matching
    obtain ⟨pf, hpf, hmatch⟩ := (forall₂_partner hmatches).2 input hprove
    rw [← hmatch.2]
    exact hpfs pf (hperm.mem_iff.mp hpf)

/-- A transaction whose consumed amounts are bounded conserves every asset up to its own
issuance. -/
theorem payload_conserves {p : AssetTransactionPayload K} {known : List Hash} {net : NetworkType}
    {car : Hash} {u : Unit} (h : verifyAssetTransactionPayload C p known net car = .ok u)
    (hbounded : ∀ pf ∈ p.ownershipProofs, I.Bounded pf.pseudoInput) :
    ∃ iid, deriveIssuedId C (p.issuance.map IssuancePayload.descriptor) = .ok iid ∧
      (∀ e ∈ createdEntries I p, e.2 < 2 ^ 64) ∧
      ∀ a, total a (createdEntries I p) + total a (burnedEntries I p) =
        total a (consumedEntries I p) +
          total a (issuedEntries (p.issuance.map IssuancePayload.descriptor) iid) := by
  obtain ⟨hshape, -, -, hvalid, iid, hiss, howned⟩ :=
    verifyPayload_facts C p h
  have hnone := deriveIssuedId_none hiss
  have hgrouped := verifyTransaction_grouped hiss hvalid
  have hins := inputs_bounded I _ _ hnone hgrouped howned hbounded
  refine ⟨iid, hiss, ?_, fun a => ?_⟩
  · intro e he
    rw [createdEntries_eq I hshape] at he
    obtain ⟨b, hb, he⟩ := mem_flatMap.mp he
    obtain ⟨k, hk, rfl⟩ := mem_map.mp he
    exact (balance_conserves I (hgrouped.verified b hb)).1 k hk
  · have hgroups : total a (p.balances.flatMap fun b => inputEntries I b.pseudoInputs) =
        total a (createdEntries I p) + total a (burnedEntries I p) := by
      rw [createdEntries_eq I hshape, burnedEntries, total_flatMap, total_flatMap,
        total_flatMap, ← sum_map_add]
      refine congrArg List.sum (map_congr_left fun b hb => ?_)
      exact group_total I (hgrouped.verified b hb) (hins b hb) a
    rw [← hgroups, consumed_total I howned a]
    exact inputs_total I _ _ hnone hgrouped.ids_nodup hgrouped.issued hgrouped.found a

end Monzero.BalanceConservation
