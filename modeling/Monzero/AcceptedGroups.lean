import Monzero.AssetConfidential

/-!
What the loop over the balance groups establishes, and what makes it succeed. Each group
is judged on its own apart from the ids seen before it, so a transaction's groups are
accepted exactly when they are for different assets, each passes its own checks, and the
issued asset is among them.
-/
namespace Monzero.AcceptedGroups

open Checked Primitives AssetTypes AssetConfidential List

variable {K : Type} [DecidableEq K]

/-- What is asked of one group: it is for a known asset, or for the new one and then its only
input commits to the supply; and it balances. -/
structure GroupAccepted (C : Crypto K) (known : List Hash) (issuance : Option IssuanceDescriptor)
    (issuedId : Option Hash) (b : ConfidentialAssetBalance K) : Prop where
  unissued_known : issuedId ≠ some b.assetId → b.assetId ∈ known
  issued : ∀ d, issuance = some d → issuedId = some b.assetId → b.assetId ∉ known ∧
    b.pseudoInputs = [{ sourceAssetId := b.assetId, commitment := C.commit d.atomicSupply C.zero }]
  balanced : verifyConfidentialAssetBalance C b = .ok ()

def isIssuance (issuance : Option IssuanceDescriptor) (issuedId : Option Hash)
    (b : ConfidentialAssetBalance K) : Bool :=
  issuance.isSome && issuedId = some b.assetId

variable (C : Crypto K) (known : List Hash) (iss : Option IssuanceDescriptor)

theorem checkIssuanceGroup_eq_ok_iff (iid : Option Hash) (b : ConfidentialAssetBalance K)
    (flag : Bool) : checkIssuanceGroup C known iss iid b = .ok flag ↔
      (∀ d, iss = some d → iid = some b.assetId → b.assetId ∉ known ∧ b.pseudoInputs =
          [{ sourceAssetId := b.assetId, commitment := C.commit d.atomicSupply C.zero }]) ∧
      isIssuance iss iid b = flag := by
  cases iss with
  | none => simp [checkIssuanceGroup, isIssuance]
  | some d =>
    by_cases hid : iid = some b.assetId
    · simp only [checkIssuanceGroup, hid, if_true, bind_eq_ok, failIf_eq_ok, exists_unit,
        pure_eq_ok, ne_eq, not_not, isIssuance, Option.isSome_some, Bool.true_and, decide_true,
        Option.some.injEq, forall_eq', true_implies, and_assoc]
    · simp [checkIssuanceGroup, isIssuance, hid]

theorem checkGroup_eq_ok_iff (iid : Option Hash) (st st' : List Hash × Bool)
    (b : ConfidentialAssetBalance K) : checkGroup C known iss iid st b = .ok st' ↔
      b.assetId ∉ st.1 ∧ GroupAccepted C known iss iid b ∧
        (b.assetId :: st.1, st.2 || isIssuance iss iid b) = st' := by
  simp only [checkGroup, bind_eq_ok, failIf_eq_ok, exists_unit, pure_eq_ok,
    checkIssuanceGroup_eq_ok_iff, not_and, not_not]
  constructor
  · rintro ⟨hnew, hknown, flag, ⟨hiss, rfl⟩, hbalanced, rfl⟩
    exact ⟨hnew, ⟨hknown, hiss, hbalanced⟩, rfl⟩
  · rintro ⟨hnew, ⟨hknown, hiss, hbalanced⟩, rfl⟩
    exact ⟨hnew, hknown, _, ⟨hiss, rfl⟩, hbalanced, rfl⟩

/-- The loop goes through exactly when each group is accepted and new, and then it has found
the issuance if one of the groups is it. -/
theorem loop_checkGroup_eq_ok_iff (iid : Option Hash)
    (bals : List (ConfidentialAssetBalance K)) (seen : List Hash) (found found' : Bool) :
    (∃ seen', loop (checkGroup C known iss iid) bals (seen, found) = .ok (seen', found')) ↔
      (∀ b ∈ bals, b.assetId ∉ seen) ∧ (bals.map ConfidentialAssetBalance.assetId).Nodup ∧
      (∀ b ∈ bals, GroupAccepted C known iss iid b) ∧
      (found || bals.any (isIssuance iss iid)) = found' := by
  induction bals generalizing seen found with
  | nil => simp
  | cons b rest ih =>
    have hstep : (∃ seen', loop (checkGroup C known iss iid) (b :: rest)
          (seen, found) = .ok (seen', found')) ↔
        b.assetId ∉ seen ∧ GroupAccepted C known iss iid b ∧
          ∃ seen', loop (checkGroup C known iss iid) rest
            (b.assetId :: seen, found || isIssuance iss iid b) =
              .ok (seen', found') := by
      simp only [loop_cons_eq_ok, checkGroup_eq_ok_iff]
      constructor
      · rintro ⟨seen', _, ⟨hnew, hacc, rfl⟩, hrest⟩
        exact ⟨hnew, hacc, seen', hrest⟩
      · rintro ⟨hnew, hacc, seen', hrest⟩
        exact ⟨seen', _, ⟨hnew, hacc, rfl⟩, hrest⟩
    have hids : (∀ c ∈ rest, c.assetId ∉ b.assetId :: seen) ↔
        b.assetId ∉ rest.map ConfidentialAssetBalance.assetId ∧
          ∀ c ∈ rest, c.assetId ∉ seen := by
      simp only [mem_cons, not_or, forall_and, mem_map, not_exists, not_and]
    rw [hstep, ih, hids]
    simp only [forall_mem_cons, map_cons, nodup_cons, any_cons, Bool.or_assoc]
    tauto

omit [DecidableEq K] in
theorem exists_issuance {C : Crypto K} {iss : Option IssuanceDescriptor} {id : Hash}
    (h : deriveIssuedId C iss = .ok (some id)) :
    ∃ d, iss = some d ∧ deriveAssetId C d = .ok id := by
  cases iss with
  | none => cases h
  | some d =>
    simp only [deriveIssuedId, bind_eq_ok, pure_eq_ok, Option.some.injEq, exists_eq_right] at h
    exact ⟨d, rfl, h⟩

/-- What it takes for the groups of a transaction to be accepted. -/
structure TransactionAccepted (C : Crypto K) (balances : List (ConfidentialAssetBalance K))
    (known : List Hash) (issuance : Option IssuanceDescriptor) (issuedId : Option Hash) :
    Prop where
  nonempty : balances ≠ []
  derived : deriveIssuedId C issuance = .ok issuedId
  ids_nodup : (balances.map ConfidentialAssetBalance.assetId).Nodup
  groups : ∀ b ∈ balances, GroupAccepted C known issuance issuedId b
  found : issuance.isSome = true → ∃ b ∈ balances, issuedId = some b.assetId

theorem verifyTransaction_eq_ok_iff (bals : List (ConfidentialAssetBalance K))
    (known : List Hash) (iss : Option IssuanceDescriptor) :
    verifyConfidentialAssetTransaction C bals known iss = .ok () ↔
      ∃ iid, TransactionAccepted C bals known iss iid := by
  have hfound (iid : Option Hash) : ¬(iss.isSome = true ∧ bals.any (isIssuance iss iid) = false) ↔
        (iss.isSome = true → ∃ b ∈ bals, iid = some b.assetId) := by
    cases iss <;> simp [isIssuance]
  have hloop (iid : Option Hash) :=
    loop_checkGroup_eq_ok_iff C known iss iid bals [] false
  simp only [not_mem_nil, not_false_eq_true, implies_true, true_and, Bool.false_or] at hloop
  simp only [verifyConfidentialAssetTransaction, bind_eq_ok, failIf_eq_ok, exists_unit]
  constructor
  · rintro ⟨hne, iid, hderived, ⟨seen, found⟩, hrun, hflag⟩
    obtain ⟨hnd, hgroups, rfl⟩ := (hloop iid found).mp ⟨seen, hrun⟩
    exact ⟨iid, hne, hderived, hnd, hgroups, (hfound iid).mp hflag⟩
  · rintro ⟨iid, h⟩
    obtain ⟨seen, hrun⟩ := (hloop iid _).mpr ⟨h.ids_nodup, h.groups, rfl⟩
    exact ⟨h.nonempty, iid, h.derived, _, hrun, (hfound iid).mpr h.found⟩

end Monzero.AcceptedGroups
