import Monzero.IssuanceCodec
import Monzero.ComparatorSort
import Monzero.Tally

/-!
The transparent balance statement: a native balance, an optional issuance, and lists of
amounts that assets bring in, pay out and burn. The validator totals each list per asset
in guarded 64-bit arithmetic and then looks at the touched assets one by one. It accepts
exactly the statements that conserve every asset as numbers.
-/
namespace Monzero.TransparentBalance

open Bytes Checked Primitives AssetTypes IssuanceCodec ComparatorSort Ledger Tally List

variable {K : Type}

structure TransparentAmount where
  assetId : Hash
  amount : UInt64
deriving DecidableEq

structure TransparentBalanceStatement where
  xmzInputs : UInt64
  xmzOutputs : UInt64
  xmzFee : UInt64
  issuance : Option IssuanceDescriptor
  assetInputs : List TransparentAmount
  assetOutputs : List TransparentAmount
  assetBurns : List TransparentAmount
deriving DecidableEq

/-- One turn of `aggregate`. -/
def aggregateEntry (totals : Totals Hash) (entry : TransparentAmount) :
    Except String (Totals Hash) := do
  failIf (entry.assetId = nullHash) "the zero asset ID is reserved and invalid"
  failIf (entry.amount = 0) "zero-valued asset entries are not canonical"
  add "asset amount aggregation overflow" totals entry.assetId entry.amount

def aggregate (entries : List TransparentAmount) : Except String (Totals Hash) :=
  loop aggregateEntry entries ∅

/-- The issuance of a statement: the id it creates, if there is one. -/
def checkIssuance (C : Crypto K) (known : Finset Hash) (inputs outputs burns : Totals Hash) :
    Option IssuanceDescriptor → Except String (Option Hash)
  | none => .ok none
  | some issuance => do
      let assetId ← deriveAssetId C issuance
      failIf (assetId ∈ known) "asset ID is already issued"
      failIf (assetId ∈ inputs ∨ assetId ∈ burns)
        "newly issued supply cannot have inputs or burns"
      failIf (outputs.lookup assetId ≠ some issuance.atomicSupply)
        "issuance outputs must equal the complete fixed supply"
      return some assetId

/-- One turn of the loop over the touched assets. -/
def checkTouched (known : Finset Hash) (inputs outputs burns : Totals Hash)
    (issued : Option Hash) (assetId : Hash) : Except String Unit :=
  if issued = some assetId then .ok ()
  else do
    failIf (assetId ∉ known) "statement references an unknown asset ID"
    let input := inputs.at assetId
    let output := outputs.at assetId
    let burn := burns.at assetId
    failIf (output > 18446744073709551615 - burn ∨ input ≠ output + burn)
      "asset inputs must equal outputs plus explicit burns"

/-- `std::set<crypto::hash>` filled with the keys of the three tables, in its order. -/
def touchedAssets (inputs outputs burns : Totals Hash) : List Hash :=
  sortBy (fun a b => memcmpLt a.bytes b.bytes)
    (inputs.keys ++ outputs.keys ++ burns.keys).dedup

def validateTransparentBalanceStatement (C : Crypto K) (statement : TransparentBalanceStatement)
    (known : Finset Hash) : Except String Unit := do
  failIf (statement.xmzOutputs > 18446744073709551615 - statement.xmzFee ∨
      statement.xmzInputs ≠ statement.xmzOutputs + statement.xmzFee)
    "XMZ inputs must equal XMZ outputs plus the XMZ fee"
  let inputs ← aggregate statement.assetInputs
  let outputs ← aggregate statement.assetOutputs
  let burns ← aggregate statement.assetBurns
  let issued ← checkIssuance C known inputs outputs burns statement.issuance
  let touched := touchedAssets inputs outputs burns
  failIf (touched = []) "asset statement contains no issuance, transfer, or burn"
  checkAll (checkTouched known inputs outputs burns issued) touched

/-! ### Conservation as numbers -/

/-- The entries of a list as amounts under asset ids. -/
def ledger (entries : List TransparentAmount) : List (Hash × ℕ) :=
  entries.map fun e => (e.assetId, e.amount.toNat)

/-- The sum of what a list holds of one asset. -/
def sumOf (id : Hash) (entries : List TransparentAmount) : ℕ := total id (ledger entries)

namespace TransparentBalanceStatement

def entries (s : TransparentBalanceStatement) : List TransparentAmount :=
  s.assetInputs ++ s.assetOutputs ++ s.assetBurns

/-- Some amount of the statement is of this asset. -/
def Touches (s : TransparentBalanceStatement) (id : Hash) : Prop :=
  ∃ e ∈ s.entries, e.assetId = id

/-- The asset this statement creates. -/
def Issues (C : Crypto K) (s : TransparentBalanceStatement) (id : Hash) : Prop :=
  ∃ d, s.issuance = some d ∧ deriveAssetId C d = .ok id

end TransparentBalanceStatement

/-- A statement issues its whole supply at once, under an id that was not known. -/
structure IssuesSupply (C : Crypto K) (s : TransparentBalanceStatement) (known : Finset Hash)
    (d : IssuanceDescriptor) (id : Hash) : Prop where
  valid : validateIssuanceDescriptor C d = .ok ()
  derived : deriveAssetId C d = .ok id
  unknown : id ∉ known
  created : ∀ e ∈ s.assetInputs ++ s.assetBurns, e.assetId ≠ id
  supply : sumOf id s.assetOutputs = d.atomicSupply.toNat

/-- What it means that a statement conserves the native coin and every asset. -/
structure Conserves (C : Crypto K) (s : TransparentBalanceStatement) (known : Finset Hash) :
    Prop where
  native : s.xmzInputs.toNat = s.xmzOutputs.toNat + s.xmzFee.toNat
  canonical : ∀ e ∈ s.entries, e.assetId ≠ nullHash ∧ e.amount ≠ 0
  bounded : ∀ id, sumOf id s.assetInputs < 2 ^ 64 ∧ sumOf id s.assetOutputs < 2 ^ 64 ∧
    sumOf id s.assetBurns < 2 ^ 64
  touched : ∃ id, s.Touches id
  issuance : ∀ d, s.issuance = some d → ∃ id, IssuesSupply C s known d id
  balanced : ∀ id, s.Touches id → ¬s.Issues C id → id ∈ known ∧
    sumOf id s.assetInputs = sumOf id s.assetOutputs + sumOf id s.assetBurns

/-! ### The three tables -/

theorem aggregateEntry_eq_ok_iff {done : List (Hash × ℕ)} {tots : Totals Hash}
    (h : Tallies done tots) (ent : TransparentAmount) (next : Totals Hash) :
    aggregateEntry tots ent = .ok next ↔ (ent.assetId ≠ nullHash ∧ ent.amount ≠ 0) ∧
      total ent.assetId (done ++ [(ent.assetId, ent.amount.toNat)]) < 2 ^ 64 ∧
      tots.insert ent.assetId (tots.at ent.assetId + ent.amount) = next := by
  simp only [aggregateEntry, bind_eq_ok, failIf_eq_ok, exists_unit, h.add_eq_ok_iff, ne_eq,
    and_assoc]

theorem total_le_append (id : Hash) {l : List (Hash × ℕ)} (l' : List (Hash × ℕ)) :
    total id l ≤ total id (l ++ l') := by
  rw [total_append]
  exact Nat.le_add_right _ _

/-- The loop goes through exactly when every entry is canonical and no total leaves its range,
and it ends with the totals. -/
theorem loop_aggregate (es : List TransparentAmount) (done : List (Hash × ℕ))
    (tots : Totals Hash) (h : Tallies done tots) : ((∃ t, loop aggregateEntry es tots = .ok t) ↔
      (∀ e ∈ es, e.assetId ≠ nullHash ∧ e.amount ≠ 0) ∧
        ∀ id, total id (done ++ ledger es) < 2 ^ 64) ∧
    ∀ t, loop aggregateEntry es tots = .ok t → Tallies (done ++ ledger es) t := by
  induction es generalizing done tots with
  | nil =>
    refine ⟨⟨fun _ => ⟨by simp, fun id => ?_⟩, fun _ => ⟨tots, rfl⟩⟩, ?_⟩
    · simpa [ledger] using h.total_lt id
    · rintro t ⟨⟩
      simpa [ledger] using h
  | cons e rest ih =>
    have hsplit : done ++ ledger (e :: rest) =
        (done ++ [(e.assetId, e.amount.toNat)]) ++ ledger rest := by simp [ledger]
    rw [hsplit]
    constructor
    · constructor
      · rintro ⟨t, ht⟩
        obtain ⟨next, hstep, hrest⟩ := loop_cons_eq_ok.mp ht
        obtain ⟨hcan, hlt, rfl⟩ := (aggregateEntry_eq_ok_iff h e next).mp hstep
        obtain ⟨hall, hbound⟩ := (ih _ _ (h.insert _ _ hlt)).1.mp ⟨t, hrest⟩
        exact ⟨forall_mem_cons.mpr ⟨hcan, hall⟩, hbound⟩
      · rintro ⟨hall, hbound⟩
        obtain ⟨hcan, hall⟩ := forall_mem_cons.mp hall
        have hlt := (total_le_append e.assetId (ledger rest)).trans_lt (hbound e.assetId)
        obtain ⟨t, ht⟩ := (ih _ _ (h.insert _ _ hlt)).1.mpr ⟨hall, hbound⟩
        have hstep := (aggregateEntry_eq_ok_iff h e _).mpr ⟨hcan, hlt, rfl⟩
        exact ⟨t, loop_cons_eq_ok.mpr ⟨_, hstep, ht⟩⟩
    · intro t ht
      obtain ⟨next, hstep, hrest⟩ := loop_cons_eq_ok.mp ht
      obtain ⟨-, hlt, rfl⟩ := (aggregateEntry_eq_ok_iff h e next).mp hstep
      exact (ih _ _ (h.insert _ _ hlt)).2 t hrest

theorem exists_aggregate_iff (es : List TransparentAmount) : (∃ t, aggregate es = .ok t) ↔
      (∀ e ∈ es, e.assetId ≠ nullHash ∧ e.amount ≠ 0) ∧ ∀ id, sumOf id es < 2 ^ 64 :=
  (loop_aggregate es [] ∅ tallies_nil).1

variable {es : List TransparentAmount} {t : Totals Hash}

theorem tallies_of_aggregate (h : aggregate es = .ok t) : Tallies (ledger es) t :=
  (loop_aggregate es [] ∅ tallies_nil).2 t h

/-- The tables of a statement hold its totals. -/
structure Tabled (s : TransparentBalanceStatement) (inputs outputs burns : Totals Hash) :
    Prop where
  inputs : Tallies (ledger s.assetInputs) inputs
  outputs : Tallies (ledger s.assetOutputs) outputs
  burns : Tallies (ledger s.assetBurns) burns

theorem mem_iff_of_tallies
    (h : Tallies (ledger es) t) (id : Hash) : id ∈ t ↔ ∃ e ∈ es, e.assetId = id := by
  simp [h.keys, ledger]

variable {inputs outputs burns : Totals Hash} {s : TransparentBalanceStatement}

theorem Tabled.mem_touched_iff (h : Tabled s inputs outputs burns) (id : Hash) :
    id ∈ touchedAssets inputs outputs burns ↔ s.Touches id := by
  rw [touchedAssets, (sortBy_perm _ _).mem_iff, mem_dedup, mem_append, mem_append,
    ← AList.mem_keys, ← AList.mem_keys, ← AList.mem_keys, mem_iff_of_tallies h.inputs,
    mem_iff_of_tallies h.outputs, mem_iff_of_tallies h.burns]
  simp only [TransparentBalanceStatement.Touches, TransparentBalanceStatement.entries,
    mem_append, or_and_right, exists_or]

/-! ### The checks on them -/

theorem Tabled.checkTouched_eq_ok_iff (h : Tabled s inputs outputs burns) (known : Finset Hash)
    (issued : Option Hash) (id : Hash) :
    checkTouched known inputs outputs burns issued id = .ok () ↔ (issued ≠ some id → id ∈ known ∧
        sumOf id s.assetInputs = sumOf id s.assetOutputs + sumOf id s.assetBurns) := by
  by_cases hiss : issued = some id
  · simp [checkTouched, hiss]
  · simp only [checkTouched, hiss, if_false, bind_eq_ok, failIf_eq_ok, exists_unit, not_not,
      guarded_sum_iff, h.inputs.amounts, h.outputs.amounts, h.burns.amounts, ne_eq,
      not_false_eq_true, true_implies, sumOf]

theorem lookup_eq_some_iff
    (h : Tallies (ledger es) t) (id : Hash) {value : UInt64} (hval : value ≠ 0) :
    t.lookup id = some value ↔ sumOf id es = value.toNat := by
  rw [sumOf, ← h.amounts, UInt64.toNat_inj]
  constructor
  · exact at_eq_of_lookup
  · intro hat
    cases hlookup : t.lookup id with
    | none =>
      rw [Totals.at, hlookup, Option.getD_none] at hat
      exact absurd hat.symm hval
    | some v =>
      rw [Totals.at, hlookup, Option.getD_some] at hat
      rw [hat]

variable {C : Crypto K}

theorem atomicSupply_ne_zero {d : IssuanceDescriptor}
    (h : validateIssuanceDescriptor C d = .ok ()) : d.atomicSupply ≠ 0 := by
  simp only [validateIssuanceDescriptor, bind_eq_ok, failIf_eq_ok, exists_unit] at h
  exact h.2.2.2.2.1

theorem Tabled.issuesSupply_iff (h : Tabled s inputs outputs burns) (C : Crypto K)
    (known : Finset Hash) (d : IssuanceDescriptor) (id : Hash) :
    IssuesSupply C s known d id ↔ deriveAssetId C d = .ok id ∧ id ∉ known ∧
      ¬(id ∈ inputs ∨ id ∈ burns) ∧ outputs.lookup id = some d.atomicSupply := by
  have hcreated : (∀ e ∈ s.assetInputs ++ s.assetBurns, e.assetId ≠ id) ↔
      ¬(id ∈ inputs ∨ id ∈ burns) := by
    rw [mem_iff_of_tallies h.inputs, mem_iff_of_tallies h.burns]
    simp only [mem_append, or_imp, forall_and, not_or, not_exists, not_and, ne_eq]
  constructor
  · intro hissues
    refine ⟨hissues.derived, hissues.unknown, hcreated.mp hissues.created, ?_⟩
    exact (lookup_eq_some_iff h.outputs id (atomicSupply_ne_zero hissues.valid)).mpr hissues.supply
  · rintro ⟨hderived, hunknown, hnew, hlookup⟩
    have hvalid := ((deriveAssetId_eq_ok C d id).mp hderived).1
    exact ⟨hvalid, hderived, hunknown, hcreated.mpr hnew,
      (lookup_eq_some_iff h.outputs id (atomicSupply_ne_zero hvalid)).mp hlookup⟩

theorem Tabled.checkIssuance_some (h : Tabled s inputs outputs burns) (C : Crypto K)
    (known : Finset Hash) (d : IssuanceDescriptor) (issued : Option Hash) :
    checkIssuance C known inputs outputs burns (some d) = .ok issued ↔
      ∃ id, IssuesSupply C s known d id ∧ some id = issued := by
  simp only [checkIssuance, bind_eq_ok, failIf_eq_ok, exists_unit, pure_eq_ok, not_not, ne_eq,
    h.issuesSupply_iff, and_assoc]

/-- The check on the issuance goes through when the issuance creates its supply, and it
returns the created id. -/
theorem Tabled.checkIssuance_eq_ok_iff (h : Tabled s inputs outputs burns) (C : Crypto K)
    (known : Finset Hash) (issued : Option Hash) :
    checkIssuance C known inputs outputs burns s.issuance = .ok issued ↔
      (∀ d, s.issuance = some d → ∃ id, IssuesSupply C s known d id) ∧
        ∀ id, issued = some id ↔ s.Issues C id := by
  cases hissuance : s.issuance with
  | none =>
    simp only [checkIssuance, Except.ok.injEq, TransparentBalanceStatement.Issues, hissuance,
      reduceCtorEq, false_and, exists_false, iff_false, false_implies, implies_true, true_and]
    rw [eq_comm, Option.eq_none_iff_forall_ne_some]
  | some d =>
    have hissues : ∀ id, s.Issues C id ↔ deriveAssetId C d = .ok id := by
      simp [TransparentBalanceStatement.Issues, hissuance]
    rw [h.checkIssuance_some]
    constructor
    · rintro ⟨id, hid, rfl⟩
      refine ⟨fun d' hd' => ⟨id, by rwa [← Option.some.inj hd']⟩, fun other => ?_⟩
      rw [hissues, hid.derived, Except.ok.injEq, Option.some.injEq]
    · rintro ⟨hall, hiss⟩
      obtain ⟨id, hid⟩ := hall d rfl
      exact ⟨id, hid, ((hiss id).mpr ((hissues id).mpr hid.derived)).symm⟩

theorem exists_issued {known : Finset Hash}
    (h : ∀ d, s.issuance = some d → ∃ id, IssuesSupply C s known d id) :
    ∃ issued : Option Hash, ∀ id, issued = some id ↔ s.Issues C id := by
  cases hiss : s.issuance with
  | none => exact ⟨none, by simp [TransparentBalanceStatement.Issues, hiss]⟩
  | some d =>
    obtain ⟨id, hid⟩ := h d hiss
    refine ⟨some id, fun other => ?_⟩
    simp [TransparentBalanceStatement.Issues, hiss, hid.derived]

/-- With the tables filled, the rest of the validator decides the rest of conservation. -/
theorem Tabled.checks_iff (h : Tabled s inputs outputs burns) (C : Crypto K) (known : Finset Hash) :
    (∃ issued, checkIssuance C known inputs outputs burns s.issuance = .ok issued ∧
      touchedAssets inputs outputs burns ≠ [] ∧ ∀ id ∈ touchedAssets inputs outputs burns,
        checkTouched known inputs outputs burns issued id = .ok ()) ↔
    (∃ id, s.Touches id) ∧ (∀ d, s.issuance = some d → ∃ id, IssuesSupply C s known d id) ∧
      ∀ id, s.Touches id → ¬s.Issues C id → id ∈ known ∧
        sumOf id s.assetInputs = sumOf id s.assetOutputs + sumOf id s.assetBurns := by
  have htouched : touchedAssets inputs outputs burns ≠ [] ↔ ∃ id, s.Touches id := by
    simp only [← h.mem_touched_iff]
    exact ⟨exists_mem_of_ne_nil _, fun ⟨_, hid⟩ => ne_nil_of_mem hid⟩
  simp only [htouched, h.checkIssuance_eq_ok_iff, h.checkTouched_eq_ok_iff, h.mem_touched_iff]
  constructor
  · rintro ⟨issued, ⟨hissuance, hiss⟩, hsome, hall⟩
    refine ⟨hsome, hissuance, fun id hid hnot => hall id hid ?_⟩
    rwa [ne_eq, hiss]
  · rintro ⟨hsome, hissuance, hall⟩
    obtain ⟨issued, hiss⟩ := exists_issued hissuance
    refine ⟨issued, ⟨hissuance, hiss⟩, hsome, fun id hid hne => hall id hid ?_⟩
    rwa [← hiss]

/-- The tables can be filled exactly when the entries are canonical and no total overflows. -/
theorem exists_tables_iff (s : TransparentBalanceStatement) :
    (∃ inputs outputs burns, aggregate s.assetInputs = .ok inputs ∧
      aggregate s.assetOutputs = .ok outputs ∧ aggregate s.assetBurns = .ok burns) ↔
    (∀ e ∈ s.entries, e.assetId ≠ nullHash ∧ e.amount ≠ 0) ∧
      ∀ id, sumOf id s.assetInputs < 2 ^ 64 ∧ sumOf id s.assetOutputs < 2 ^ 64 ∧
        sumOf id s.assetBurns < 2 ^ 64 := by
  simp only [exists_and_left, exists_and_right, exists_aggregate_iff,
    TransparentBalanceStatement.entries, forall_mem_append, forall_and]
  tauto

/-- Conservation is exact: the validator accepts a statement exactly when it conserves the
native coin and every asset as numbers. -/
theorem validate_transparent_balance_statement_iff (C : Crypto K)
    (s : TransparentBalanceStatement) (known : Finset Hash) :
    validateTransparentBalanceStatement C s known = .ok () ↔ Conserves C s known := by
  simp only [validateTransparentBalanceStatement, bind_eq_ok, failIf_eq_ok, exists_unit,
    guarded_sum_iff, checkAll_eq_ok]
  constructor
  · rintro ⟨hnative, inputs, hinputs, outputs, houtputs, burns, hburns, hchecks⟩
    have htabled : Tabled s inputs outputs burns :=
      ⟨tallies_of_aggregate hinputs, tallies_of_aggregate houtputs, tallies_of_aggregate hburns⟩
    obtain ⟨hcanonical, hbounded⟩ :=
      (exists_tables_iff s).mp ⟨inputs, outputs, burns, hinputs, houtputs, hburns⟩
    obtain ⟨htouched, hissuance, hbalanced⟩ := (htabled.checks_iff C known).mp hchecks
    exact ⟨hnative, hcanonical, hbounded, htouched, hissuance, hbalanced⟩
  · intro h
    obtain ⟨inputs, outputs, burns, hinputs, houtputs, hburns⟩ :=
      (exists_tables_iff s).mpr ⟨h.canonical, h.bounded⟩
    have htabled : Tabled s inputs outputs burns :=
      ⟨tallies_of_aggregate hinputs, tallies_of_aggregate houtputs, tallies_of_aggregate hburns⟩
    exact ⟨h.native, inputs, hinputs, outputs, houtputs, burns, hburns,
      (htabled.checks_iff C known).mpr ⟨h.touched, h.issuance, h.balanced⟩⟩

/-- Two inputs of one asset against an output and a burn of it. -/
example (C : Crypto K) :
    let id : Hash := ⟨List.replicate 32 7, rfl⟩
    validateTransparentBalanceStatement C
      ⟨10, 9, 1, none, [⟨id, 3⟩, ⟨id, 4⟩], [⟨id, 5⟩], [⟨id, 2⟩]⟩ {id} = .ok () := by
  rfl

end Monzero.TransparentBalance
