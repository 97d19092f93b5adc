import Monzero.BalanceConservation

/-!
The range proofs of a balance group and the commitments they are about. The loop over the
proofs counts commitments in a `size_t` and bounds each step by a subtraction that wraps when
a proof lists more commitments than were declared; the comparisons that follow read
`proven_commitments` by index. Here the count and the reads are kept as the code has them, a
read outside the vector being undefined, and the code is shown to compute what the list form
of the check computes.
-/
namespace Monzero.RangeCoverage

open Checked Primitives AssetConfidential BalanceConservation ToyCrypto List

variable {K : Type}

/-- A part of the function that reads nothing by index. -/
def defined {α : Type} (x : Except String α) : ExceptT String Option α := ExceptT.mk (some x)

theorem defined_bind {α β : Type} (x : Except String α) (f : α → Except String β) :
    (defined x >>= fun a => defined (f a)) = defined (x >>= f) := by
  cases x <;> rfl

theorem defined_map_bind {α β γ : Type} (x : Except String α) (g : α → β)
    (f : β → ExceptT String Option γ) :
    (defined (x.map g) >>= f) = (defined x >>= fun a => f (g a)) := by
  cases x <;> rfl

/-- One turn of the loop over the range proofs; the state is `proven_commitments` and
`proof_commitments`. -/
def countRangeProof (C : Crypto K) (commitmentCount : ℕ) (s : List K × ℕ)
    (proof : BulletproofPlus K) : Except String (List K × ℕ) := do
  failIf (proof.V = [] ∨ s.2 > sizeSub commitmentCount proof.V.length)
    "range proofs do not cover the declared commitments exactly"
  match C.bulletproofPlusVerify proof with
  | none => .error "malformed asset Bulletproof+"
  | some false => .error "invalid asset Bulletproof+"
  | some true =>
      return (s.1 ++ proof.V.map C.scalarmult8, (s.2 + proof.V.length) % 2 ^ 64)

theorem loop_countRangeProof (C : Crypto K) (count : ℕ) (pfs : List (BulletproofPlus K))
    (proven : List K) (h : proven.length + (pfs.map fun pf => pf.V.length).sum < 2 ^ 64) :
    loop (countRangeProof C count) pfs (proven, proven.length) =
      (loop (checkRangeProof C count) pfs proven).map fun proven => (proven, proven.length) := by
  induction pfs generalizing proven with
  | nil => rfl
  | cons pf rest ih =>
    rw [map_cons, sum_cons] at h
    have hstep : countRangeProof C count (proven, proven.length) pf =
        (checkRangeProof C count proven pf).map fun proven => (proven, proven.length) := by
      have hcnt : (proven.length + pf.V.length) % 2 ^ 64 =
          (proven ++ pf.V.map C.scalarmult8).length := by
        rw [Nat.mod_eq_of_lt (by omega), length_append, length_map]
      rw [countRangeProof, checkRangeProof, hcnt]
      dsimp only
      by_cases hp : pf.V = [] ∨ proven.length > sizeSub count pf.V.length
      · rw [failIf, if_pos hp]
        rfl
      · rw [failIf_of_not _ hp, ok_bind, ok_bind]
        cases C.bulletproofPlusVerify pf with
        | none => rfl
        | some verified => cases verified <;> rfl
    rw [loop, loop, hstep]
    cases hchecked : checkRangeProof C count proven pf with
    | error message => rfl
    | ok proven' =>
      obtain ⟨-, rfl⟩ := checkRangeProof_eq_ok C count proven proven' pf hchecked
      exact ih _ (by rw [length_append, length_map]; omega)

theorem loop_checkRangeProof (C : Crypto K) (count : ℕ) (pfs : List (BulletproofPlus K))
    (proven proven' : List K) (h : loop (checkRangeProof C count) pfs proven = .ok proven') :
    proven' = proven ++ pfs.flatMap fun pf => pf.V.map C.scalarmult8 := by
  induction pfs generalizing proven with
  | nil =>
    cases h
    simp
  | cons pf rest ih =>
    obtain ⟨next, hstep, hrest⟩ := loop_cons_eq_ok.mp h
    obtain ⟨-, rfl⟩ := checkRangeProof_eq_ok C count proven next pf hstep
    rw [ih _ hrest, flatMap_cons, append_assoc]

variable [DecidableEq K]

/-- The loop that compares `expected` with `proven_commitments` from `offset` on; undefined
when it reads past the end. -/
def compareFrom (proven : List K) (mismatch : String) : ℕ → List K → ExceptT String Option Unit
  | _, [] => defined (.ok ())
  | offset, key :: rest => do
      let found : K ← ExceptT.mk (proven[offset]?.map Except.ok)
      defined (failIf (found ≠ key) mismatch)
      compareFrom proven mismatch (offset + 1) rest

/-- `verify_confidential_asset_balance` with its counter and its indexed reads. -/
def verifyIndexed (C : Crypto K) (b : ConfidentialAssetBalance K) : ExceptT String Option Unit := do
  defined do
    failIf (b.assetId = nullHash) "confidential balance has a zero asset id"
    failIf (b.pseudoInputs = []) "confidential balance has no pseudo inputs"
    failIf (b.outputs = [] ∧ b.burns = []) "confidential balance has no outputs or burns"
    failIf (b.pseudoInputs.length > maxConfidentialAssetInputs ∨
        b.outputs.length + b.burns.length > maxConfidentialAssetOutputs)
      "confidential balance exceeds input or output limits"
    failIf (¬∀ input ∈ b.pseudoInputs, input.sourceAssetId = b.assetId)
      "pseudo input crosses asset balance domains"
    failIf (¬((b.pseudoInputs.map ConfidentialPseudoInput.commitment).all C.isInMainSubgroup ∧
        b.outputs.all C.isInMainSubgroup ∧ b.burns.all C.isInMainSubgroup))
      "confidential balance contains an invalid curve point"
  let s ← defined (loop (countRangeProof C (b.outputs.length + b.burns.length)) b.rangeProofs
    ([], 0))
  defined (failIf (s.2 ≠ b.outputs.length + b.burns.length)
    "range proofs do not cover every output and burn")
  compareFrom s.1 "range proof output commitment mismatch" 0 b.outputs
  compareFrom s.1 "range proof burn commitment mismatch" b.outputs.length b.burns
  defined (failIf (C.addKeys (b.pseudoInputs.map ConfidentialPseudoInput.commitment) ≠
      C.addKeys (b.outputs ++ b.burns))
    "asset commitments do not conserve value")

theorem compareFrom_eq (proven : List K) (mismatch : String) (offset : ℕ) (expected : List K)
    (h : offset + expected.length ≤ proven.length) : compareFrom proven mismatch offset expected =
      defined (failIf ((proven.drop offset).take expected.length ≠ expected) mismatch) := by
  induction expected generalizing offset with
  | nil => simp [compareFrom, failIf]
  | cons key rest ih =>
    rw [length_cons] at h
    have hlt : offset < proven.length := by omega
    rw [compareFrom, ih (offset + 1) (by omega), getElem?_eq_getElem hlt,
      drop_eq_getElem_cons hlt, length_cons, take_succ_cons]
    by_cases hkey : proven[offset] = key <;>
      simp [hkey, failIf, defined, bind, ExceptT.bind, ExceptT.mk, ExceptT.bindCont]

/-- The code reads inside the vector only, and decides as the list form does. -/
theorem verifyIndexed_eq (C : Crypto K) (b : ConfidentialAssetBalance K)
    (h : (b.rangeProofs.map fun pf => pf.V.length).sum < 2 ^ 64) :
    verifyIndexed C b = defined (verifyConfidentialAssetBalance C b) := by
  have hloop := loop_countRangeProof C (b.outputs.length + b.burns.length) b.rangeProofs []
    (by rwa [length_nil, Nat.zero_add])
  rw [length_nil] at hloop
  rw [verifyIndexed, verifyConfidentialAssetBalance, hloop]
  simp only [← defined_bind, bind_assoc, defined_map_bind]
  iterate 6 refine bind_congr fun _ => ?_
  refine bind_congr fun proven => ?_
  by_cases hlen : proven.length = b.outputs.length + b.burns.length
  · have hburns : (proven.drop b.outputs.length).take b.burns.length =
        proven.drop b.outputs.length :=
      take_of_length_le (by rw [length_drop]; omega)
    rw [compareFrom_eq _ _ _ _ (by omega), compareFrom_eq _ _ _ _ (by omega), hburns, drop_zero]
  · -- the count is wrong: neither form goes on to compare
    rw [failIf, if_pos hlen]
    rfl

/-- Accepted range proofs cover the outputs and then the burns, in order and with nothing
left over. The code with its wrapping count reads no index outside `proven_commitments`. -/
theorem range_proofs_cover (C : Crypto K) (b : ConfidentialAssetBalance K) :
    (∀ u, verifyConfidentialAssetBalance C b = .ok u →
      (b.rangeProofs.flatMap fun proof => proof.V.map C.scalarmult8) = b.outputs ++ b.burns) ∧
    ((b.rangeProofs.map fun proof => proof.V.length).sum < 2 ^ 64 →
      (verifyIndexed C b).run = some (verifyConfidentialAssetBalance C b)) := by
  refine ⟨fun u haccepted => ?_, verifyIndexed_eq C b⟩
  simp only [verifyConfidentialAssetBalance, bind_eq_ok, failIf_eq_ok, exists_unit, not_not,
    ne_eq] at haccepted
  obtain ⟨-, -, -, -, -, -, proven, hloop, -, houtputs, hburns, -⟩ := haccepted
  have hproven := loop_checkRangeProof C _ _ _ _ hloop
  rw [nil_append] at hproven
  rw [← hproven, ← take_append_drop b.outputs.length proven, houtputs, hburns]

/-- A group with one output and one burn, and range proofs that list these commitments. -/
def provenBy (commitments : List (List Key)) : ConfidentialAssetBalance Key where
  assetId := keyOfNat 2
  pseudoInputs := [{ sourceAssetId := keyOfNat 2, commitment := keyOfNat 3 }]
  outputs := [keyOfNat 1]
  burns := [keyOfNat 2]
  rangeProofs := commitments.map rangeProof

/-- A proof for the output and one for the burn are accepted. With three commitments in
the second the subtraction wraps and lets it pass, and the count that follows rejects it before
anything is read. -/
theorem range_proofs_cover_two :
    ((provenBy [[keyOfNat 1], [keyOfNat 2]]).rangeProofs.flatMap fun proof =>
        proof.V.map toy.scalarmult8) = [keyOfNat 1] ++ [keyOfNat 2] ∧
      sizeSub 2 3 = 2 ^ 64 - 1 ∧
      (verifyIndexed toy (provenBy [[keyOfNat 1], .replicate 3 (keyOfNat 2)])).run =
        some (.error "range proofs do not cover every output and burn") := by
  have haccepted :
      verifyConfidentialAssetBalance toy (provenBy [[keyOfNat 1], [keyOfNat 2]]) = .ok () := by
    decide +kernel
  have hrejected :
      verifyConfidentialAssetBalance toy (provenBy [[keyOfNat 1], .replicate 3 (keyOfNat 2)]) =
        .error "range proofs do not cover every output and burn" := by
    decide +kernel
  refine ⟨(range_proofs_cover toy _).1 () haccepted, by decide, ?_⟩
  rw [← hrejected]
  exact (range_proofs_cover toy _).2 (by decide)

end Monzero.RangeCoverage
