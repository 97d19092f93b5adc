import Monzero.RegistryRuns

/-!
Which network the stored issuances belong to. Applying a transaction compares the
network of the payload with the expected one but never looks at the network of the
nested descriptor, so the stored record belongs to the expected network exactly when
the caller's descriptor does. The loader is the first to compare it, and it then
refuses the whole registry.
-/
namespace Monzero.NetworkConfinement

open Checked Primitives AssetTypes IssuanceCodec AssetRegistry AssetWire AssetDb RegistryReload
  AssetRuns RegistryRuns Runs ToyCrypto

variable {B K : Type}

/-- The message of a load that meets a record of another network. -/
def differentNetwork : String := "stored asset belongs to a different network"

/-- Every message of an application is another one. -/
theorem applyIssuance_ne (C : Crypto K) (r : Registry) (p : IssuancePayload) (height : ℕ) :
    r.applyIssuance C p height ≠ .error differentNetwork := by
  unfold Registry.applyIssuance deriveAssetId verifyIssuanceAuthorization Registry.checkCollection
    deriveIssuanceAuthorizationHash verifyCollectionMembership deriveCollectionMembershipHash
    encodeIssuanceDescriptor validateIssuanceDescriptor
  repeat' first
    | refine bind_ne_error ?_ fun _ => ?_
    | refine failIf_ne_error _ (by decide)
    | split
    | simp [differentNetwork, pure, Except.pure]

/-- A database whose records all decode to the expected network does not fail to load with
the network message. -/
theorem load_ne_differentNetwork (C : Crypto K) (net : NetworkType) (t : AssetTables K)
    (h : ∀ row ∈ t.records.rows, ∃ p, decodeIssuancePayload C row.value = .ok p ∧
      p.descriptor.network = net) :
    loadRegistryFromDb C t net ≠ .error differentNetwork := by
  intro hload
  obtain ⟨row, hrow, r, hstep⟩ := loop_eq_error _ _ _ _ hload
  obtain ⟨p, hdec, hnet⟩ := h row ((sortRecords_perm _).mem_iff.mp hrow)
  simp only [replayRecord, hdec, ok_bind, bind_eq_error, failIf_eq_error] at hstep
  rcases hstep with ⟨hne, -⟩ | ⟨_, -, happly | ⟨_, -, ⟨-, h⟩ | ⟨_, -, h⟩⟩⟩
  · exact hne hnet
  · exact applyIssuance_ne C r p row.height happly
  · simp [differentNetwork] at h
  · cases h

/-- The record an application stored belongs to the expected network. -/
def StoredConfined (C : Crypto K) (network : NetworkType) (t t' : AssetTables K) : Prop :=
  ∃ row, t'.records.rows = t.records.rows ++ [row] ∧
    ∃ q, decodeIssuancePayload C row.value = .ok q ∧ q.descriptor.network = network

theorem storedConfined_iff [DecidableEq K] (C : Crypto K) (net : NetworkType)
    (t t' : AssetTables K) (p : AssetTransactionPayload K) (car : Hash) (height : ℕ)
    (ids : List Hash) (i : IssuancePayload) (hi : p.issuance = some i)
    (happ : applyAssetTransactionToDb C t p net car height = (.ok ids, t')) :
    StoredConfined C net t t' ↔ i.descriptor.network = net := by
  obtain ⟨_, -, ⟨hnone, -⟩ | ⟨j, r, id, enc, hj, -, henc, hrows⟩⟩ :=
    apply_issuance C t t' happ
  · rw [hi] at hnone
    cases hnone
  · have hij : i = j := by simpa using hi.symm.trans hj
    subst hij
    have hdec := decode_encode_payload C i enc henc
    constructor
    · rintro ⟨row, hrow, q, hq, hnet⟩
      have hlast := List.append_cancel_left (hrow.symm.trans hrows)
      obtain rfl : row = _ := List.singleton_inj.mp hlast
      have hqi : q = i := by simpa using hq.symm.trans hdec
      exact hqi ▸ hnet
    · intro hnet
      exact ⟨_, hrows, i, hdec, hnet⟩

/-- A successful application stores a record of the expected network exactly when the
descriptor it was given carries that network. In every run whose issuances do, no reached
database fails to load with the network message. -/
theorem network_confined [DecidableEq K] (C : Crypto K) (network : NetworkType) :
    (∀ (t t' : AssetTables K) (p : AssetTransactionPayload K) (carrier : Hash) (height : ℕ)
      (ids : List Hash) (i : IssuancePayload), p.issuance = some i →
        applyAssetTransactionToDb C t p network carrier height = (.ok ids, t') →
          (StoredConfined C network t t' ↔ i.descriptor.network = network)) ∧
      ∀ (blocks : List B) (events : List (AssetEvent B K)) (db : BlockchainDb B K),
        Run (AssetStep C network) ⟨blocks, .empty⟩ events db →
          (∀ e ∈ events, OwnNetwork network e) →
            loadRegistryFromDb C db.assets network ≠ .error differentNetwork := by
  constructor
  · intro t t' p carrier height ids i hi happ
    exact storedConfined_iff C network t t' p carrier height ids i hi happ
  · intro blocks events db run hown
    have hissued := issued_of_run C network blocks events db run hown
    apply load_ne_differentNetwork
    intro row hrow
    obtain ⟨p, hp⟩ := hissued row hrow
    exact ⟨p, hp.decoded, hp.network_eq⟩

def sampleIssue (network : NetworkType) : AssetTransactionPayload Key :=
  issue .mainnet (keyOfNat 11) (unitDescriptor network .fungible 1 nullHash nullHash) 21

def sampleTables (network : NetworkType) : AssetTables Key :=
  (applyAssetPayloads toy .mainnet 0 [(sampleIssue network, keyOfNat 11)] .empty).2

private theorem sampleIssue_applied (net : NetworkType)
    (h : (applyAssetTransactionToDb toy .empty (sampleIssue net) .mainnet (keyOfNat 11)
      0).1.toOption.isSome = true) :
    ∃ ids, applyAssetTransactionToDb toy .empty (sampleIssue net) .mainnet (keyOfNat 11) 0 =
      (.ok ids, sampleTables net) := by
  unfold sampleTables applyAssetPayloads
  rcases happ : applyAssetTransactionToDb toy .empty (sampleIssue net) .mainnet
    (keyOfNat 11) 0 with ⟨_ | ids, t⟩
  · rw [happ] at h
    cases h
  · exact ⟨ids, rfl⟩

theorem network_confined_sample :
    StoredConfined toy .mainnet .empty (sampleTables .mainnet) ∧
      loadRegistryFromDb toy (sampleDb 0).assets .mainnet ≠ .error differentNetwork := by
  obtain ⟨ids, happ⟩ := sampleIssue_applied .mainnet (by decide +kernel)
  have h := network_confined (B := Unit) toy .mainnet
  refine ⟨(h.1 _ _ _ _ _ _ _ rfl happ).mpr rfl, ?_⟩
  exact h.2 [] [.attach () (samplePayloads 0)] (sampleDb 0)
    (run_attach toy .mainnet [] .empty () (samplePayloads 0) (by decide +kernel)) (sample_own 0)

/-- On the main network a payload that issues an asset of the test network is applied, and
the database it leaves does not load. -/
theorem foreign_issuance_accepted :
    (applyAssetTransactionToDb toy .empty (sampleIssue .testnet) .mainnet (keyOfNat 11)
      0).1.toOption.isSome = true ∧
      Run (AssetStep toy .mainnet) ⟨[], .empty⟩
        [.attach () [(sampleIssue .testnet, keyOfNat 11)]] ⟨[()], sampleTables .testnet⟩ ∧
      ¬StoredConfined toy .mainnet .empty (sampleTables .testnet) ∧
      loadRegistryFromDb toy (sampleTables .testnet) .mainnet = .error differentNetwork := by
  obtain ⟨ids, happ⟩ := sampleIssue_applied .testnet (by decide +kernel)
  refine ⟨by decide +kernel, run_attach toy .mainnet [] .empty ()
    [(sampleIssue .testnet, keyOfNat 11)] (by decide +kernel), ?_, by decide +kernel⟩
  rw [storedConfined_iff toy .mainnet _ _ _ _ _ _ _ rfl happ]
  decide

end Monzero.NetworkConfinement
