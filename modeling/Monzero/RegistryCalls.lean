import Monzero.Codec
import Monzero.RegistrySnapshot
import Monzero.Runs
import Monzero.AssetWire

/-!
Registries under arbitrary sequences of calls, at heights in any order. Every call changes
the registry by registering issuances one after the other, by removal from a height, or
by starting again from the empty registry, so a property that these three keep holds
after every sequence. The property shown here is that no membership dangles: a collection
is registered no later than its members, and removal takes whole heights.
-/
namespace Monzero.RegistryCalls

open Checked Codec Primitives AssetTypes IssuanceCodec AssetRegistry TransactionExtension
  RegistrySnapshot Runs ToyCrypto

variable {K : Type}

/-- The calls that change an `asset_registry`. -/
inductive RegistryCall
  | applyIssuance (payload : IssuancePayload) (height : UInt64)
  | applyBlockIssuances (payloads : List IssuancePayload) (height : UInt64)
  | applyBlockExtensions (extensions : List Extension) (carrierPrefixHashes : List Hash)
      (expectedNetwork : NetworkType) (height : UInt64)
  | decodeSnapshot (encoded : List UInt8) (expectedNetwork : NetworkType)
  | detach (height : UInt64)

/-- What a call reports, with the ids it registered, and the registry it leaves. -/
def perform (C : Crypto K) (r : Registry) : RegistryCall → Except String (List Hash) × Registry
  | .applyIssuance payload height =>
      match r.applyIssuance C payload height.toNat with
      | .error e => (.error e, r)
      | .ok (r', assetId) => (.ok [assetId], r')
  | .applyBlockIssuances payloads height => applyBlockIssuances C r payloads height.toNat
  | .applyBlockExtensions extensions carrierPrefixHashes expectedNetwork height =>
      applyBlockExtensions C r extensions carrierPrefixHashes expectedNetwork height.toNat
  | .decodeSnapshot encoded expectedNetwork =>
      match decodeSnapshot C r encoded expectedNetwork with
      | (.error e, r') => (.error e, r')
      | (.ok (), r') => (.ok [], r')
  | .detach height => (.ok [], detach r height.toNat)

def CallStep (C : Crypto K) (r : Registry) (call : RegistryCall) (r' : Registry) : Prop :=
  (perform C r call).2 = r'

variable {I : Registry → Prop} (C : Crypto K) (r : Registry)

theorem applyBlockIssuances_cases (pls : List IssuancePayload) (height : ℕ) :
    (∃ e, applyBlockIssuances C r pls height = (.error e, r)) ∨
      ∃ r' ids, loop (applyNext C height) pls (r, []) = .ok (r', ids) ∧
        applyBlockIssuances C r pls height = (.ok ids, r') := by
  cases hloop : loop (applyNext C height) pls (r, []) with
  | error e =>
    left
    exact ⟨e, by rw [applyBlockIssuances, hloop]⟩
  | ok res =>
    right
    exact ⟨res.1, res.2, rfl, by rw [applyBlockIssuances, hloop]⟩

theorem applyBlockExtensions_cases (extensions : List Extension) (carriers : List Hash)
    (net : NetworkType) (height : ℕ) :
    (∃ e, applyBlockExtensions C r extensions carriers net height = (.error e, r)) ∨
      ∃ issuances, applyBlockExtensions C r extensions carriers net height =
        applyBlockIssuances C r issuances height := by
  unfold applyBlockExtensions
  split
  · exact Or.inl ⟨_, rfl⟩
  · cases mapAll (extensionIssuance C net) (extensions.zip carriers) with
    | error e => exact Or.inl ⟨e, rfl⟩
    | ok issuances => exact Or.inr ⟨issuances, rfl⟩

/-- Everything a call can do: fail and change nothing, register a list of issuances, detach,
or restore a snapshot. -/
theorem perform_cases (call : RegistryCall) : (∃ e, perform C r call = (.error e, r)) ∨
    (∃ pls ids r', ∃ height : UInt64, loop (applyNext C height.toNat) pls (r, []) = .ok (r', ids) ∧
        perform C r call = (.ok ids, r')) ∨
    (∃ height, perform C r call = (.ok [], detach r height)) ∨
    ∃ enc net restored, restoreSnapshot C enc net = .ok restored ∧
      perform C r call = (.ok [], restored) := by
  cases call with
  | applyIssuance pl height =>
    cases happly : r.applyIssuance C pl height.toNat with
    | error e => exact Or.inl ⟨e, by simp only [perform, happly]⟩
    | ok res =>
      refine Or.inr (Or.inl ⟨[pl], [res.2], res.1, height, ?_, ?_⟩)
      · simp only [loop, applyNext, happly, ok_bind]
        rfl
      · simp only [perform, happly]
  | applyBlockIssuances pls height =>
    rcases applyBlockIssuances_cases C r pls height.toNat with hfail | ⟨r', ids, hloop, hok⟩
    · exact Or.inl hfail
    · exact Or.inr (Or.inl ⟨pls, ids, r', height, hloop, hok⟩)
  | applyBlockExtensions extensions carriers net height =>
    rcases applyBlockExtensions_cases C r extensions carriers net height.toNat with
      hfail | ⟨issuances, heq⟩
    · exact Or.inl hfail
    · rcases applyBlockIssuances_cases C r issuances height.toNat with
        ⟨e, hfail⟩ | ⟨r', ids, hloop, hok⟩
      · exact Or.inl ⟨e, heq.trans hfail⟩
      · exact Or.inr (Or.inl ⟨issuances, ids, r', height, hloop, heq.trans hok⟩)
  | decodeSnapshot enc net =>
    cases hrestore : restoreSnapshot C enc net with
    | error e => exact Or.inl ⟨e, by simp only [perform, decodeSnapshot, hrestore]⟩
    | ok restored =>
      refine Or.inr (Or.inr (Or.inr ⟨enc, net, restored, hrestore, ?_⟩))
      simp only [perform, decodeSnapshot, hrestore]
  | detach height => exact Or.inr (Or.inr (Or.inl ⟨height.toNat, rfl⟩))

/-- A property of registries that registering an issuance and detaching keep. -/
structure Kept (C : Crypto K) (I : Registry → Prop) : Prop where
  empty : I .empty
  apply : ∀ r p height r' id, height < 2 ^ 64 → I r →
    r.applyIssuance C p height = .ok (r', id) → I r'
  detach : ∀ r height, I r → I (detach r height)

theorem Kept.applyNext {C : Crypto K} (h : Kept C I) {height : ℕ} (hht : height < 2 ^ 64)
    {pls : List IssuancePayload} {r r' : Registry} {ids : List Hash} (hr : I r)
    (hloop : loop (applyNext C height) pls (r, []) = .ok (r', ids)) : I r' := by
  refine loop_invariant (fun s : Registry × List Hash => I s.1) ?_ hr hloop
  intro s p s' _ hs hstep
  simp only [RegistrySnapshot.applyNext, bind_eq_ok, pure_eq_ok, Prod.exists] at hstep
  obtain ⟨reg, id, happly, rfl⟩ := hstep
  exact h.apply s.1 p height reg id hht hs happly

theorem Kept.restoreSnapshot {C : Crypto K} (h : Kept C I) {enc : List UInt8} {net : NetworkType}
    {restored : Registry} (hrestore : restoreSnapshot C enc net = .ok restored) : I restored := by
  simp only [RegistrySnapshot.restoreSnapshot, bind_eq_ok, failIf_eq_ok, pure_eq_ok,
    exists_unit, Prod.exists] at hrestore
  obtain ⟨-, -, -, _, _, -, -, _, _, -, -, _, _, -, -, final, hloop, -, rfl⟩ := hrestore
  refine loop_invariant (fun s : Restoring => I s.restored) ?_ h.empty hloop
  intro s _ s' _ hs hstep
  simp only [restoreRecord, bind_eq_ok, failIf_eq_ok, pure_eq_ok, exists_unit, Prod.exists,
    readUInt_eq_ok_iff] at hstep
  obtain ⟨height, _, ⟨hht, -⟩, _, _, -, -, p, -, -, _, -, -, reg, id, happly, rfl⟩ :=
    hstep
  exact h.apply s.restored p height reg id (by omega) hs happly

theorem Kept.perform {C : Crypto K} (h : Kept C I) (r : Registry) (call : RegistryCall) (hr : I r) :
    I (perform C r call).2 := by
  rcases perform_cases C r call with ⟨e, heq⟩ | ⟨pls, ids, r', height, hloop, heq⟩ |
    ⟨height, heq⟩ | ⟨enc, net, restored, hrestore, heq⟩
  · rw [heq]
    exact hr
  · rw [heq]
    exact h.applyNext height.toNat_lt hr hloop
  · rw [heq]
    exact h.detach r height hr
  · rw [heq]
    exact h.restoreSnapshot hrestore

theorem Kept.run {C : Crypto K} (h : Kept C I) {calls : List RegistryCall} {r : Registry}
    (run : Run (CallStep C) .empty calls r) : I r := by
  refine run.invariant I (fun _ => True) ?_ (fun _ _ => trivial) h.empty
  intro r call r' hr _ hstep
  have hnext := h.perform r call hr
  rw [hstep] at hnext
  exact hnext

theorem find_of_subset {r r' : Registry} (hsub : ∀ e ∈ r.records, e ∈ r'.records) {id : Hash}
    {rcd : AssetRecord} (h : r.find id = some rcd) : r'.find id = some rcd := by
  rw [Registry.find_eq_some_iff] at h ⊢
  exact hsub _ h

/-- A record stored under the id of its descriptor and signed by its issuer. If it names a
collection, that collection is registered and admits it at its height. -/
structure Sound (C : Crypto K) (r : Registry) (e : Entry) : Prop where
  derived : deriveAssetId C e.2.descriptor = .ok e.1
  authorized : verifyIssuanceAuthorization C e.2.descriptor e.2.issuerSignature = .ok ()
  member : claimsCollection e.2.descriptor = true →
    ∃ collection, r.find e.2.descriptor.collectionId = some collection ∧
      Registry.Admits C collection (payloadOf e.2) e.1 e.2.issuanceHeight
  unclaimed : claimsCollection e.2.descriptor = false → e.2.collectionSignature = none

def AllSound (C : Crypto K) (r : Registry) : Prop := ∀ e ∈ r.records, Sound C r e

theorem Sound.mono {C : Crypto K} {r r' : Registry} {e : Entry} (h : Sound C r e)
    (hfind : ∀ coll, r.find e.2.descriptor.collectionId = some coll →
      claimsCollection e.2.descriptor = true →
      Registry.Admits C coll (payloadOf e.2) e.1 e.2.issuanceHeight →
      r'.find e.2.descriptor.collectionId = some coll) : Sound C r' e where
  derived := h.derived
  authorized := h.authorized
  member := by
    intro hclaims
    obtain ⟨coll, hmem, hadmits⟩ := h.member hclaims
    exact ⟨coll, hfind coll hmem hclaims hadmits, hadmits⟩
  unclaimed := h.unclaimed

theorem sound_recordOf {r r' : Registry} {p : IssuancePayload} {height : ℕ} {id : Hash}
    (h : r.applyIssuance C p height = .ok (r', id)) : Sound C r (id, recordOf p height) := by
  obtain ⟨hderived, -, hauth, hcoll, -⟩ := Registry.applyIssuance_eq_ok.mp h
  obtain ⟨hclaimed, hunclaimed⟩ := Registry.checkCollection_eq_ok.mp hcoll
  refine ⟨hderived, hauth, ?_, hunclaimed⟩
  intro hclaims
  obtain ⟨coll, hfind, hadmits⟩ := hclaimed hclaims
  exact ⟨coll, hfind, ⟨hadmits.type_eq, hadmits.network_eq, hadmits.height_le, hadmits.signed⟩⟩

theorem apply_of_sound {e : Entry} (h : Sound C r e) (hnew : r.contains e.1 = false) :
    r.applyIssuance C (payloadOf e.2) e.2.issuanceHeight = .ok (r.emplace e.1 e.2, e.1) := by
  rw [Registry.applyIssuance_eq_ok]
  refine ⟨h.derived, hnew, h.authorized, ?_, rfl⟩
  rw [Registry.checkCollection_eq_ok]
  exact ⟨h.member, h.unclaimed⟩

theorem mem_detach (height : ℕ) (e : Entry) :
    e ∈ (detach r height).records ↔ e ∈ r.records ∧ e.2.issuanceHeight < height := by
  simp [detach]

theorem kept_allSound : Kept C (AllSound C) where
  empty := by
    intro e he
    simp [Registry.empty] at he
  apply r p height r' id _ hr h := by
    have hrecs := Registry.records_of_apply C r r' p height id h
    have hsub : ∀ e ∈ r.records, e ∈ r'.records := by
      intro e he
      rw [hrecs]
      exact List.mem_append_left _ he
    intro e he
    have hsound : Sound C r e := by
      rw [hrecs, List.mem_append, List.mem_singleton] at he
      rcases he with hold | rfl
      · exact hr e hold
      · exact sound_recordOf C h
    refine hsound.mono ?_
    intro coll hfind _ _
    exact find_of_subset hsub hfind
  detach r height hr := by
    intro e he
    obtain ⟨hold, hlow⟩ := (mem_detach r height e).mp he
    refine (hr e hold).mono ?_
    intro coll hfind _ hadmits
    -- The coll is registered no later than its member, so it stays too.
    have hle := hadmits.height_le
    rw [Registry.find_eq_some_iff] at hfind ⊢
    exact (mem_detach r height _).mpr ⟨hfind, by simp only; omega⟩

/-- After every sequence of calls all records are sound, and a call that fails changes nothing. -/
theorem registry_sound (C : Crypto K) :
    (∀ calls r, Run (CallStep C) .empty calls r → AllSound C r) ∧
      ∀ call r e r', perform C r call = (.error e, r') → r' = r := by
  constructor
  · intro calls r run
    exact (kept_allSound C).run run
  · intro call r e r' hfail
    rcases perform_cases C r call with ⟨e', heq⟩ | ⟨_, _, _, _, -, heq⟩ | ⟨_, heq⟩ |
      ⟨_, _, _, -, heq⟩
    · rw [heq] at hfail
      exact (Prod.mk.inj hfail).2.symm
    all_goals
      rw [heq] at hfail
      cases (Prod.mk.inj hfail).1

/-- A collection and a member whose id is smaller, registered by one block. -/
def sampleCalls : List RegistryCall :=
  [.applyBlockIssuances [signedIssuance sampleCollection, signedIssuance (sampleMember 1)] 7]

def sampleRegistry : Registry :=
  (applyBlockIssuances toy .empty
    [signedIssuance sampleCollection, signedIssuance (sampleMember 1)] 7).2

theorem sampleCalls_run : Run (CallStep toy) .empty sampleCalls sampleRegistry :=
  .cons rfl (.nil _)

theorem registry_sound_sample :
    sampleRegistry.records.length = 2 ∧ AllSound toy sampleRegistry :=
  ⟨by decide +kernel, (registry_sound toy).1 sampleCalls sampleRegistry sampleCalls_run⟩

end Monzero.RegistryCalls
