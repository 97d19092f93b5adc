import Monzero.SnapshotReplay

/-!
Snapshots restore what was encoded and have one spelling. A restored registry lists its
records in the order they were read, which is the order in which it would be encoded, so
encoding it gives the bytes back. The snapshot, and with it the snapshot's hash, depends
on the records alone and determines them.
-/
namespace Monzero.SnapshotFidelity

open Bytes Checked Codec Primitives AssetRegistry ComparatorSort RegistrySnapshot RegistryCalls List
  SnapshotReplay Runs ToyCrypto
open Registry (empty find_eq_some_iff)

variable {K : Type}

/-- The records restored so far, as they were read from the body of a snapshot. -/
structure Listed (C : Crypto K) (network : NetworkType) (body : List UInt8) (s : Restoring) :
    Prop where
  written : ∃ parts, List.Forall₂ (fun e bytes => recordBytes C e = .ok bytes)
    s.restored.records parts ∧ body = parts.flatten ++ s.rest
  sorted : s.restored.records.Pairwise fun a b => snapshotKey a < snapshotKey b
  reached : ∀ e ∈ s.restored.records, ∃ p, s.previous = some p ∧ snapshotKey e ≤ Position.key p
  network_eq : ∀ e ∈ s.restored.records, e.2.descriptor.network = network

variable (C : Crypto K) (r : Registry) (encoded : List UInt8) (network : NetworkType)

theorem records_of_restores {s t : Restoring} {e : Entry} {bytes : List UInt8}
    (h : Restores C network s e bytes t) : t.restored.records = s.restored.records ++ [e] :=
  Registry.records_of_apply C s.restored t.restored _ _ e.1 h.applied

theorem listed_step (body : List UInt8) (s t : Restoring) (hs : Listed C network body s)
    (h : restoreRecord C network s = .ok t) :
    Listed C network body t ∧ t.restored.records.length = s.restored.records.length + 1 := by
  obtain ⟨e, bytes, hrestores⟩ := (restoreRecord_eq_ok C network s t).mp h
  have hrecs := records_of_restores C network hrestores
  have hbelow : ∀ a ∈ s.restored.records, snapshotKey a < snapshotKey e := by
    intro a ha
    obtain ⟨p, hp, hle⟩ := hs.reached a ha
    exact lt_of_le_of_lt hle (hrestores.above p hp)
  refine ⟨⟨?_, ?_, ?_, ?_⟩, by rw [hrecs]; simp⟩
  · obtain ⟨parts, hparts, hbody⟩ := hs.written
    refine ⟨parts ++ [bytes], ?_, ?_⟩
    · rw [hrecs]
      exact rel_append hparts (List.Forall₂.cons hrestores.written List.Forall₂.nil)
    · rw [hbody, hrestores.read]
      simp
  · rw [hrecs, pairwise_append]
    refine ⟨hs.sorted, pairwise_singleton _ _, ?_⟩
    intro a ha b hb
    rw [mem_singleton.mp hb]
    exact hbelow a ha
  · intro a ha
    refine ⟨positionOf e, hrestores.previous_eq, ?_⟩
    rw [hrecs, mem_append, mem_singleton] at ha
    rcases ha with hold | rfl
    · exact (hbelow a hold).le
    · exact le_refl _
  · intro a ha
    rw [hrecs, mem_append, mem_singleton] at ha
    rcases ha with hold | rfl
    · exact hs.network_eq a hold
    · exact hrestores.network_eq

theorem listed_run (body : List UInt8) (idxs : List ℕ) (s t : Restoring)
    (hs : Listed C network body s)
    (h : loop (fun s _ => restoreRecord C network s) idxs s = .ok t) : Listed C network body t ∧
      t.restored.records.length = s.restored.records.length + idxs.length := by
  induction idxs generalizing s with
  | nil =>
    cases h
    exact ⟨hs, rfl⟩
  | cons i idxs ih =>
    obtain ⟨next, hstep, hrest⟩ := loop_cons_eq_ok.mp h
    obtain ⟨hnext, hlen⟩ := listed_step C network body s next hs hstep
    obtain ⟨ht, hcnt⟩ := ih next hnext hrest
    refine ⟨ht, ?_⟩
    rw [hcnt, hlen, length_cons]
    omega

theorem encodeSnapshot_eq_ok (bytes : List UInt8) : encodeSnapshot C r network = .ok bytes ↔
      network.isPublic = true ∧ r.records.length ≤ maxRegistrySnapshotRecords ∧
      (∀ e ∈ r.records, e.2.descriptor.network = network) ∧
      ∃ parts, List.Forall₂ (fun e bytes => recordBytes C e = .ok bytes)
        (sortBy snapshotBefore r.records) parts ∧
        bytes = snapshotHeader network r.records.length ++ parts.flatten := by
  have hlen := (sortBy_perm snapshotBefore r.records).length_eq
  simp only [encodeSnapshot, bind_eq_ok, failIf_eq_ok, pure_eq_ok, exists_unit, mapAll_eq_ok,
    not_lt, Bool.not_eq_false, Bool.not_eq_true, any_eq_false, decide_eq_true_eq, ne_eq,
    not_not, hlen]
  constructor
  · rintro ⟨hpub, hcnt, hnet, parts, hparts, rfl⟩
    exact ⟨hpub, hcnt, hnet, parts, hparts, rfl⟩
  · rintro ⟨hpub, hcnt, hnet, parts, hparts, rfl⟩
    exact ⟨hpub, hcnt, hnet, parts, hparts, rfl⟩

theorem restoreSnapshot_eq_ok (restored : Registry) :
    restoreSnapshot C encoded network = .ok restored ↔
      network.isPublic = true ∧ ∃ count body t, count ≤ maxRegistrySnapshotRecords ∧
        encoded = snapshotHeader network count ++ body ∧
        loop (fun s _ => restoreRecord C network s) (List.range count)
          { restored := .empty, previous := none, rest := body } = .ok t ∧
        t.rest = [] ∧ t.restored = restored := by
  simp only [restoreSnapshot, bind_eq_ok, failIf_eq_ok, pure_eq_ok, exists_unit, Prod.exists,
    readByte_eq_ok_iff, readPod_eq_ok_iff, readUInt_eq_ok_iff, not_not, not_lt, ne_eq,
    Bool.not_eq_false]
  constructor
  · rintro ⟨hpub, -, hdom, ver, _, hdrop, rfl, id, _, rfl, rfl, count, body,
      ⟨-, rfl⟩, hcnt, t, hloop, hrest, hrestored⟩
    refine ⟨hpub, count, body, t, hcnt, ?_, hloop, hrest, hrestored⟩
    rw [← take_append_drop registrySnapshotDomain.length encoded, hdom, hdrop]
    simp [snapshotHeader]
  · rintro ⟨hpub, count, body, t, hcnt, rfl, hloop, hrest, hrestored⟩
    have hcnt' : count < 256 ^ 4 := by
      simp only [maxRegistrySnapshotRecords] at hcnt
      omega
    refine ⟨hpub, ?_, ?_, registrySnapshotVersion, (networkId network).bytes ++
      (leBytes 4 count ++ body), ?_, rfl, networkId network, leBytes 4 count ++ body, rfl, rfl,
      count, body, ⟨hcnt', rfl⟩, hcnt, t, hloop, hrest, hrestored⟩
    · simp only [snapshotHeader, snapshotHeaderSize, length_append, length_cons,
        Blob.size_eq, leBytes_length]
      omega
    · rw [snapshotHeader, append_assoc, take_left]
    · rw [snapshotHeader, append_assoc, drop_left]
      simp

theorem encode_of_restore {restored : Registry}
    (h : restoreSnapshot C encoded network = .ok restored) :
    encodeSnapshot C restored network = .ok encoded := by
  obtain ⟨hpub, count, body, t, hcnt, rfl, hloop, hrest, rfl⟩ :=
    (restoreSnapshot_eq_ok C encoded network restored).mp h
  have hstart : Listed C network body { restored := .empty, previous := none, rest := body } :=
    ⟨⟨[], List.Forall₂.nil, rfl⟩, List.Pairwise.nil, by simp [empty],
      by simp [empty]⟩
  obtain ⟨hlisted, hlen⟩ := listed_run C network body _ _ t hstart hloop
  have hcnt' : t.restored.records.length = count := by
    simpa [empty] using hlen
  obtain ⟨parts, hparts, hbody⟩ := hlisted.written
  rw [hrest, append_nil] at hbody
  rw [encodeSnapshot_eq_ok, sortBy_eq_self snapshotBefore_comparesBy hlisted.sorted, hcnt']
  exact ⟨hpub, hcnt, hlisted.network_eq, parts, hparts, by rw [hbody]⟩

theorem restore_of_encode {enc : List UInt8} (hsound : AllSound C r)
    (hht : ∀ e ∈ r.records, e.2.issuanceHeight < 2 ^ 64)
    (h : encodeSnapshot C r network = .ok enc) :
    ∃ restored, restoreSnapshot C enc network = .ok restored ∧
      restored.records = sortBy snapshotBefore r.records := by
  obtain ⟨hpub, hcnt, hnet, parts, hparts, rfl⟩ :=
    (encodeSnapshot_eq_ok C r network enc).mp h
  have hstart : Replaying C r (sortBy snapshotBefore r.records)
      { restored := .empty, previous := none, rest := parts.flatten } :=
    ⟨rfl, by simp, parts, hparts, rfl⟩
  have hindices : (List.range r.records.length).length =
      (sortBy snapshotBefore r.records).length := by
    rw [length_range, (sortBy_perm snapshotBefore r.records).length_eq]
  obtain ⟨t, hloop, hdone⟩ :=
    replay_run C network r _ _ _ hsound hht hnet hstart hindices
  obtain ⟨rest, hnil, hrest⟩ := hdone.written
  rw [forall₂_nil_left_iff.mp hnil, flatten_nil] at hrest
  refine ⟨t.restored, (restoreSnapshot_eq_ok ..).mpr
    ⟨hpub, _, parts.flatten, t, hcnt, rfl, hloop, hrest, rfl⟩, ?_⟩
  rw [hdone.split, append_nil]

/-- Two registries that are the same map. -/
def SameRecords (r r' : Registry) : Prop := ∀ id, r.find id = r'.find id

theorem sameRecords_iff_perm (r r' : Registry) : SameRecords r r' ↔ r.records.Perm r'.records := by
  rw [perm_ext_iff_of_nodup r.ids_nodup.of_map r'.ids_nodup.of_map]
  constructor
  · intro h e
    rw [← find_eq_some_iff, ← find_eq_some_iff, h e.1]
  · intro h id
    apply Option.ext
    intro rcd
    rw [find_eq_some_iff, find_eq_some_iff, h]

theorem encodeSnapshot_congr {r r' : Registry} (net : NetworkType) (h : SameRecords r r') :
    encodeSnapshot C r net = encodeSnapshot C r' net := by
  have hperm := (sameRecords_iff_perm r r').mp h
  have hsort : sortBy snapshotBefore r.records = sortBy snapshotBefore r'.records := by
    apply sortBy_congr snapshotBefore_comparesBy hperm
    intro a ha b hb hab
    exact inj_on_of_nodup_map (snapshotKey_nodup r) ha hb hab
  simp only [encodeSnapshot, hperm.length_eq, hperm.any_eq, hsort]

theorem kept_heights : Kept C fun r => ∀ e ∈ r.records, e.2.issuanceHeight < 2 ^ 64 where
  empty := by simp [empty]
  apply r p height r' id hht hr h := by
    intro e he
    rw [Registry.records_of_apply C r r' p height id h, mem_append, mem_singleton] at he
    rcases he with hold | rfl
    · exact hr e hold
    · exact hht
  detach r height hr := by
    intro e he
    exact hr e ((mem_detach r height e).mp he).1

theorem restore_of_run {calls : List RegistryCall} {r : Registry} {net : NetworkType}
    {enc : List UInt8} (run : Run (CallStep C) .empty calls r)
    (h : encodeSnapshot C r net = .ok enc) :
    ∃ restored, restoreSnapshot C enc net = .ok restored ∧ SameRecords restored r := by
  obtain ⟨restored, hrestore, hrecs⟩ := restore_of_encode C r net
    ((kept_allSound C).run run) ((kept_heights C).run run) h
  refine ⟨restored, hrestore, (sameRecords_iff_perm restored r).mpr ?_⟩
  rw [hrecs]
  exact sortBy_perm _ _

theorem snapshotHeader_inj {net net' : NetworkType} {count count' : ℕ}
    {body body' : List UInt8} (hpub : net.isPublic = true) (hpub' : net'.isPublic = true)
    (h : snapshotHeader net count ++ body = snapshotHeader net' count' ++ body') : net = net' := by
  simp only [snapshotHeader, append_assoc, cons_append] at h
  have hrest := (List.cons.inj (append_cancel_left h)).2
  have hid := (append_inj hrest (by simp)).1
  exact networkId_injOn hpub hpub' (Blob.ext hid)

theorem decodeSnapshot_eq_ok (restored : Registry) :
    decodeSnapshot C r encoded network = (.ok (), restored) ↔
      restoreSnapshot C encoded network = .ok restored := by
  unfold decodeSnapshot
  cases restoreSnapshot C encoded network <;> simp

theorem deriveSnapshotHash_eq_ok (hash : Hash) : deriveSnapshotHash C r network = .ok hash ↔
      ∃ encoded, encodeSnapshot C r network = .ok encoded ∧ C.cnFastHash encoded = hash := by
  simp only [deriveSnapshotHash, bind_eq_ok, pure_eq_ok]

/-- Equal hashes of two registries come from equal snapshots. -/
def NoCollision (C : Crypto K) (r r' : Registry) (network network' : NetworkType) : Prop :=
  ∀ encoded encoded', encodeSnapshot C r network = .ok encoded →
    encodeSnapshot C r' network' = .ok encoded' →
    C.cnFastHash encoded = C.cnFastHash encoded' → encoded = encoded'

theorem sameRecords_of_encode {calls calls' : List RegistryCall} {r r' : Registry}
    {net net' : NetworkType} {enc : List UInt8} (run : Run (CallStep C) .empty calls r)
    (run' : Run (CallStep C) .empty calls' r') (h : encodeSnapshot C r net = .ok enc)
    (h' : encodeSnapshot C r' net' = .ok enc) : net = net' ∧ SameRecords r r' := by
  obtain ⟨hpub, -, -, parts, -, hbs⟩ := (encodeSnapshot_eq_ok ..).mp h
  obtain ⟨hpub', -, -, parts', -, hbs'⟩ := (encodeSnapshot_eq_ok ..).mp h'
  obtain rfl := snapshotHeader_inj hpub hpub' (hbs.symm.trans hbs')
  obtain ⟨restored, hrestore, hsame⟩ := restore_of_run C run h
  obtain ⟨restored', hrestore', hsame'⟩ := restore_of_run C run' h'
  obtain rfl : restored = restored' := by simpa using hrestore.symm.trans hrestore'
  refine ⟨rfl, ?_⟩
  intro id
  rw [← hsame id, hsame' id]

/-- A registry reached by calls, on one public network and within the limit, is restored from
its snapshot into any registry. Every accepted snapshot is the encoding of what it restores.
Registries with the same records have the same snapshot hash, and without a collision only
those have. -/
theorem snapshot_faithful (C : Crypto K) :
    (∀ calls r network, Run (CallStep C) .empty calls r → network.isPublic = true →
      (∀ e ∈ r.records, e.2.descriptor.network = network) →
      r.records.length ≤ maxRegistrySnapshotRecords →
      ∃ encoded, encodeSnapshot C r network = .ok encoded ∧
        ∀ other, ∃ restored, decodeSnapshot C other encoded network = (.ok (), restored) ∧
          SameRecords restored r) ∧
    (∀ other encoded network restored,
      decodeSnapshot C other encoded network = (.ok (), restored) →
      encodeSnapshot C restored network = .ok encoded) ∧
    (∀ r r' network, SameRecords r r' →
      deriveSnapshotHash C r network = deriveSnapshotHash C r' network) ∧
    ∀ calls calls' r r' network network' hash, Run (CallStep C) .empty calls r →
      Run (CallStep C) .empty calls' r' → NoCollision C r r' network network' →
      deriveSnapshotHash C r network = .ok hash → deriveSnapshotHash C r' network' = .ok hash →
      network = network' ∧ SameRecords r r' := by
  refine ⟨?_, ?_, ?_, ?_⟩
  · intro calls r network run hpublic hnetwork hcount
    have hsound := (kept_allSound C).run run
    obtain ⟨parts, hparts⟩ := exists_forall₂ (sortBy snapshotBefore r.records) fun e he =>
      sound_written C r e (hsound e ((sortBy_perm _ _).mem_iff.mp he))
    have hencode := (encodeSnapshot_eq_ok C r network _).mpr
      ⟨hpublic, hcount, hnetwork, parts, hparts, rfl⟩
    refine ⟨_, hencode, ?_⟩
    intro other
    obtain ⟨restored, hrestore, hsame⟩ := restore_of_run C run hencode
    exact ⟨restored, (decodeSnapshot_eq_ok ..).mpr hrestore, hsame⟩
  · intro other encoded network restored h
    exact encode_of_restore C encoded network ((decodeSnapshot_eq_ok ..).mp h)
  · intro r r' network hsame
    rw [deriveSnapshotHash, deriveSnapshotHash, encodeSnapshot_congr C network hsame]
  · intro calls calls' r r' network network' hash run run' hfree h h'
    obtain ⟨encoded, hencode, hhash⟩ := (deriveSnapshotHash_eq_ok ..).mp h
    obtain ⟨encoded', hencode', hhash'⟩ := (deriveSnapshotHash_eq_ok ..).mp h'
    obtain rfl := hfree encoded encoded' hencode hencode' (hhash.trans hhash'.symm)
    exact sameRecords_of_encode C run run' hencode hencode'

theorem snapshot_faithful_sample :
    sampleRegistry.records.length = 2 ∧
      ∃ encoded, encodeSnapshot toy sampleRegistry .mainnet = .ok encoded ∧
        ∀ other, ∃ restored, decodeSnapshot toy other encoded .mainnet = (.ok (), restored) ∧
          SameRecords restored sampleRegistry := by
  have hsample : sampleRegistry.records.length = 2 ∧
      ∀ e ∈ sampleRegistry.records, e.2.descriptor.network = .mainnet := by decide +kernel
  refine ⟨hsample.1, ?_⟩
  exact (snapshot_faithful toy).1 sampleCalls sampleRegistry .mainnet sampleCalls_run rfl
    hsample.2 (by rw [hsample.1]; decide)

end Monzero.SnapshotFidelity
