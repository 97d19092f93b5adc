import Monzero.WireParts

/-!
The two directions of the wire format of an asset transaction. The decoder accepts one spelling
of a payload, and nothing before or after it. The encoder checks the shape of a payload but not
the vectors of its range proofs, which the decoder limits, so what it writes can be read back
exactly when those fit as well.
-/
namespace Monzero.WireRoundTrip

open Bytes Checked Codec Primitives AssetWire AssetWireCodec WireParts ToyCrypto List

/-- A payload as it is written, given the bytes of its issuance. -/
def writeBody (p : AssetTransactionPayload Key) (issuance : List UInt8) : List UInt8 :=
  p.version :: networkByte p.network :: (p.carrierPrefixHash.bytes ++ (issuance ++
    (UInt8.ofNat p.balances.length :: ((p.balances.zip p.outputRecipients).flatMap writeGroup ++
    (UInt8.ofNat p.ownershipProofs.length :: p.ownershipProofs.flatMap writeOwnershipProof)))))

/-- What `decode_asset_transaction_payload` reads before it asks whether anything is left. -/
def readBody (C : Crypto Key) (encoded : List UInt8) :
    Except String (AssetTransactionPayload Key × List UInt8) := do
  let (version, s) ← readByte "truncated asset transaction header" encoded
  let (network, s) ← readByte "truncated asset transaction header" s
  let (carrierPrefixHash, s) ← readPod 32 "truncated asset transaction header" s
  let (flag, s) ← readByte "truncated asset transaction header" s
  failIf (flag > 1) "truncated asset transaction header"
  let (issuance, s) ← readIssuance C flag s
  let (count, s) ← readCount maxAssetBalanceGroups "invalid asset balance-group count" s
  failIf (count = 0) "invalid asset balance-group count"
  let (groups, s) ← readMany readGroup count s
  let (proofs, s) ← readCount maxAssetOwnershipProofs "invalid asset ownership-proof count" s
  let (ownershipProofs, s) ← readMany readOwnershipProof proofs s
  return ({ version, network := networkOfByte network, carrierPrefixHash, issuance,
            balances := groups.map Prod.fst, outputRecipients := groups.map Prod.snd,
            ownershipProofs }, s)

variable (C : Crypto Key) (p : AssetTransactionPayload Key)

theorem decode_eq_ok_iff (enc : List UInt8) (p : AssetTransactionPayload Key) :
    decodeAssetTransactionPayload C enc = .ok p ↔
      enc ≠ [] ∧ enc.length ≤ maxAssetWireBytes ∧ readBody C enc = .ok (p, []) ∧
        validateAssetTransactionPayloadShape p = .ok () := by
  simp only [decodeAssetTransactionPayload, readBody, bind_eq_ok, failIf_eq_ok, pure_eq_ok,
    exists_unit, mapError_eq_ok, Prod.exists, Prod.mk.injEq, not_or, not_lt, not_not, ne_eq]
  constructor
  · rintro ⟨⟨hne, hsize⟩, ver, s1, h1, net, s2, h2, car, s3, h3, flag, s4, h4, hflag,
      issuance, s5, h5, count, s6, h6, hcnt, groups, s7, h7, proofs, s8, h8, owned, s9, h9, hdone,
      hshape, rfl⟩
    exact ⟨hne, hsize, ⟨ver, s1, h1, net, s2, h2, car, s3, h3, flag, s4, h4, hflag,
      issuance, s5, h5, count, s6, h6, hcnt, groups, s7, h7, proofs, s8, h8, owned, s9, h9, rfl,
      hdone⟩, hshape⟩
  · rintro ⟨hne, hsize, ⟨ver, s1, h1, net, s2, h2, car, s3, h3, flag, s4, h4, hflag,
      issuance, s5, h5, count, s6, h6, hcnt, groups, s7, h7, proofs, s8, h8, owned, s9, h9, rfl,
      hdone⟩, hshape⟩
    exact ⟨⟨hne, hsize⟩, ver, s1, h1, net, s2, h2, car, s3, h3, flag, s4, h4, hflag,
      issuance, s5, h5, count, s6, h6, hcnt, groups, s7, h7, proofs, s8, h8, owned, s9, h9, hdone,
      hshape, rfl⟩

theorem encode_eq_ok_iff {b : List UInt8} : encodeAssetTransactionPayload C p = .ok b ↔
      validateAssetTransactionPayloadShape p = .ok () ∧
        ∃ iss, writeIssuance C p.issuance = .ok iss ∧ b.length ≤ maxAssetWireBytes ∧
          b = writeBody p iss := by
  simp only [encodeAssetTransactionPayload, bind_eq_ok, failIf_eq_ok, pure_eq_ok, exists_unit,
    not_lt]
  constructor
  · rintro ⟨hshape, iss, hiss, hsize, rfl⟩
    exact ⟨hshape, iss, hiss, hsize, rfl⟩
  · rintro ⟨hshape, iss, hiss, hsize, rfl⟩
    exact ⟨hshape, iss, hiss, hsize, rfl⟩

/-- The parts of a payload are within the limits of their readers. -/
structure FitsBody (p : AssetTransactionPayload Key) : Prop where
  groups : p.balances ≠ []
  groupCount : p.balances.length ≤ maxAssetBalanceGroups
  recipients : p.outputRecipients.length = p.balances.length
  group : ∀ g ∈ p.balances.zip p.outputRecipients, FitsGroup g
  proofCount : p.ownershipProofs.length ≤ maxAssetOwnershipProofs
  proof : ∀ proof ∈ p.ownershipProofs, FitsOwnershipProof proof

theorem networkOfByte_networkByte (net : NetworkType) : networkOfByte (networkByte net) = net := by
  cases net <;> decide

theorem networkByte_networkOfByte {b : UInt8} (h : (networkOfByte b).isPublic = true) :
    networkByte (networkOfByte b) = b := by
  unfold networkOfByte at h ⊢
  split
  · rename_i hb
    rw [hb]
    rfl
  · split
    · rename_i hb
      rw [hb]
      rfl
    · split
      · rename_i hb
        rw [hb]
        rfl
      · rename_i h0 h1 h2
        simp only [if_neg h0, if_neg h1, if_neg h2] at h
        split at h
        · cases h
        · cases h

theorem readBody_eq_ok_iff (s : List UInt8) {p : AssetTransactionPayload Key} (rest : List UInt8)
    (hpub : p.network.isPublic = true) : readBody C s = .ok (p, rest) ↔ FitsBody p ∧ ∃ iss,
      writeIssuance C p.issuance = .ok iss ∧ s = writeBody p iss ++ rest := by
  simp only [readBody, bind_eq_ok, failIf_eq_ok, pure_eq_ok, exists_unit, Prod.exists,
    readByte_eq_ok_iff, readPod_eq_ok_iff, readCount_eq_ok_iff maxAssetBalanceGroups (by decide),
    readCount_eq_ok_iff maxAssetOwnershipProofs (by decide), reads_many reads_group _ _ _ _,
    reads_many reads_ownershipProof _ _ _ _, Prod.mk.injEq]
  constructor
  · rintro ⟨ver, _, rfl, net, _, rfl, car, _, rfl, flag, s4, rfl, hflag, iss, _,
      hiss, count, _, ⟨hcnt, rfl⟩, hsome, groups, _, ⟨⟨rfl, hgroups⟩, rfl⟩, pfs, _,
      ⟨hpfs, rfl⟩, owned, _, ⟨⟨rfl, howned⟩, rfl⟩, rfl, rfl⟩
    obtain ⟨bytes, hwrite, hbs⟩ := (readIssuance_eq_ok_iff ..).mp ⟨hflag, hiss⟩
    have hzip : (groups.map Prod.fst).zip (groups.map Prod.snd) = groups := by
      rw [zip_map', map_id']
    refine ⟨⟨?_, ?_, ?_, ?_, hpfs, howned⟩, bytes, hwrite, ?_⟩
    · intro hnil
      exact hsome (length_eq_zero_iff.mpr (map_eq_nil_iff.mp hnil))
    · simpa using hcnt
    · simp
    · dsimp only
      rw [hzip]
      exact hgroups
    · simp [writeBody, hzip, hbs, networkByte_networkOfByte hpub]
  · rintro ⟨h, iss, hwrite, rfl⟩
    have hcnt := h.recipients
    have hfst : (p.balances.zip p.outputRecipients).map Prod.fst = p.balances :=
      map_fst_zip hcnt.ge
    have hsnd : (p.balances.zip p.outputRecipients).map Prod.snd = p.outputRecipients :=
      map_snd_zip hcnt.le
    have hlen : (p.balances.zip p.outputRecipients).length = p.balances.length := by
      rw [length_zip, hcnt, Nat.min_self]
    obtain ⟨flag, tail, rfl⟩ := writeIssuance_cons hwrite
    obtain ⟨hflag, hread⟩ := (readIssuance_eq_ok_iff C flag (tail ++ (UInt8.ofNat
      p.balances.length :: ((p.balances.zip p.outputRecipients).flatMap writeGroup ++
      (UInt8.ofNat p.ownershipProofs.length :: (p.ownershipProofs.flatMap writeOwnershipProof ++
      rest))))) p.issuance).mpr ⟨_, hwrite, rfl⟩
    refine ⟨p.version, _, ?_, networkByte p.network, _, rfl, p.carrierPrefixHash, _, rfl, flag, _,
      rfl, hflag, p.issuance, _, hread, p.balances.length, _, ⟨h.groupCount, rfl⟩,
      fun hnil => h.groups (length_eq_zero_iff.mp hnil), p.balances.zip p.outputRecipients, _,
      ⟨⟨hlen, h.group⟩, rfl⟩, p.ownershipProofs.length, _, ⟨h.proofCount, rfl⟩,
      p.ownershipProofs, rest, ⟨⟨rfl, h.proof⟩, rfl⟩, ?_, rfl⟩
    · simp [writeBody]
    · rw [hfst, hsnd, networkOfByte_networkByte]

/-- What the decoder asks of a payload beyond its shape: range proofs whose vectors fit, and
signatures that repeat the key image of their proof. -/
structure Canonical (p : AssetTransactionPayload Key) : Prop where
  ranges : ∀ b ∈ p.balances, ∀ proof ∈ b.rangeProofs, FitsRangeProof proof
  images : ∀ proof ∈ p.ownershipProofs, proof.signature.I = proof.keyImage

theorem shape_groups (h : validateAssetTransactionPayloadShape p = .ok ()) :
    p.network.isPublic = true ∧ (FitsBody p ↔ Canonical p) := by
  simp only [validateAssetTransactionPayloadShape, bind_eq_ok, failIf_eq_ok, exists_unit,
    Bool.not_eq_false, not_or, not_lt, not_not, ne_eq] at h
  obtain ⟨-, hpub, -, ⟨hgroups, hcnt⟩, hrecipients, hpfs, tots, hloop, hrings⟩ := h
  refine ⟨hpub, ?_⟩
  have hfst : (p.balances.zip p.outputRecipients).map Prod.fst = p.balances :=
    map_fst_zip hrecipients.ge
  constructor
  · intro hfits
    refine ⟨?_, fun pf hpf => (hfits.proof pf hpf).image⟩
    intro b hb
    rw [← hfst] at hb
    obtain ⟨g, hg, rfl⟩ := mem_map.mp hb
    exact (hfits.group g hg).ranges
  · intro hcan
    refine ⟨hgroups, hcnt, hrecipients, ?_, hpfs, ?_⟩
    · intro g hg
      obtain ⟨before, after, hturn⟩ := loop_turn _ _ _ _ hloop g hg
      simp only [checkGroupShape, bind_eq_ok, failIf_eq_ok, exists_unit, not_or, not_lt,
        not_not, ne_eq] at hturn
      obtain ⟨⟨hins, hinputCount, hdestinations, hrange, hrangeCount⟩, hlen, -⟩ := hturn
      refine ⟨hins, hinputCount, hdestinations, hlen, hrange, hrangeCount, ?_⟩
      apply hcan.ranges
      rw [← hfst]
      exact mem_map_of_mem hg
    · intro pf hpf
      exact ⟨(hrings pf hpf).1, (hrings pf hpf).2, hcan.images pf hpf⟩

theorem decode_iff_encode (b : List UInt8) (p : AssetTransactionPayload Key) :
    decodeAssetTransactionPayload C b = .ok p ↔
      encodeAssetTransactionPayload C p = .ok b ∧ Canonical p := by
  rw [decode_eq_ok_iff, encode_eq_ok_iff]
  constructor
  · rintro ⟨-, hsize, hread, hshape⟩
    obtain ⟨hpub, hfits⟩ := shape_groups p hshape
    obtain ⟨hbody, iss, hwrite, hb⟩ := (readBody_eq_ok_iff C b [] hpub).mp hread
    rw [append_nil] at hb
    exact ⟨⟨hshape, iss, hwrite, hsize, hb⟩, hfits.mp hbody⟩
  · rintro ⟨⟨hshape, iss, hwrite, hsize, hb⟩, hcan⟩
    obtain ⟨hpub, hfits⟩ := shape_groups p hshape
    refine ⟨?_, hsize, ?_, hshape⟩
    · rw [hb]
      exact cons_ne_nil _ _
    · rw [readBody_eq_ok_iff C b [] hpub]
      refine ⟨hfits.mpr hcan, iss, hwrite, ?_⟩
      rw [append_nil]
      exact hb

theorem decode_append (b more : List UInt8) (p q : AssetTransactionPayload Key)
    (h : decodeAssetTransactionPayload C b = .ok p)
    (hmore : decodeAssetTransactionPayload C (b ++ more) = .ok q) : more = [] := by
  obtain ⟨-, -, hread, hshape⟩ := (decode_eq_ok_iff C b p).mp h
  obtain ⟨-, -, hread', -⟩ := (decode_eq_ok_iff C (b ++ more) q).mp hmore
  obtain ⟨hpub, -⟩ := shape_groups p hshape
  obtain ⟨hbody, iss, hwrite, hb⟩ := (readBody_eq_ok_iff C b [] hpub).mp hread
  have hlonger : readBody C (b ++ more) = .ok (p, more) := by
    rw [readBody_eq_ok_iff C _ more hpub, hb, append_nil]
    exact ⟨hbody, iss, hwrite, rfl⟩
  rw [hlonger] at hread'
  exact (Prod.mk.inj (Except.ok.inj hread')).2

/-- Accepted strings are canonical: what is decoded encodes to the string it came from, no
other string decodes to it, and neither a proper extension nor a proper initial part of an
accepted string is accepted. -/
theorem wire_canonical (C : Crypto Key) (b : List UInt8) (p : AssetTransactionPayload Key)
    (h : decodeAssetTransactionPayload C b = .ok p) :
    encodeAssetTransactionPayload C p = .ok b ∧
      (∀ b', decodeAssetTransactionPayload C b' = .ok p → b' = b) ∧
      (∀ more q, decodeAssetTransactionPayload C (b ++ more) = .ok q → more = []) ∧
      ∀ part more q, b = part ++ more → decodeAssetTransactionPayload C part = .ok q →
        more = [] := by
  have hencode := ((decode_iff_encode C b p).mp h).1
  refine ⟨hencode, ?_, fun more q hq => decode_append C b more p q h hq, ?_⟩
  · intro b' hb'
    have hencode' := ((decode_iff_encode C b' p).mp hb').1
    rw [hencode] at hencode'
    exact (Except.ok.inj hencode').symm
  · intro part more q hb hpart
    rw [hb] at h
    exact decode_append C part more q p hpart h

def samplePayload : AssetTransactionPayload Key :=
  issue .mainnet (keyOfNat 20) sampleCollection 21

theorem sample_ranges : ∀ bal ∈ samplePayload.balances, ∀ pf ∈ bal.rangeProofs,
    FitsRangeProof pf := by
  intro bal hbal pf hpf
  rw [mem_singleton.mp hbal] at hpf
  rw [mem_singleton.mp hpf]
  exact ⟨by decide, by decide, cons_ne_nil _ _, rfl⟩

theorem wire_canonical_sample :
    ∃ b, decodeAssetTransactionPayload toy b = .ok samplePayload ∧
      encodeAssetTransactionPayload toy samplePayload = .ok b ∧
      ∀ more q, decodeAssetTransactionPayload toy (b ++ more) = .ok q → more = [] := by
  obtain ⟨b, hb⟩ := exists_of_isOk (show (encodeAssetTransactionPayload toy samplePayload).isOk =
    true by decide +kernel)
  have hdecode : decodeAssetTransactionPayload toy b = .ok samplePayload := by
    refine (decode_iff_encode toy b samplePayload).mpr ⟨hb, sample_ranges, ?_⟩
    intro proof hproof
    cases hproof
  obtain ⟨hencode, -, hextension, -⟩ := wire_canonical toy b samplePayload hdecode
  exact ⟨b, hdecode, hencode, hextension⟩

/-- The payload with each signature's key image replaced by that of its proof. -/
def withKeyImages (p : AssetTransactionPayload Key) : AssetTransactionPayload Key :=
  { p with ownershipProofs := p.ownershipProofs.map fun proof =>
      { proof with signature := { proof.signature with I := proof.keyImage } } }

theorem encode_withKeyImages (b : List UInt8) :
    encodeAssetTransactionPayload C (withKeyImages p) = .ok b ↔
      encodeAssetTransactionPayload C p = .ok b := by
  have hshape : validateAssetTransactionPayloadShape (withKeyImages p) = .ok () ↔
      validateAssetTransactionPayloadShape p = .ok () := by
    simp only [validateAssetTransactionPayloadShape, bind_eq_ok, failIf_eq_ok, exists_unit]
    simp [withKeyImages]
  have hbody : ∀ iss, writeBody (withKeyImages p) iss = writeBody p iss := by
    intro iss
    simp only [writeBody, withKeyImages, length_map, flatMap_map]
    rfl
  simp only [encode_eq_ok_iff, hshape, hbody]
  rfl

/-- What the encoder writes is read back exactly when the vectors of the range proofs fit. -/
theorem encoded_decodes_iff (C : Crypto Key) (p : AssetTransactionPayload Key) (b : List UInt8)
    (h : encodeAssetTransactionPayload C p = .ok b) :
    decodeAssetTransactionPayload C b = .ok (withKeyImages p) ↔
      ∀ balance ∈ p.balances, ∀ proof ∈ balance.rangeProofs, FitsRangeProof proof := by
  rw [decode_iff_encode, encode_withKeyImages]
  constructor
  · intro hboth
    exact hboth.2.ranges
  · intro hranges
    refine ⟨h, hranges, ?_⟩
    intro proof hproof
    obtain ⟨original, -, rfl⟩ := mem_map.mp hproof
    rfl

theorem encoded_decodes_iff_sample :
    ∃ b, encodeAssetTransactionPayload toy samplePayload = .ok b ∧
      decodeAssetTransactionPayload toy b = .ok (withKeyImages samplePayload) := by
  obtain ⟨b, hb⟩ := exists_of_isOk (show (encodeAssetTransactionPayload toy samplePayload).isOk =
    true by decide +kernel)
  exact ⟨b, hb, (encoded_decodes_iff toy samplePayload b hb).mpr sample_ranges⟩

def emptyRounds : AssetTransactionPayload Key :=
  { samplePayload with balances := samplePayload.balances.map fun balance =>
      { balance with rangeProofs := [{ rangeProof [] with L := [], R := [] }] } }

/-- The encoder writes a payload whose range proof has empty vectors, and the decoder refuses
the bytes. -/
theorem encoded_not_decoded :
    ∃ b, encodeAssetTransactionPayload toy emptyRounds = .ok b ∧
      ∀ q, decodeAssetTransactionPayload toy b ≠ .ok q := by
  have hok : (encodeAssetTransactionPayload toy emptyRounds).toOption.map
      (fun b => (decodeAssetTransactionPayload toy b).isOk) = some false := by decide +kernel
  cases hb : encodeAssetTransactionPayload toy emptyRounds with
  | error e =>
    rw [hb] at hok
    cases hok
  | ok b =>
    rw [hb] at hok
    refine ⟨b, rfl, fun q hq => ?_⟩
    have hfails : (decodeAssetTransactionPayload toy b).isOk = false := Option.some.inj hok
    rw [hq] at hfails
    cases hfails

end Monzero.WireRoundTrip
