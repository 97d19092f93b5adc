import Monzero.TxExtraRoundTrip
import Monzero.WireRoundTrip

/-!
How many bytes the parts of a payload take on the wire. All but the lists of keys have a
fixed size, so a payload of one group with one range proof is far below the limit.
-/
namespace Monzero.WireSizes

open Bytes Primitives AssetConfidential AssetWire AssetWireCodec WireParts WireRoundTrip List

theorem length_flatMap_of {α β : Type} {f : α → List β} {k : ℕ} {l : List α}
    (h : ∀ a ∈ l, (f a).length = k) : (l.flatMap f).length = l.length * k := by
  induction l with
  | nil => simp
  | cons a rest ih =>
    rw [flatMap_cons, length_append, h a mem_cons_self,
      ih fun b hb => h b (mem_cons_of_mem _ hb), length_cons, Nat.succ_mul]
    omega

theorem length_writeKeys (keys : List Key) : (writeKeys keys).length = 1 + 32 * keys.length := by
  rw [writeKeys, length_cons, TxExtraRoundTrip.length_flatMap_bytes]
  omega

theorem length_writeRangeProof_le {pf : BulletproofPlus Key} (h : FitsRangeProof pf) :
    (writeRangeProof pf).length ≤ 1731 := by
  have hcoms := h.commitments
  have hrounds := h.rounds
  have hpaired := h.paired
  rw [maxConfidentialAssetOutputs] at hcoms
  simp only [writeRangeProof, length_append, length_writeKeys, Blob.size_eq]
  omega

theorem length_writeOwnershipProof {pf : AssetOwnershipProof Key}
    (hring : pf.ring.length = confidentialAssetRingSize)
    (hresponses : pf.signature.s.length = confidentialAssetRingSize) :
    (writeOwnershipProof pf).length = 2720 := by
  have hmembers : (pf.ring.flatMap writeRingMember).length = pf.ring.length * 128 :=
    length_flatMap_of fun member _ => by simp [writeRingMember]
  simp only [writeOwnershipProof, length_append, Blob.size_eq, hmembers, hring,
    TxExtraRoundTrip.length_flatMap_bytes, hresponses, confidentialAssetRingSize]

theorem length_writeGroup_le {group : ConfidentialAssetBalance Key × List (AssetRecipientData Key)}
    (h : FitsGroup group) (hone : group.1.rangeProofs.length = 1) :
    (writeGroup group).length ≤ 5880 := by
  obtain ⟨pf, hpf⟩ := length_eq_one_iff.mp hone
  have hrange := length_writeRangeProof_le (h.ranges pf (by rw [hpf]; simp))
  have hins : (group.1.pseudoInputs.flatMap writePseudoInput).length =
      group.1.pseudoInputs.length * 64 :=
    length_flatMap_of fun input _ => by simp [writePseudoInput]
  have houts : ((group.2.zip group.1.outputs).flatMap writeOutput).length =
      (group.2.zip group.1.outputs).length * 161 :=
    length_flatMap_of fun out _ => by simp [writeOutput]
  have hcnt := h.inputCount
  have hdestinations := h.destinations
  rw [maxConfidentialAssetInputs] at hcnt
  rw [maxConfidentialAssetOutputs] at hdestinations
  simp only [writeGroup, length_append, length_cons, Blob.size_eq, hins, houts,
    length_writeKeys, hpf, flatMap_singleton, length_zip, h.recipients, Nat.min_self]
  omega

theorem length_writeBody_le {p : AssetTransactionPayload Key} (h : FitsBody p)
    (hone : p.balances.length = 1) (hranges : ∀ b ∈ p.balances, b.rangeProofs.length = 1)
    (howned : p.ownershipProofs.length ≤ maxConfidentialAssetInputs) :
    (writeBody p [0]).length ≤ maxAssetWireBytes := by
  obtain ⟨bal, hbal⟩ := length_eq_one_iff.mp hone
  obtain ⟨recipients, hrecipients⟩ := length_eq_one_iff.mp (h.recipients.trans hone)
  have hzip : p.balances.zip p.outputRecipients = [(bal, recipients)] := by
    rw [hbal, hrecipients]
    rfl
  have hgroup := length_writeGroup_le (h.group (bal, recipients) (by rw [hzip]; simp))
    (hranges bal (by rw [hbal]; simp))
  have hpfs : (p.ownershipProofs.flatMap writeOwnershipProof).length =
      p.ownershipProofs.length * 2720 :=
    length_flatMap_of fun pf hpf =>
      length_writeOwnershipProof (h.proof pf hpf).ring (h.proof pf hpf).responses
  rw [maxConfidentialAssetInputs] at howned
  simp only [writeBody, length_cons, length_append, Blob.size_eq, hzip,
    flatMap_singleton, hpfs, length_nil, maxAssetWireBytes]
  omega

end Monzero.WireSizes
