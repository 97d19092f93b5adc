import Monzero.AssetDb
import Monzero.Clsag
import Monzero.Codec

/-!
Key images and the subgroup of prime order. Native inputs must carry key images of
prime order; ownership proofs are only checked by their ring signature. An accepted key
image is therefore confined to the subgroup, and is the only one its secret makes, as far
as it has no torsion. A signer may add a torsion point to the key image of its output, and
then its signature is accepted with some chance.
-/
namespace Monzero.KeyImageDomain

open Bytes Codec Checked IndexedTable Primitives AssetConfidential AssetDb Clsag ToyCrypto

variable {K : Type} [DecidableEq K]

/-- Primitives whose ring signatures are those of a curve. -/
def onCurve (V : Curve K) (base : Crypto K) : Crypto K :=
  { base with
    identity := V.identity
    isInMainSubgroup := V.isInMainSubgroup
    verRctCLSAGSimple := verRctCLSAGSimple V }

/-- What `check_tx_inputs_keyimages_domain` demands of the key image of a native input. -/
def keyImageInDomain (V : Curve K) (keyImage : K) : Bool :=
  keyImage ≠ V.identity ∧ V.isInMainSubgroup keyImage = true

theorem keyImageInDomain_iff {V : Curve K} {keyImage : K} {P : Point}
    (hdecode : V.decodePoint keyImage = some P) (hP : P ≠ 0) :
    keyImageInDomain V keyImage = true ↔ P.2 = 0 := by
  have hne : keyImage ≠ V.identity := by
    intro h
    rw [h, Curve.identity, V.decodePoint_encodePoint] at hdecode
    exact hP (Option.some.inj hdecode).symm
  have hsubgroup : V.isInMainSubgroup keyImage = true ↔ P.2 = 0 := by
    rw [Curve.isInMainSubgroup, hdecode]
    simp only [decide_eq_true_eq]
    rw [Curve.identity, V.encodePoint_inj, multiple_curveOrder_eq_zero]
  rw [keyImageInDomain, decide_eq_true_eq, hsubgroup]
  exact ⟨fun h => h.2, fun h => ⟨hne, h⟩⟩

/-- The torsion component of a key image. -/
def imageTorsion (V : Curve K) (keyImage : K) : ZMod 8 :=
  match V.decodePoint keyImage with
  | some P => P.2
  | none => 0

/-- A key image is made with the one-time secret of a key: it is the multiple of the hash of the
key, up to a torsion point. -/
def MadeWith (V : Curve K) (secret : Scalar) (dest keyImage : K) : Prop :=
  ∃ torsion, V.decodePoint keyImage = some (scalarmult secret (V.hashToP3 dest) + (0, torsion))

variable {V : Curve K} {base : Crypto K} {net : NetworkType} {car : Hash}

omit [DecidableEq K] in
theorem madeWith_unique {secret : Scalar} {dest image image' : K} (h : MadeWith V secret dest image)
    (h' : MadeWith V secret dest image') :
    image' = image ↔ imageTorsion V image' = imageTorsion V image := by
  obtain ⟨torsion, hdec⟩ := h
  obtain ⟨torsion', hdec'⟩ := h'
  refine ⟨congrArg _, fun hsame => ?_⟩
  simp only [imageTorsion, hdec, hdec', Prod.snd_add, add_right_inj] at hsame
  rw [← V.encodePoint_decodePoint _ _ hdec, ← V.encodePoint_decodePoint _ _ hdec', hsame]

theorem accepted_image {t : AssetTables K} {pf : AssetOwnershipProof K}
    (h : verifyAssetOwnershipAgainstDb (onCurve V base) t pf net car = .ok ()) :
    ∃ P, V.decodePoint pf.keyImage = some P ∧ P ≠ 0 := by
  simp only [verifyAssetOwnershipAgainstDb, verifyAssetOwnershipProof, bind_eq_ok, failIf_eq_ok,
    exists_unit, Bool.not_eq_false] at h
  obtain ⟨-, -, msg, -, -, hsig⟩ := h
  exact image_of_verified hsig

/-- A point as 32 bytes: the component of prime order below, the torsion above. -/
def pointKey (P : Point) : Key := keyOfNat (P.1.val + 2 ^ 253 * P.2.val)

def keyPoint (k : Key) : Option Point :=
  if leValue k.bytes % 2 ^ 253 < curveOrder then
    some ((leValue k.bytes % 2 ^ 253 : ℕ), (leValue k.bytes / 2 ^ 253 : ℕ))
  else none

theorem keyPoint_pointKey (P : Point) : keyPoint (pointKey P) = some P := by
  have hfst := ZMod.val_lt P.1
  have hsnd := ZMod.val_lt P.2
  have horder : curveOrder < 2 ^ 253 := by decide
  have hval : leValue (pointKey P).bytes = P.1.val + 2 ^ 253 * P.2.val :=
    leValue_keyOfNat (by omega)
  have hlow : (P.1.val + 2 ^ 253 * P.2.val) % 2 ^ 253 = P.1.val := by omega
  have hhigh : (P.1.val + 2 ^ 253 * P.2.val) / 2 ^ 253 = P.2.val := by omega
  rw [keyPoint, hval, hlow, hhigh, if_pos hfst, ZMod.natCast_zmod_val, ZMod.natCast_zmod_val]

theorem pointKey_keyPoint (k : Key) (P : Point) (h : keyPoint k = some P) : pointKey P = k := by
  rw [keyPoint] at h
  split at h
  · rename_i hlow
    obtain rfl := Option.some.inj h
    have hlt : leValue k.bytes < 2 ^ 256 := by
      have hbound := leValue_lt k.bytes
      rw [k.size_eq] at hbound
      exact hbound
    rw [pointKey, ZMod.val_natCast_of_lt hlow, ZMod.val_natCast_of_lt (by omega),
      Nat.mod_add_div]
    refine Blob.ext ?_
    have hbytes := leBytes_leValue k.bytes
    rwa [k.size_eq] at hbytes
  · cases h

/-- A curve on 32-byte keys with a small hash. -/
def sampleCurve : Curve Key where
  decodePoint := keyPoint
  encodePoint := pointKey
  decodePoint_encodePoint := keyPoint_pointKey
  encodePoint_decodePoint := pointKey_keyPoint
  decodeScalar k :=
    if leValue k.bytes < curveOrder then some (leValue k.bytes : ℕ) else none
  encodeScalar s := keyOfNat s.val
  decodeScalar_encodeScalar := by
    intro s
    have hlt := ZMod.val_lt s
    have horder : curveOrder < 2 ^ 256 := by decide
    rw [leValue_keyOfNat (hlt.trans horder), if_pos hlt, ZMod.natCast_zmod_val]
  hashToScalar keys := keys.foldl (fun acc k => acc * 65599 + (leValue k.bytes + 1 : ℕ)) 7
  hashToP3 k := ((leValue k.bytes + 3 : ℕ), 0)
  hashToP3_torsion _ := rfl
  domainKey s := keyOfNat (leValue s)

def sampleMember (i : ℕ) : AssetRingMember Key where
  assetId := keyOfNat 77
  outputId := keyOfNat (i + 1)
  publicOutput := { dest := pointKey (100 + i, 0), mask := pointKey (50 + i, 0) }

/-- The owner of the third of sixteen outputs. -/
def sampleSigner (torsion : ZMod 8) (nonce : Scalar) : Signer Key where
  front := [((sampleMember 0).publicOutput, 11), ((sampleMember 1).publicOutput, 12)]
  own := (sampleMember 2).publicOutput
  back := (List.range 13).map fun i => ((sampleMember (i + 3)).publicOutput, (i + 13 : ℕ))
  secret := 102
  z := 20
  nonce := nonce
  torsion := torsion

/-- The proof of a signer with a signature put in. -/
def sampleProofOf (σ : Signer Key) (signature : Clsag Key) : AssetOwnershipProof Key where
  assetId := keyOfNat 77
  pseudoInput := pointKey (32, 0)
  keyImage := pointKey (σ.image sampleCurve)
  ring := (List.range 16).map sampleMember
  signature := signature

/-- The message does not depend on the signature, so the signer can derive it first. -/
def sampleProof (torsion : ZMod 8) (nonce : Scalar) : AssetOwnershipProof Key :=
  let σ := sampleSigner torsion nonce
  let none : Clsag Key := { s := [], c1 := toy.zero, I := toy.zero, D := toy.zero }
  let message := (deriveAssetOwnershipMessage (onCurve sampleCurve toy) (sampleProofOf σ none)
    .mainnet (keyOfNat 1)).toOption.getD toy.zero
  sampleProofOf σ ((σ.clsagGen sampleCurve message (pointKey (32, 0))).getD none)

/-- Tables that hold the sixteen outputs and no key image. -/
def sampleTables : AssetTables Key where
  records := .empty
  outputs :=
    let rows := (List.range 16).map fun i =>
      { key := (sampleMember i).outputId, height := 0, value :=
        { assetId := (sampleMember i).assetId,
          destination := (sampleMember i).publicOutput.dest,
          commitment := (sampleMember i).publicOutput.mask,
          txPublicKey := keyOfNat 9,
          encryptedAmount := { mask := toy.zero, amount := toy.zero },
          viewTag := 0,
          outputIndex := i } }
    ⟨rows, rows.map Row.entry, by decide +kernel, rfl⟩
  keyImages := .empty

def sampleSpent (keyImage : Key) : AssetTables Key :=
  { sampleTables with keyImages := ⟨[⟨keyImage, 1, ()⟩], [(1, keyImage)], by simp, rfl⟩ }

theorem sample_madeWith (torsion : ZMod 8) (nonce : Scalar) : MadeWith sampleCurve 102
    (sampleMember 2).publicOutput.dest (sampleProof torsion nonce).keyImage := by
  have hdecode := sampleCurve.decodePoint_encodePoint
    ((sampleSigner torsion nonce).image sampleCurve)
  simp only [Signer.image, sampleSigner] at hdecode
  exact ⟨torsion, hdecode⟩

theorem plain_accepted :
    verifyAssetOwnershipAgainstDb (onCurve sampleCurve toy) sampleTables (sampleProof 0 1)
      .mainnet (keyOfNat 1) = .ok () := by
  decide +kernel

end Monzero.KeyImageDomain
