import Monzero.AssetBuilders
import Monzero.WireParts
import Mathlib.Data.ZMod.Basic

/-!
What a sender may assume of the primitives it builds a payload with. Reduced scalars are
numbers modulo the group order and commitments are the points of two of them, so that masks
which add up make commitments which add up. Addresses are multiples of the base point. The
provers are complete: what they make of a true opening verifies.
-/
namespace Monzero.SenderLaws

open Bytes Checked Primitives AssetConfidential AssetWire AssetRecipient WireParts AssetBuilders
  ToyCrypto List

variable {C : Crypto Key} {D : Derivations} {S : SenderPrimitives} {coins : Coins} {order : ℕ}

structure Arithmetic (C : Crypto Key) (D : Derivations) (S : SenderPrimitives) (order : ℕ) where
  /-- The scalar that a key holds. -/
  scalar : Key → ZMod order
  /-- The point of an amount and a mask, `a H + m G`. -/
  point : ZMod order × ZMod order → Key
  /-- The hash that `derive_public_key` multiplies the base point with. -/
  shared : KeyDerivation → ℕ → ZMod order
  scalar_zero : scalar C.zero = 0
  zero_reduced : S.scCheck C.zero = true
  scAdd_reduced : ∀ a b, S.scCheck a = true → S.scCheck b = true → S.scCheck (S.scAdd a b) = true
  scalar_scAdd : ∀ a b, S.scCheck a = true → S.scCheck b = true →
    scalar (S.scAdd a b) = scalar a + scalar b
  scSub_reduced : ∀ a b, S.scCheck a = true → S.scCheck b = true → S.scCheck (S.scSub a b) = true
  scalar_scSub : ∀ a b, S.scCheck a = true → S.scCheck b = true →
    scalar (S.scSub a b) = scalar a - scalar b
  commit_eq : ∀ amount mask, S.scCheck mask = true →
    C.commit amount mask = point (amount.toNat, scalar mask)
  addKeys_points : ∀ openings : List (ZMod order × ZMod order),
    C.addKeys (openings.map point) = point openings.sum
  inMainSubgroup : ∀ x, C.isInMainSubgroup (point x) = true
  isKey : ∀ x, C.checkKey (point x) = true
  /-- The bytes of `null_pkey` stand for a point of order four. -/
  null_outside : C.isInMainSubgroup (Blob.zero 32) = false
  publicKey : ∀ secret, S.scCheck secret = true →
    S.secretKeyToPublicKey secret = some (point (0, scalar secret))
  scalarmult : ∀ x secret, S.scCheck secret = true →
    S.scalarmultKey (point (0, x)) secret = .ok (point (0, scalar secret * x))
  derivation : ∀ x secret, S.scCheck secret = true →
    ∃ secretPoint, D.generateKeyDerivation (point (0, x)) secret = some secretPoint
  oneTimeKey : ∀ secretPoint index x,
    D.derivePublicKey secretPoint index (point (0, x)) =
      some (point (0, shared secretPoint index + x))

/-- Both keys of an address are multiples of the base point. -/
structure ValidAddress (A : Arithmetic C D S order) (address : AccountPublicAddress) : Prop where
  spend : ∃ x, address.spendPublicKey = A.point (0, x)
  view : ∃ x, address.viewPublicKey = A.point (0, x)

/-- `rct::skGen` and `crypto::generate_keys` return reduced scalars. -/
structure Reduced (S : SenderPrimitives) (coins : Coins) : Prop where
  mask : ∀ i, S.scCheck (coins.mask i) = true
  pseudoMask : ∀ i, S.scCheck (coins.pseudoMask i) = true
  txSecret : ∀ i, S.scCheck (coins.txSecret i) = true

/-- The Bulletproof+ prover is complete: for reduced masks it makes a proof that verifies, for
the commitments of the amounts under the masks and in the sizes of the wire. -/
def RangeComplete (C : Crypto Key) (S : SenderPrimitives) : Prop :=
  ∀ amounts masks, amounts ≠ [] → amounts.length = masks.length →
    masks.length ≤ maxConfidentialAssetOutputs → (∀ mask ∈ masks, S.scCheck mask = true) →
    ∃ proof, S.bulletproofPlusProve amounts masks = .ok proof ∧
      C.bulletproofPlusVerify proof = some true ∧
      proof.V.map C.scalarmult8 = List.zipWith C.commit amounts masks ∧ FitsRangeProof proof

structure Opens (C : Crypto Key) (S : SenderPrimitives) (input : AssetTransferInput) : Prop where
  spendSecret : S.scCheck input.spendSecret = true
  mask : S.scCheck input.mask = true
  real : input.ring[input.realOutputIndex]?.map AssetRingMember.publicOutput =
    some { dest := S.scalarmultBase input.spendSecret, mask := C.commit input.amount input.mask }

/-- The CLSAG prover is complete at an input: from secrets that open the real member it makes a
signature that verifies for the pseudo input, with the key image of the spend secret. -/
def SignatureComplete (C : Crypto Key) (S : SenderPrimitives) (keyImage : Key → Key)
    (coins : Coins) (e : AssetTransferInput × ℕ) : Prop :=
  Opens C S e.1 → ∀ message, ∃ signature,
    S.proveRctCLSAGSimple e.2 message (e.1.ring.map AssetRingMember.publicOutput)
      { dest := e.1.spendSecret, mask := e.1.mask } (coins.pseudoMask e.2)
      (C.commit e.1.amount (coins.pseudoMask e.2)) e.1.realOutputIndex = .ok signature ∧
    signature.s.length = e.1.ring.length ∧ signature.I = keyImage e.1.spendSecret ∧
    C.verRctCLSAGSimple message signature (e.1.ring.map AssetRingMember.publicOutput)
      (C.commit e.1.amount (coins.pseudoMask e.2)) = true

/-! ### Masks that add up -/

variable (A : Arithmetic C D S order)

theorem scalar_foldl {masks : List Key} (hmasks : ∀ mask ∈ masks, S.scCheck mask = true)
    {start : Key} (hstart : S.scCheck start = true) :
    S.scCheck (masks.foldl S.scAdd start) = true ∧
      A.scalar (masks.foldl S.scAdd start) = A.scalar start + (masks.map A.scalar).sum := by
  induction masks generalizing start with
  | nil => simpa using hstart
  | cons mask rest ih =>
    have hmask := hmasks mask mem_cons_self
    obtain ⟨hreduced, hsum⟩ := ih (fun m hm => hmasks m (mem_cons_of_mem _ hm))
      (A.scAdd_reduced start mask hstart hmask)
    refine ⟨hreduced, ?_⟩
    rw [foldl_cons, hsum, A.scalar_scAdd _ _ hstart hmask, map_cons, sum_cons, add_assoc]

/-- The masks drawn for the first outputs, added up from zero. -/
theorem scalar_drawn {draw : ℕ → Key} (hdraw : ∀ i, S.scCheck (draw i) = true) (n : ℕ) :
    S.scCheck (((List.range n).map draw).foldl S.scAdd C.zero) = true ∧
      A.scalar (((List.range n).map draw).foldl S.scAdd C.zero) =
        (((List.range n).map draw).map A.scalar).sum := by
  have hmasks : ∀ mask ∈ (List.range n).map draw, S.scCheck mask = true := by
    intro mask hmask
    obtain ⟨i, -, rfl⟩ := mem_map.mp hmask
    exact hdraw i
  obtain ⟨hreduced, hsum⟩ := scalar_foldl A hmasks A.zero_reduced
  rw [A.scalar_zero, zero_add] at hsum
  exact ⟨hreduced, hsum⟩

section Coordinated

variable (hcoins : Reduced S coins) {total : Key} (htotal : S.scCheck total = true)

include A hcoins htotal

theorem sum_coordinatedMasks (count : ℕ) :
    ((coordinatedMasks C S coins total count).map A.scalar).sum = A.scalar total := by
  obtain ⟨hreduced, hsum⟩ := scalar_drawn A hcoins.mask (count - 1)
  rw [coordinatedMasks, map_append, sum_append, map_singleton, sum_singleton,
    A.scalar_scSub _ _ htotal hreduced, hsum, add_sub_cancel]

theorem coordinatedMasks_reduced {count : ℕ} :
    ∀ mask ∈ coordinatedMasks C S coins total count, S.scCheck mask = true := by
  intro mask hmask
  rcases mem_append.mp hmask with hmask | hmask
  · obtain ⟨i, -, rfl⟩ := mem_map.mp hmask
    exact hcoins.mask i
  · rw [mem_singleton.mp hmask]
    exact A.scSub_reduced _ _ htotal (scalar_drawn A hcoins.mask (count - 1)).1

end Coordinated

theorem length_coordinatedMasks {total : Key} {count : ℕ} (h : 0 < count) :
    (coordinatedMasks C S coins total count).length = count := by
  rw [coordinatedMasks, length_append, length_map, length_range, length_singleton]
  omega

theorem sum_transferMasks (hcoins : Reduced S coins) (ins : ℕ) :
    ((transferMasks C S coins ins).map A.scalar).sum =
      ((List.range ins).map fun i => A.scalar (coins.pseudoMask i)).sum := by
  obtain ⟨hreduced, hsum⟩ := scalar_drawn A hcoins.pseudoMask ins
  rw [transferMasks, sum_coordinatedMasks A hcoins hreduced, hsum, map_map]
  rfl

theorem transferMasks_reduced (A : Arithmetic C D S order) (hcoins : Reduced S coins) (ins : ℕ) :
    ∀ mask ∈ transferMasks C S coins ins, S.scCheck mask = true :=
  coordinatedMasks_reduced A hcoins (scalar_drawn A hcoins.pseudoMask ins).1

theorem length_transferMasks (C : Crypto Key) (S : SenderPrimitives) (coins : Coins)
    (ins : ℕ) : (transferMasks C S coins ins).length = maxConfidentialAssetOutputs :=
  length_coordinatedMasks (by decide)

/-! ### Commitments that add up -/

theorem addKeys_commitments {openings : List (UInt64 × Key)}
    (hmasks : ∀ e ∈ openings, S.scCheck e.2 = true) :
    C.addKeys (openings.map fun e => C.commit e.1 e.2) =
      A.point (((openings.map fun e => e.1.toNat).sum : ℕ),
        (openings.map fun e => A.scalar e.2).sum) := by
  have hpoints : (openings.map fun e => C.commit e.1 e.2) =
      (openings.map fun e => ((e.1.toNat : ZMod order), A.scalar e.2)).map A.point := by
    rw [map_map]
    exact map_congr_left fun e he => A.commit_eq e.1 e.2 (hmasks e he)
  have hsum : (openings.map fun e => ((e.1.toNat : ZMod order), A.scalar e.2)).sum =
      ((((openings.map fun e => e.1.toNat).sum : ℕ) : ZMod order),
        (openings.map fun e => A.scalar e.2).sum) := by
    clear hpoints hmasks
    induction openings with
    | nil => simp [Prod.ext_iff]
    | cons e rest ih => simp [ih]
  rw [hpoints, A.addKeys_points, hsum]

theorem commit_inMainSubgroup (A : Arithmetic C D S order) {amt : UInt64} {mask : Key}
    (hmask : S.scCheck mask = true) :
    C.isInMainSubgroup (C.commit amt mask) = true := by
  rw [A.commit_eq _ _ hmask]
  exact A.inMainSubgroup _

/-! ### Outputs -/

/-- The one-time key that an output is sent to. -/
def destinationOf (D : Derivations) (o : OutputOrder) (index : ℕ) : Option PublicKey := do
  let derivation ← D.generateKeyDerivation o.address.viewPublicKey o.txSecretKey
  D.derivePublicKey derivation index o.address.spendPublicKey

/-- An output to a valid address is made, and it passes the checks of the verifier unless its
one-time key is the identity. -/
theorem exists_made {o : OutputOrder} {index : ℕ} (hmask : S.scCheck o.mask = true)
    (hsecret : S.scCheck o.txSecretKey = true) (haddress : ValidAddress A o.address)
    (hfresh : destinationOf D o index ≠ some C.identity) :
    ∃ m, makeAssetRecipientDataWithMask C D S o index = .ok m ∧
      m.2 = C.commit o.amount o.mask ∧ checkRecipient C m.1 = .ok () := by
  obtain ⟨⟨b, hspend⟩, ⟨a, hview⟩⟩ := haddress
  obtain ⟨derivation, hderivation⟩ := A.derivation a o.txSecretKey hsecret
  have honeTime := A.oneTimeKey derivation index b
  have htxKey : ∃ x, txPublicKeyOf S o.address o.isSubaddress o.txSecretKey = .ok (A.point x) := by
    rw [txPublicKeyOf, A.publicKey _ hsecret, hspend, A.scalarmult _ _ hsecret]
    cases o.isSubaddress with
    | true => exact ⟨_, rfl⟩
    | false => exact ⟨_, rfl⟩
  obtain ⟨x, htxKey⟩ := htxKey
  have hnull : A.point x ≠ Blob.zero 32 := by
    intro h
    have hin := A.inMainSubgroup x
    rw [h, A.null_outside] at hin
    cases hin
  rw [destinationOf, hview, hderivation, Option.bind_eq_bind, Option.bind_some, hspend,
    honeTime] at hfresh
  rw [makeAssetRecipientDataWithMask, failIf_of_not _ (by simp [hmask]), ok_bind, htxKey, ok_bind,
    hview, hderivation]
  simp only [hspend, honeTime]
  refine ⟨_, rfl, rfl, ?_⟩
  rw [checkRecipient, failIf_eq_ok]
  simp only [A.inMainSubgroup, A.isKey, not_or, hnull, not_false_eq_true, Bool.true_eq_false,
    true_and, and_true]
  exact fun hidentity => hfresh (by rw [hidentity])

/-! ### Primitives that keep the laws -/

/-- The order of a small group. -/
def pairOrder : ℕ := 65537

instance : NeZero pairOrder := ⟨by decide⟩

/-- A point of the group of pairs, away from the bytes of `null_pkey`. -/
def pairPoint (x : ZMod pairOrder × ZMod pairOrder) : Key :=
  keyOfNat (x.1.val + 2 ^ 64 * x.2.val + 2 ^ 128)

def pairOf (key : Key) : ZMod pairOrder × ZMod pairOrder :=
  ((leValue key.bytes % 2 ^ 64 : ℕ), (leValue key.bytes / 2 ^ 64 % 2 ^ 64 : ℕ))

def pairScalar (key : Key) : ZMod pairOrder := (leValue key.bytes : ℕ)

theorem val_lt (x : ZMod pairOrder) : x.val < 65537 := ZMod.val_lt x

theorem leValue_pairPoint (x : ZMod pairOrder × ZMod pairOrder) :
    leValue (pairPoint x).bytes = x.1.val + 2 ^ 64 * x.2.val + 2 ^ 128 := by
  have h1 := val_lt x.1
  have h2 := val_lt x.2
  exact leValue_keyOfNat (by omega)

theorem pairOf_pairPoint (x : ZMod pairOrder × ZMod pairOrder) : pairOf (pairPoint x) = x := by
  have h1 := val_lt x.1
  have h2 := val_lt x.2
  have hlow : leValue (pairPoint x).bytes % 2 ^ 64 = x.1.val := by
    rw [leValue_pairPoint]
    omega
  have hhigh : leValue (pairPoint x).bytes / 2 ^ 64 % 2 ^ 64 = x.2.val := by
    rw [leValue_pairPoint]
    omega
  rw [pairOf, hlow, hhigh, ZMod.natCast_zmod_val, ZMod.natCast_zmod_val]

theorem pairScalar_keyOfNat {x : ZMod pairOrder} : pairScalar (keyOfNat x.val) = x := by
  have h := val_lt x
  rw [pairScalar, leValue_keyOfNat (by omega), ZMod.natCast_zmod_val]

def pairCrypto : Crypto Key :=
  { toy with
    identity := pairPoint 0
    isInMainSubgroup := fun key => key ≠ Blob.zero 32
    commit := fun amount mask => pairPoint (amount.toNat, pairScalar mask)
    addKeys := fun keys => pairPoint (keys.map pairOf).sum }

def pairDerivations : Derivations where
  generateKeyDerivation key secret := some (pairPoint (0, pairScalar secret * (pairOf key).2))
  deriveViewTag _ _ := 0
  derivePublicKey derivation index key :=
    some (pairPoint (0, (pairOf derivation).2 + index + (pairOf key).2))
  derivationToScalar _ _ := Blob.zero 32
  ecdhDecode tuple _ := tuple
  h2d _ := 1

def pairSender : SenderPrimitives where
  scCheck _ := true
  scAdd a b := keyOfNat (pairScalar a + pairScalar b).val
  scSub a b := keyOfNat (pairScalar a - pairScalar b).val
  secretKeyToPublicKey secret := some (pairPoint (0, pairScalar secret))
  scalarmultKey key secret := .ok (pairPoint (0, pairScalar secret * (pairOf key).2))
  scalarmultBase secret := pairPoint (0, pairScalar secret)
  d2h amount := keyOfNat amount.toNat
  ecdhEncode tuple _ := tuple
  bulletproofPlusProve amounts masks :=
    .ok (rangeProof (List.zipWith pairCrypto.commit amounts masks))
  proveRctCLSAGSimple _ _ ring secret _ _ _ :=
    .ok { s := ring.map CtKey.dest, c1 := Blob.zero 32, I := secret.dest, D := Blob.zero 32 }

theorem pairPoint_ne_zero (x : ZMod pairOrder × ZMod pairOrder) : pairPoint x ≠ Blob.zero 32 := by
  intro h
  have hval := leValue_pairPoint x
  have hzero : leValue (Blob.zero 32).bytes = 0 := by decide
  rw [h, hzero] at hval
  omega

def pairArithmetic : Arithmetic pairCrypto pairDerivations pairSender pairOrder where
  scalar := pairScalar
  point := pairPoint
  shared derivation index := (pairOf derivation).2 + index
  scalar_zero := by decide +kernel
  zero_reduced := rfl
  scAdd_reduced _ _ _ _ := rfl
  scalar_scAdd _ _ _ _ := pairScalar_keyOfNat
  scSub_reduced _ _ _ _ := rfl
  scalar_scSub _ _ _ _ := pairScalar_keyOfNat
  commit_eq _ _ _ := rfl
  addKeys_points openings := by
    have hmap : (openings.map pairPoint).map pairOf = openings := by
      rw [map_map]
      exact map_id'' (fun x => pairOf_pairPoint x) openings
    change pairPoint ((openings.map pairPoint).map pairOf).sum = pairPoint openings.sum
    rw [hmap]
  inMainSubgroup x := decide_eq_true (pairPoint_ne_zero x)
  isKey _ := rfl
  null_outside := by decide
  publicKey _ _ := rfl
  scalarmult x secret _ := by
    change Except.ok (pairPoint (0, pairScalar secret * (pairOf (pairPoint (0, x))).2)) = _
    rw [pairOf_pairPoint]
  derivation _ _ _ := ⟨_, rfl⟩
  oneTimeKey derivation index x := by
    change some (pairPoint (0, (pairOf derivation).2 + index + (pairOf (pairPoint (0, x))).2)) = _
    rw [pairOf_pairPoint]

theorem pair_rangeComplete : RangeComplete pairCrypto pairSender := by
  intro amts masks _ hlen hlim _
  refine ⟨_, rfl, rfl, map_id _, ?_⟩
  constructor
  · rw [rangeProof, length_zipWith, hlen, Nat.min_self]
    exact hlim
  · exact (by decide : 1 ≤ 16)
  · exact cons_ne_nil _ _
  · rfl

theorem pair_signatureComplete (coins : Coins) (e : AssetTransferInput × ℕ) :
    SignatureComplete pairCrypto pairSender id coins e := by
  intro _ msg
  refine ⟨_, rfl, ?_, rfl, rfl⟩
  simp

end Monzero.SenderLaws
