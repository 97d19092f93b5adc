import Monzero.Primitives
import Mathlib.Data.ZMod.Basic

/-!
CLSAG ring signatures over the curve as a group: a subgroup of prime order times a
torsion subgroup of order eight. The verifier and the signer are those of `rct::`,
except that a signer may add a torsion point to the key image. The verifier decodes
the key image as a point and asks no more of it than not to be the identity.
-/
namespace Monzero.Clsag

open Bytes Primitives List

/-- `rct::curveOrder()`. -/
def curveOrder : ℕ := 2 ^ 252 + 27742317777372353535851937790883648493

instance : NeZero curveOrder := ⟨by decide⟩

/-- A reduced scalar. -/
abbrev Scalar := ZMod curveOrder

/-- A point of the curve, by its components in the subgroup of prime order and in the
torsion subgroup. -/
abbrev Point := ZMod curveOrder × ZMod 8

/-- The multiple of a point, `ge_scalarmult`. -/
def multiple (n : ℕ) (P : Point) : Point := (n * P.1, n * P.2)

def scalarmult (s : Scalar) (P : Point) : Point := multiple s.val P

/-- The base point `G`. -/
def basePoint : Point := (1, 0)

def invEight : Scalar :=
  2713877091499598330239944961141122840321418634767465352250731601857045344121

example : (8 : Scalar) * invEight = 1 := by decide +kernel

/-- A point lies in the subgroup of prime order exactly when it has no torsion. -/
theorem multiple_curveOrder_eq_zero (P : Point) : multiple curveOrder P = 0 ↔ P.2 = 0 := by
  have hunit : (curveOrder : ZMod 8) = 5 := by decide +kernel
  have hcancel : ∀ t : ZMod 8, 5 * t = 0 ↔ t = 0 := by decide
  rw [multiple, Prod.ext_iff, hunit, ZMod.natCast_self, zero_mul]
  simp [hcancel]

/-- Byte strings as points and scalars, and the two hashes. Encodings of points are
canonical: `ge_frombytes_vartime` refuses all others. -/
structure Curve (K : Type) where
  /-- `ge_frombytes_vartime`. -/
  decodePoint : K → Option Point
  /-- `ge_tobytes`. -/
  encodePoint : Point → K
  decodePoint_encodePoint : ∀ P, decodePoint (encodePoint P) = some P
  encodePoint_decodePoint : ∀ k P, decodePoint k = some P → encodePoint P = k
  /-- The scalar a key holds, when `sc_check` accepts it. -/
  decodeScalar : K → Option Scalar
  encodeScalar : Scalar → K
  decodeScalar_encodeScalar : ∀ s, decodeScalar (encodeScalar s) = some s
  /-- `hash_to_scalar` of a vector of keys. -/
  hashToScalar : List K → Scalar
  /-- `hash_to_p3`, a multiple of eight. -/
  hashToP3 : K → Point
  hashToP3_torsion : ∀ k, (hashToP3 k).2 = 0
  /-- A domain string, padded with zeros to a key. -/
  domainKey : List UInt8 → K

variable {K : Type} [DecidableEq K]

/-- `rct::identity()`. -/
def Curve.identity (V : Curve K) : K := V.encodePoint 0

omit [DecidableEq K] in
theorem Curve.encodePoint_inj (V : Curve K) (P Q : Point) :
    V.encodePoint P = V.encodePoint Q ↔ P = Q := by
  constructor
  · intro h
    have hdec := V.decodePoint_encodePoint P
    rw [h, V.decodePoint_encodePoint] at hdec
    exact (Option.some.inj hdec).symm
  · intro h
    rw [h]

/-- `rct::isInMainSubgroup`. -/
def Curve.isInMainSubgroup (V : Curve K) (k : K) : Bool :=
  match V.decodePoint k with
  | some P => V.encodePoint (multiple curveOrder P) = V.identity
  | none => false

/-- What the rounds of one signature share: the key images as points, the commitment
offset, the aggregation hashes and the fixed part of `c_to_hash`. -/
structure Transcript (K : Type) where
  image : Point
  aux : Point
  offset : Point
  muP : Scalar
  muC : Scalar
  fixed : List K

/-- `mu_P` and `mu_C`, by their domains. -/
def aggregationHash (V : Curve K) (domain : List UInt8) (pubs : List (CtKey K))
    (I D offset : K) : Scalar :=
  V.hashToScalar (V.domainKey domain ::
    (pubs.map CtKey.dest ++ (pubs.map CtKey.mask ++ [I, D, offset])))

def transcript (V : Curve K) (message : K) (pubs : List (CtKey K)) (I D offset : K)
    (image aux offsetPoint : Point) : Transcript K where
  image := image
  aux := aux
  offset := offsetPoint
  muP := aggregationHash V (ascii "CLSAG_agg_0") pubs I D offset
  muC := aggregationHash V (ascii "CLSAG_agg_1") pubs I D offset
  fixed := V.domainKey (ascii "CLSAG_round") ::
    (pubs.map CtKey.dest ++ (pubs.map CtKey.mask ++ [offset, message]))

/-- The challenge that follows the points `L` and `R`; zero is refused. -/
def challenge (V : Curve K) (τ : Transcript K) (L R : Point) : Option Scalar :=
  let c := V.hashToScalar (τ.fixed ++ [V.encodePoint L, V.encodePoint R])
  if c = 0 then none else some c

/-- One round: the challenge after a ring member and its response. -/
def round (V : Curve K) (τ : Transcript K) (c : Scalar) (member : CtKey K × Scalar) :
    Option Scalar := do
  let P ← V.decodePoint member.1.dest
  let mask ← V.decodePoint member.1.mask
  let cP := τ.muP * c
  let cC := τ.muC * c
  challenge V τ
    (scalarmult member.2 basePoint + scalarmult cP P + scalarmult cC (mask - τ.offset))
    (scalarmult member.2 (V.hashToP3 member.1.dest) + scalarmult cP τ.image +
      scalarmult cC τ.aux)

/-- The body of `verRctCLSAGSimple`; `none` where it returns false early or throws. -/
def verifyRounds (V : Curve K) (message : K) (sig : Clsag K) (pubs : List (CtKey K))
    (offset : K) : Option Bool := do
  guard (1 ≤ pubs.length)
  guard (pubs.length = sig.s.length)
  let responses ← sig.s.mapM V.decodeScalar
  let c1 ← V.decodeScalar sig.c1
  guard (sig.I ≠ V.identity)
  let offsetPoint ← V.decodePoint offset
  let D ← V.decodePoint sig.D
  let aux := multiple 8 D
  guard (V.encodePoint aux ≠ V.identity)
  let image ← V.decodePoint sig.I
  let τ := transcript V message pubs sig.I sig.D offset image aux offsetPoint
  let c ← (pubs.zip responses).foldlM (round V τ) c1
  return c = c1

def verRctCLSAGSimple (V : Curve K) (message : K) (sig : Clsag K) (pubs : List (CtKey K))
    (offset : K) : Bool :=
  verifyRounds V message sig pubs offset = some true

/-- What the verifier asks of a key image. -/
theorem image_of_verified {V : Curve K} {msg offset : K} {sig : Clsag K} {pubs : List (CtKey K)}
    (h : verRctCLSAGSimple V msg sig pubs offset = true) :
    ∃ P, V.decodePoint sig.I = some P ∧ P ≠ 0 := by
  have hrounds : verifyRounds V msg sig pubs offset = some true := of_decide_eq_true h
  simp only [verifyRounds, Option.bind_eq_bind, Option.bind_eq_some_iff] at hrounds
  obtain ⟨_, -, _, -, _, -, _, -, _, hne, _, -, _, -, _, -, P, himage, -⟩ := hrounds
  refine ⟨P, himage, ?_⟩
  rintro rfl
  have hid : sig.I ≠ V.identity := by
    by_contra heq
    simp [heq] at hne
  exact hid (V.encodePoint_decodePoint _ _ himage).symm

/-- What a signer brings: the other ring members with the responses drawn for them, its own
member with the secrets of its key and commitment, a nonce, and the torsion point it adds
to the key image. -/
structure Signer (K : Type) where
  front : List (CtKey K × Scalar)
  own : CtKey K
  back : List (CtKey K × Scalar)
  secret : Scalar
  z : Scalar
  nonce : Scalar
  torsion : ZMod 8

namespace Signer

def pubs (σ : Signer K) : List (CtKey K) :=
  σ.front.map Prod.fst ++ σ.own :: σ.back.map Prod.fst

/-- `p * H`, plus the signer's torsion point. -/
def image (V : Curve K) (σ : Signer K) : Point :=
  scalarmult σ.secret (V.hashToP3 σ.own.dest) + (0, σ.torsion)

/-- `D = z * H`. -/
def aux (V : Curve K) (σ : Signer K) : Point := scalarmult σ.z (V.hashToP3 σ.own.dest)

def transcript (V : Curve K) (message offset : K) (offsetPoint : Point) (σ : Signer K) :
    Transcript K :=
  Clsag.transcript V message σ.pubs (V.encodePoint (σ.image V))
    (V.encodePoint (scalarmult invEight (σ.aux V))) offset (σ.image V) (σ.aux V) offsetPoint

/-- The challenge at the start of the ring, from the initial commitment on through the rounds
after the signer's. -/
def closing (V : Curve K) (τ : Transcript K) (σ : Signer K) : Option Scalar := do
  let c ← challenge V τ (scalarmult σ.nonce basePoint)
    (scalarmult σ.nonce (V.hashToP3 σ.own.dest))
  σ.back.foldlM (round V τ) c

/-- `clsag_sign`. -/
def response (τ : Transcript K) (σ : Signer K) (c : Scalar) : Scalar :=
  σ.nonce - c * (τ.muP * σ.secret + τ.muC * σ.z)

/-- `CLSAG_Gen`, from the initial commitment around the ring to the signer's response. -/
def clsagGen (V : Curve K) (message offset : K) (σ : Signer K) : Option (Clsag K) := do
  let offsetPoint ← V.decodePoint offset
  let τ := σ.transcript V message offset offsetPoint
  let c1 ← σ.closing V τ
  let c ← σ.front.foldlM (round V τ) c1
  return {
    s := (σ.front.map Prod.snd ++ σ.response τ c :: σ.back.map Prod.snd).map V.encodeScalar,
    c1 := V.encodeScalar c1,
    I := V.encodePoint (σ.image V),
    D := V.encodePoint (scalarmult invEight (σ.aux V)) }

end Signer

end Monzero.Clsag
