import Mathlib.Data.List.Zip
import Monzero.AddedEnvelope
import Monzero.WireRoundTrip
import Monzero.WalletSpendable

/-!
What is sent is found. Sender and recipient derive the one-time key, the view tag and the key
of the opening from a secret they share, the node only numbers and identifies the outputs, and
all three count the outputs of a payload alike. So the wallet decodes the outputs that are
addressed to it and no others, each with the amount and the mask of the sender, and gives it
the id that the node has stored.
-/
namespace Monzero.SentAssets

open Bytes Checked IndexedTable Primitives IssuanceCodec AssetConfidential AssetWire AssetWireCodec
  WireParts WireRoundTrip AssetDb AssetApplication AssetRecipient AssetBuilders TxExtra
  CarrierExtra AddedEnvelope WalletAssets ToyCrypto ToyNode List
open WalletConsistency (sumDerivations sumWallet)

/-- What a builder is asked for. -/
inductive PayloadOrder
  | issuance (payload : IssuancePayload) (recipient : AccountPublicAddress) (isSubaddress : Bool)
  | transfer (network : NetworkType) (assetId : Hash) (inputs : List AssetTransferInput)
      (destinations : List AssetTransferDestination) (burnAmount : UInt64)

section Orders

variable (C : Crypto Key) (D : Derivations) (S : SenderPrimitives) (coins : Coins)

/-- The payload that is built for an order and a carrier. -/
def PayloadOrder.create (carrier : Hash) :
    PayloadOrder → Except String (AssetTransactionPayload Key)
  | .issuance payload recipient isSubaddress =>
      createIssuanceTransactionPayload C D S coins payload recipient isSubaddress carrier
  | .transfer network assetId inputs destinations burnAmount =>
      createAssetTransferTransactionPayload C D S coins network assetId inputs destinations
        burnAmount carrier

/-- The outputs that are made for an order, in their order. -/
def PayloadOrder.outputs : PayloadOrder → List OutputOrder
  | .issuance payload recipient isSubaddress =>
      issuanceOutputs C S coins payload recipient isSubaddress
  | .transfer _ _ inputs destinations burnAmount =>
      transferOutputs C S coins inputs.length destinations burnAmount

end Orders

section Secrets

variable (D : Derivations) (S : SenderPrimitives) (W : Wallet)

def senderSecret (o : OutputOrder) : Option KeyDerivation :=
  D.generateKeyDerivation o.address.viewPublicKey o.txSecretKey

def walletSecret (o : OutputOrder) : Option KeyDerivation :=
  match txPublicKeyOf S o.address o.isSubaddress o.txSecretKey with
  | .ok txPublicKey => D.generateKeyDerivation txPublicKey W.viewSecretKey
  | .error _ => none

def isAddressed (o : OutputOrder) : Bool :=
  (∃ entry ∈ W.subaddresses, entry.1 = o.address.spendPublicKey) ∧
    walletSecret D S W o = senderSecret D o

/-- An address of the wallet: the standard one at `(0, 0)`, or a known subaddress. The view keys
are given by `viewKeyOf`. -/
def OwnAddress (viewKeyOf : SubaddressIndex → PublicKey) (address : AccountPublicAddress)
    (isSubaddress : Bool) : Prop :=
  ∃ entry ∈ W.subaddresses, address = ⟨entry.1, viewKeyOf entry.2⟩ ∧
    (isSubaddress = true ↔ entry.2 ≠ ⟨0, 0⟩)

/-- Diffie-Hellman agreement for the addresses of a wallet: from the transaction key that is made
for one of them, the view secret key gives the secret of the sender. -/
def Agreement (viewKeyOf : SubaddressIndex → PublicKey) : Prop :=
  ∀ o : OutputOrder, OwnAddress W viewKeyOf o.address o.isSubaddress → ∀ txPublicKey,
    txPublicKeyOf S o.address o.isSubaddress o.txSecretKey = .ok txPublicKey →
      D.generateKeyDerivation txPublicKey W.viewSecretKey =
        D.generateKeyDerivation o.address.viewPublicKey o.txSecretKey

/-- What one secret makes of an opening that was sealed with another. -/
def openingWith (own sent : KeyDerivation) (o : OutputOrder) (i : ℕ) : EcdhTuple Key :=
  D.ecdhDecode
    (S.ecdhEncode { mask := o.mask, amount := S.d2h o.amount } (D.derivationToScalar sent i))
    (D.derivationToScalar own i)

/-- Commitments bind, and keys do not collide: with a secret of its own a wallet opens the
commitment of an output only if that is the secret of the sender, and the one-time key of an output
belongs to one spend key. -/
structure Binding (C : Crypto Key) (outputs : List OutputOrder) : Prop where
  secret : ∀ e ∈ outputs.zipIdx, ∀ own sent, walletSecret D S W e.1 = some own →
    senderSecret D e.1 = some sent →
    C.commit (D.h2d (openingWith D S own sent e.1 e.2).amount)
      (openingWith D S own sent e.1 e.2).mask = C.commit e.1.amount e.1.mask → own = sent
  spendKey : ∀ e ∈ outputs.zipIdx, ∀ entry ∈ W.subaddresses, ∀ sent key,
    senderSecret D e.1 = some sent →
    D.derivePublicKey sent e.2 e.1.address.spendPublicKey = some key →
    D.derivePublicKey sent e.2 entry.1 = some key → entry.1 = e.1.address.spendPublicKey

end Secrets

/-- What sender and recipient assume of the primitives: an opening is decoded as it was encoded,
points of the subgroup are points, and the range prover keeps to the sizes of the wire. -/
structure Laws (C : Crypto Key) (D : Derivations) (S : SenderPrimitives) : Prop where
  opening : ∀ mask amount key, S.scCheck mask = true →
    D.ecdhDecode (S.ecdhEncode { mask, amount := S.d2h amount } key) key =
      { mask, amount := S.d2h amount }
  amount : ∀ amount, D.h2d (S.d2h amount) = amount
  point : ∀ key, C.isInMainSubgroup key = true → C.checkKey key = true
  proved : ∀ amounts masks proof, S.bulletproofPlusProve amounts masks = .ok proof →
    FitsRangeProof proof

structure Records (C : Crypto Key) (W : Wallet) (p : AssetTransactionPayload Key) (ids : List Hash)
    (t : AssetTables Key) (txid : Hash) (height : ℕ) (e : OutputOrder × ℕ)
    (td : AssetTransferDetails) : Prop where
  amount : td.amount = e.1.amount
  mask : td.mask = e.1.mask
  index : td.outputIndex = e.2
  subaddress : (e.1.address.spendPublicKey, td.subaddrIndex) ∈ W.subaddresses
  source : td.txid = txid ∧ td.blockHeight = height ∧ td.spent = false
  asset : ∀ balance ∈ p.balances, td.assetId = balance.assetId
  id : ids[e.2]? = some td.outputId
  stored : ∃ row ∈ t.outputs.rows, row.key = td.outputId ∧ row.height = height ∧
    row.value.assetId = td.assetId ∧ row.value.destination = td.destination ∧
    row.value.txPublicKey = td.txPublicKey ∧ row.value.outputIndex = td.outputIndex ∧
    row.value.commitment = C.commit td.amount td.mask

variable {C : Crypto Key} {D : Derivations} {S : SenderPrimitives} {coins : Coins} {W : Wallet}
  {ids : List Hash} {i height : ℕ} {orders outputs : List OutputOrder} {secret : KeyDerivation}
  {p q : AssetTransactionPayload Key} {m : AssetRecipientData Key × Key}
  {made : List (AssetRecipientData Key × Key)} {o : OutputOrder} {spendPublicKey : PublicKey}
  {dec : DecodedAssetRecipient} {e : OutputOrder × ℕ} {txid carrier id assetId : Hash}
  {out : PayloadOutput Key} {Numbered : PayloadOutput Key × ℕ → Hash → Prop} {net : NetworkType}
  {H : TransactionHashes} {tx : TransactionPrefix} {b : List UInt8}

theorem isAddressed_of_own {viewKeyOf : SubaddressIndex → PublicKey}
    (hagree : Agreement D S W viewKeyOf) {o : OutputOrder} {txPublicKey : PublicKey}
    (hkey : txPublicKeyOf S o.address o.isSubaddress o.txSecretKey = .ok txPublicKey)
    (hown : OwnAddress W viewKeyOf o.address o.isSubaddress) : isAddressed D S W o = true := by
  have hsecret : walletSecret D S W o = senderSecret D o := by
    rw [walletSecret, hkey]
    exact hagree o hown txPublicKey hkey
  obtain ⟨ent, hent, haddress, -⟩ := hown
  refine decide_eq_true ⟨⟨ent, hent, ?_⟩, hsecret⟩
  rw [haddress]

/-- What the sender has put into an output. -/
structure Made (C : Crypto Key) (D : Derivations) (S : SenderPrimitives) (o : OutputOrder) (i : ℕ)
    (m : AssetRecipientData Key × Key) (secret : KeyDerivation) : Prop where
  reduced : S.scCheck o.mask = true
  txKey : txPublicKeyOf S o.address o.isSubaddress o.txSecretKey = .ok m.1.txPublicKey
  shared : senderSecret D o = some secret
  destination : D.derivePublicKey secret i o.address.spendPublicKey = some m.1.destination
  viewTag : m.1.viewTag = D.deriveViewTag secret i
  opening : m.1.encryptedAmount =
    S.ecdhEncode { mask := o.mask, amount := S.d2h o.amount } (D.derivationToScalar secret i)
  commitment : m.2 = C.commit o.amount o.mask

theorem made_of_ok (h : makeAssetRecipientDataWithMask C D S o i = .ok m) :
    ∃ secret, Made C D S o i m secret := by
  simp only [makeAssetRecipientDataWithMask, bind_eq_ok, failIf_eq_ok, exists_unit,
    Bool.not_eq_false] at h
  obtain ⟨hmask, txPublicKey, hkey, h⟩ := h
  cases hsecret : D.generateKeyDerivation o.address.viewPublicKey o.txSecretKey with
  | none =>
    rw [hsecret] at h
    cases h
  | some secret =>
    rw [hsecret] at h
    cases hdest : D.derivePublicKey secret i o.address.spendPublicKey with
    | none =>
      simp only [hdest] at h
      cases h
    | some destination =>
      simp only [hdest, Except.ok.injEq] at h
      subst h
      exact ⟨secret, hmask, hkey, hsecret, hdest, rfl, rfl, rfl⟩

theorem Made.walletSecret_eq (h : Made C D S o i m secret) :
    walletSecret D S W o = D.generateKeyDerivation m.1.txPublicKey W.viewSecretKey := by
  rw [walletSecret, h.txKey]

/-- The points of a made output pass the checks of the recipient. -/
structure Sendable (C : Crypto Key) (m : AssetRecipientData Key × Key) : Prop where
  txPublicKey : C.checkKey m.1.txPublicKey = true
  destination : C.isInMainSubgroup m.1.destination = true
  commitment : C.isInMainSubgroup m.2 = true

/-- With the secret of the sender and the spend key of the address, an output decodes to the amount
and the mask it was made with. -/
theorem decode_made (laws : Laws C D S) (h : Made C D S o i m secret)
    (hpoints : Sendable C m) (hshared : walletSecret D S W o = senderSecret D o) :
    decodeAssetRecipientData C D m.1 o.address.spendPublicKey W.viewSecretKey i m.2 =
      .ok { amount := o.amount, mask := o.mask } := by
  have hsecret : D.generateKeyDerivation m.1.txPublicKey W.viewSecretKey = some secret := by
    rw [← h.walletSecret_eq, hshared, h.shared]
  have hcheck : ¬(C.checkKey m.1.txPublicKey = false ∨ C.checkKey m.1.destination = false ∨
      C.isInMainSubgroup m.2 = false) := by
    rw [hpoints.txPublicKey, laws.point _ hpoints.destination, hpoints.commitment]
    simp
  have hopening := laws.opening o.mask o.amount (D.derivationToScalar secret i) h.reduced
  rw [decodeAssetRecipientData, failIf_of_not _ hcheck, hsecret]
  simp only [ok_bind, h.viewTag, h.destination, h.opening, h.commitment, hopening, laws.amount,
    ne_eq, not_true_eq_false, not_false_eq_true, failIf_of_not]
  rfl

theorem decode_facts
    (h : decodeAssetRecipientData C D m.1 spendPublicKey W.viewSecretKey i m.2 = .ok dec) :
    ∃ own, D.generateKeyDerivation m.1.txPublicKey W.viewSecretKey = some own ∧
      D.derivePublicKey own i spendPublicKey = some m.1.destination ∧
      C.commit (D.h2d (D.ecdhDecode m.1.encryptedAmount (D.derivationToScalar own i)).amount)
        (D.ecdhDecode m.1.encryptedAmount (D.derivationToScalar own i)).mask = m.2 := by
  simp only [decodeAssetRecipientData, bind_eq_ok, exists_unit] at h
  obtain ⟨-, h⟩ := h
  cases hsecret : D.generateKeyDerivation m.1.txPublicKey W.viewSecretKey with
  | none =>
    rw [hsecret] at h
    cases h
  | some own =>
    simp only [hsecret, bind_eq_ok, exists_unit] at h
    obtain ⟨-, h⟩ := h
    cases hdest : D.derivePublicKey own i spendPublicKey with
    | none =>
      rw [hdest] at h
      cases h
    | some destination =>
      simp only [hdest, bind_eq_ok, exists_unit, failIf_eq_ok, not_not, ne_eq] at h
      exact ⟨own, rfl, by rw [hdest, h.1], h.2.1⟩

theorem addressed_of_decode (hbinding : Binding D S W C outputs)
    (he : e ∈ outputs.zipIdx) (h : Made C D S e.1 e.2 m secret)
    {ent : PublicKey × SubaddressIndex} (hent : ent ∈ W.subaddresses)
    (hdec : decodeAssetRecipientData C D m.1 ent.1 W.viewSecretKey e.2 m.2 = .ok dec) :
    walletSecret D S W e.1 = senderSecret D e.1 ∧ ent.1 = e.1.address.spendPublicKey := by
  obtain ⟨own, hown, hdestination, hcom⟩ := decode_facts hdec
  have hwallet : walletSecret D S W e.1 = some own := by rw [h.walletSecret_eq, hown]
  rw [h.opening, h.commitment] at hcom
  obtain rfl : own = secret := hbinding.secret e he own secret hwallet h.shared hcom
  exact ⟨hwallet.trans h.shared.symm,
    hbinding.spendKey e he ent hent own _ h.shared h.destination hdestination⟩

/-- No transfer has the output id of another one. -/
def isNew (transfers : List AssetTransferDetails) (td : AssetTransferDetails) : Bool :=
  ¬transfers.any fun td' => td'.outputId = td.outputId

theorem isNew_iff (tds : List AssetTransferDetails) (td : AssetTransferDetails) :
    isNew tds td = true ↔ ∀ td' ∈ tds, td'.outputId ≠ td.outputId := by
  simp [isNew]

theorem receiveOutput_of_foreign {subs : List (PublicKey × SubaddressIndex)}
    {tds : List AssetTransferDetails} (h : ∀ ent ∈ subs, ∀ dec,
      decodeAssetRecipientData C D out.recipient ent.1 W.viewSecretKey i out.commitment ≠ .ok dec) :
    receiveOutput C D W txid height carrier out i subs tds = tds := by
  induction subs with
  | nil => rfl
  | cons ent rest ih =>
    rw [receiveOutput]
    cases hdec : decodeAssetRecipientData C D out.recipient ent.1 W.viewSecretKey i
        out.commitment with
    | error e => exact ih fun other hother => h other (mem_cons_of_mem _ hother)
    | ok dec => exact absurd hdec (h ent mem_cons_self dec)

theorem receiveOutput_of_own (txid : Hash) (height : ℕ)
    (hid : deriveAssetOutputId C W.nettype carrier out i = .ok id)
    (hown : decodeAssetRecipientData C D out.recipient spendPublicKey W.viewSecretKey i
      out.commitment = .ok dec) {subs : List (PublicKey × SubaddressIndex)}
    (hother : ∀ ent ∈ subs, ∀ other,
      decodeAssetRecipientData C D out.recipient ent.1 W.viewSecretKey i out.commitment =
        .ok other → ent.1 = spendPublicKey) (hmem : ∃ ent ∈ subs, ent.1 = spendPublicKey) :
    ∃ sub, (spendPublicKey, sub) ∈ subs ∧ ∀ tds,
      receiveOutput C D W txid height carrier out i subs tds = tds ++ (if dec.amount = 0 then []
          else [receivedDetails D W txid height out i id dec sub]).filter (isNew tds) := by
  induction subs with
  | nil => simp at hmem
  | cons ent rest ih =>
    obtain ⟨key, sub⟩ := ent
    by_cases hkey : key = spendPublicKey
    · subst hkey
      refine ⟨sub, mem_cons_self, fun tds => ?_⟩
      rw [receiveOutput, hown]
      simp only [hid]
      split
      · rw [filter_nil, append_nil]
      · split
        · rename_i hseen
          obtain ⟨td, htd, hsame⟩ := any_eq_true.mp hseen
          rw [filter_cons_of_neg, filter_nil, append_nil]
          rw [isNew_iff]
          exact fun hnew => hnew td htd (of_decide_eq_true hsame)
        · rename_i hnew
          rw [filter_cons_of_pos, filter_nil]
          rw [isNew_iff]
          exact fun td htd hsame => hnew (any_eq_true.mpr ⟨td, htd, decide_eq_true hsame⟩)
    · have hfails : ∀ other, decodeAssetRecipientData C D out.recipient key W.viewSecretKey i
          out.commitment ≠ .ok other := fun other hdec =>
        hkey (hother _ mem_cons_self other hdec)
      obtain ⟨sub', hmem', hreceive⟩ := ih (fun ent hent => hother ent (mem_cons_of_mem _ hent)) (by
          obtain ⟨ent, hent, hspend⟩ := hmem
          rcases mem_cons.mp hent with rfl | hent
          · exact absurd hspend hkey
          · exact ⟨ent, hent, hspend⟩)
      refine ⟨sub', mem_cons_of_mem _ hmem', fun tds => ?_⟩
      rw [receiveOutput]
      cases hdec : decodeAssetRecipientData C D out.recipient key W.viewSecretKey i
          out.commitment with
      | error e => exact hreceive tds
      | ok other => exact absurd hdec (hfails other)

/-- The outputs of an order that a wallet should record. -/
def isWanted (D : Derivations) (S : SenderPrimitives) (W : Wallet) (e : OutputOrder × ℕ) : Bool :=
  e.1.amount ≠ 0 ∧ isAddressed D S W e.1 = true

/-- The output of a payload that was made for an order. -/
def outputOf (assetId : Hash) (m : AssetRecipientData Key × Key) : PayloadOutput Key :=
  { assetId, recipient := m.1, commitment := m.2 }

/-- How the wallet comes to a transfer: it is received for an order from an output with its id. -/
structure Received (C : Crypto Key) (D : Derivations) (S : SenderPrimitives) (W : Wallet)
    (txid : Hash) (height : ℕ) (assetId : Hash) (Numbered : PayloadOutput Key × ℕ → Hash → Prop)
    (e : OutputOrder × ℕ) (td : AssetTransferDetails) : Prop where
  subaddress : (e.1.address.spendPublicKey, td.subaddrIndex) ∈ W.subaddresses
  details : ∃ m, m.2 = C.commit e.1.amount e.1.mask ∧
    Numbered (outputOf assetId m, e.2) td.outputId ∧
    td = receivedDetails D W txid height (outputOf assetId m) e.2 td.outputId
      { amount := e.1.amount, mask := e.1.mask } td.subaddrIndex

theorem receive_made (laws : Laws C D S) (hbinding : Binding D S W C outputs)
    (he : e ∈ outputs.zipIdx) (h : Made C D S e.1 e.2 m secret) (hpoints : Sendable C m)
    (txid : Hash) (height : ℕ) (hnumbered : Numbered (outputOf assetId m, e.2) id)
    (hid : deriveAssetOutputId C W.nettype carrier (outputOf assetId m) e.2 = .ok id) :
    ∃ found, List.Forall₂ (Received C D S W txid height assetId Numbered)
        ([e].filter (isWanted D S W)) found ∧
      (∀ td ∈ found, td.outputId = id) ∧ ∀ tds,
        receiveOutput C D W txid height carrier (outputOf assetId m) e.2 W.subaddresses tds =
          tds ++ found.filter (isNew tds) := by
  obtain ⟨o, i⟩ := e
  cases haddressed : isAddressed D S W o with
  | false =>
    have hunwanted : [(o, i)].filter (isWanted D S W) = [] :=
      filter_cons_of_neg (by simp [isWanted, haddressed])
    refine ⟨[], ?_, by simp, ?_⟩
    · rw [hunwanted]
      exact .nil
    · intro tds
      rw [filter_nil, append_nil]
      refine receiveOutput_of_foreign fun ent hent dec hdec => ?_
      obtain ⟨hsecret, hspend⟩ := addressed_of_decode hbinding he h hent hdec
      exact of_decide_eq_false haddressed ⟨⟨ent, hent, hspend⟩, hsecret⟩
  | true =>
    obtain ⟨hknown, hsecret⟩ := of_decide_eq_true haddressed
    obtain ⟨sub, hmem, hreceive⟩ := receiveOutput_of_own txid height hid
      (decode_made laws h hpoints hsecret) (fun ent hent other hdec =>
        (addressed_of_decode hbinding he h hent hdec).2) hknown
    refine ⟨_, ?_, ?_, hreceive⟩
    · by_cases hzero : o.amount = 0
      · rw [filter_cons_of_neg (by simp [isWanted, hzero]), if_pos hzero]
        exact .nil
      · rw [filter_cons_of_pos (by simp [isWanted, hzero, haddressed]), if_neg hzero]
        exact .cons ⟨hmem, m, h.commitment, hnumbered, rfl⟩ .nil
    · intro td htd
      split at htd
      · cases htd
      · rw [mem_singleton.mp htd]
        rfl

theorem filter_isNew_append (tds added found : List AssetTransferDetails)
    (h : ∀ td ∈ found, ∀ td' ∈ added, td'.outputId ≠ td.outputId) :
    found.filter (isNew (tds ++ added)) = found.filter (isNew tds) := by
  refine filter_congr fun td htd => ?_
  rw [Bool.eq_iff_iff, isNew_iff, isNew_iff]
  constructor
  · intro hnew td' htd'
    exact hnew td' (mem_append_left _ htd')
  · intro hnew td' htd'
    rcases mem_append.mp htd' with htd' | htd'
    · exact hnew td' htd'
    · exact h td htd td' htd'

theorem receive_all (laws : Laws C D S) (hbinding : Binding D S W C outputs) (txid : Hash)
    (height : ℕ) (k : ℕ) (horders : ∀ e ∈ orders.zipIdx k, e ∈ outputs.zipIdx)
    (hmade : List.Forall₂ (fun e m => makeAssetRecipientDataWithMask C D S e.1 e.2 = .ok m ∧
      Sendable C m) (orders.zipIdx k) made)
    (hids : List.Forall₂ (fun e id => deriveAssetOutputId C W.nettype carrier e.1 e.2 = .ok id ∧
      Numbered e id) ((made.map (outputOf assetId)).zipIdx k) ids) (hnd : ids.Nodup) :
    ∃ found, List.Forall₂ (Received C D S W txid height assetId Numbered)
        ((orders.zipIdx k).filter (isWanted D S W)) found ∧
      (∀ td ∈ found, td.outputId ∈ ids) ∧ ∀ tds, ((made.map (outputOf assetId)).zipIdx k).foldl
            (fun tds out => receiveOutput C D W txid height carrier out.1 out.2
              W.subaddresses tds) tds =
          tds ++ found.filter (isNew tds) := by
  induction orders generalizing k made ids with
  | nil =>
    cases hmade
    cases hids
    exact ⟨[], .nil, by simp, by simp⟩
  | cons o rest ih =>
    rw [zipIdx_cons] at hmade horders ⊢
    cases hmade with
    | @cons _ m _ made hm hmade =>
      rw [map_cons, zipIdx_cons] at hids ⊢
      cases hids with
      | @cons _ id _ ids hid hids =>
        obtain ⟨secret, hsecret⟩ := made_of_ok hm.1
        obtain ⟨first, hfst, hfirstId, hreceive⟩ := receive_made laws hbinding
          (horders _ mem_cons_self) hsecret hm.2 txid height hid.2 hid.1
        obtain ⟨found, hfound, hfoundIds, hscan⟩ := ih (k + 1)
          (fun e he => horders e (mem_cons_of_mem _ he)) hmade hids (nodup_cons.mp hnd).2
        refine ⟨first ++ found, ?_, ?_, ?_⟩
        · have hsplit : ((o, k) :: rest.zipIdx (k + 1)).filter (isWanted D S W) =
              [(o, k)].filter (isWanted D S W) ++
                (rest.zipIdx (k + 1)).filter (isWanted D S W) := by
            rw [← filter_append]
            rfl
          rw [hsplit]
          exact rel_append hfst hfound
        · intro td htd
          rcases mem_append.mp htd with htd | htd
          · rw [hfirstId td htd]
            exact mem_cons_self
          · exact mem_cons_of_mem _ (hfoundIds td htd)
        · intro tds
          rw [foldl_cons, hreceive, hscan, filter_isNew_append, filter_append, append_assoc]
          intro td htd td' htd' heq
          rw [hfirstId td' (mem_of_mem_filter htd')] at heq
          exact (nodup_cons.mp hnd).1 (heq ▸ hfoundIds td htd)

/-- A payload as both builders leave it: one group with the outputs that were made, which has
passed the node's checks. -/
structure Built (C : Crypto Key) (D : Derivations) (S : SenderPrimitives)
    (orders : List OutputOrder) (p : AssetTransactionPayload Key) (assetId : Hash)
    (made : List (AssetRecipientData Key × Key)) : Prop where
  outputs : makeOutputs C D S orders = .ok made
  balances : ∃ pseudoInputs burns proof, p.balances = [
    { assetId, pseudoInputs, outputs := made.map Prod.snd, burns, rangeProofs := [proof] }] ∧
    FitsRangeProof proof
  recipients : p.outputRecipients = [made.map Prod.fst]
  checked : ∀ m ∈ made, checkRecipient C m.1 = .ok ()

theorem recipients_checked {known : List Hash} {u : Unit}
    (h : verifyAssetTransactionPayload C p known net carrier = .ok u)
    (hrecipients : p.outputRecipients = [made.map Prod.fst]) :
    ∀ m ∈ made, checkRecipient C m.1 = .ok () := by
  simp only [verifyAssetTransactionPayload, bind_eq_ok, exists_unit, checkAll_eq_ok,
    hrecipients] at h
  obtain ⟨-, -, -, -, hall, -⟩ := h
  intro m hm
  exact hall _ (mem_singleton_self _) m.1 (mem_map_of_mem hm)

theorem built_of_create (laws : Laws C D S) {order : PayloadOrder}
    (h : order.create C D S coins carrier = .ok p) :
    ∃ assetId made, Built C D S (order.outputs C S coins) p assetId made := by
  cases order with
  | issuance payload recipient isSubaddress =>
    simp only [PayloadOrder.create, createIssuanceTransactionPayload, bind_eq_ok, exists_unit,
      mapError_eq_ok, pure_eq_ok] at h
    obtain ⟨-, -, -, assetId, -, made, hmade, pf, hpf, hverify, rfl⟩ := h
    exact ⟨assetId, made, hmade, ⟨_, _, pf, rfl, laws.proved _ _ pf hpf⟩, rfl,
      recipients_checked hverify rfl⟩
  | transfer net assetId inputs destinations burnAmount =>
    simp only [PayloadOrder.create, createAssetTransferTransactionPayload, bind_eq_ok, exists_unit,
      mapError_eq_ok, pure_eq_ok] at h
    obtain ⟨-, -, -, -, -, -, -, -, -, -, made, hmade, pf, hpf, owned, -, hverify, rfl⟩ := h
    exact ⟨assetId, made, hmade, ⟨_, _, pf, rfl, laws.proved _ _ pf hpf⟩, rfl,
      recipients_checked hverify rfl⟩

theorem Built.payloadOutputs_eq (h : Built C D S orders p assetId made) :
    payloadOutputs p = made.map (outputOf assetId) := by
  obtain ⟨pseudoInputs, burns, pf, hbalances, -⟩ := h.balances
  have hzip : (made.map Prod.fst).zip (made.map Prod.snd) = made := by
    rw [zip_map']
    exact map_id made
  simp only [payloadOutputs, hbalances, h.recipients, zip_cons_cons, zip_nil_left,
    flatMap_cons, flatMap_nil, append_nil, hzip]
  rfl

/-- What is decoded from an attached payload is the payload, with the key images of its proofs in
their signatures. -/
theorem attached_decodes (h : Built C D S orders p assetId made) {ver : ℕ}
    (henc : encodeAssetTransactionPayload C p = .ok b)
    (hatt : getMonzeroAssetTxExtra tx.extra = .ok (some b))
    (hprs : parseNativeAssetTransaction C H tx ver net = .ok (some q)) :
    q = withKeyImages p ∧ hfVersionMonzeroAssets ≤ ver := by
  have hfits : ∀ bal ∈ p.balances, ∀ pf ∈ bal.rangeProofs, FitsRangeProof pf := by
    obtain ⟨pseudoInputs, burns, pf, hbalances, hpf⟩ := h.balances
    intro bal hbal pf' hpf'
    rw [hbalances, mem_singleton] at hbal
    rw [hbal] at hpf'
    rw [mem_singleton.mp hpf']
    exact hpf
  have hdec := (encoded_decodes_iff C p b henc).mpr hfits
  simp only [parseNativeAssetTransaction, hatt, ok_bind, bind_eq_ok, failIf_eq_ok, pure_eq_ok,
    exists_unit, hdec, not_lt] at hprs
  obtain ⟨hact, -, -, -, -, -, -, -, hq⟩ := hprs
  exact ⟨(Option.some.inj hq).symm, hact⟩

theorem Built.sendable (h : Built C D S orders p assetId made)
    (hids : List.Forall₂ (fun e id => deriveAssetOutputId C net carrier e.1 e.2 = .ok id)
      (made.map (outputOf assetId)).zipIdx ids) :
    ∀ m ∈ made, Sendable C m := by
  intro m hm
  have hrecipient := h.checked m hm
  simp only [checkRecipient, failIf_eq_ok, not_or, Bool.not_eq_false] at hrecipient
  obtain ⟨i, hi, hget⟩ := mem_iff_getElem.mp (mem_map_of_mem (f := outputOf assetId) hm)
  have hmem : (outputOf assetId m, i) ∈ (made.map (outputOf assetId)).zipIdx :=
    mk_mem_zipIdx_iff_getElem?.mpr (List.getElem?_eq_some_iff.mpr ⟨hi, hget⟩)
  obtain ⟨id, -, hid⟩ := forall₂_zip_partner hids hmem
  simp only [deriveAssetOutputId, bind_eq_ok, failIf_eq_ok, exists_unit, not_or,
    Bool.not_eq_false] at hid
  exact ⟨hrecipient.2.2.2, hid.2.2.1.1, hid.2.2.1.2⟩

theorem getElem?_of_zip {outs : List (PayloadOutput Key)}
    (h : (id, out, i) ∈ ids.zip outs.zipIdx) : ids[i]? = some id := by
  obtain ⟨j, hj, hget⟩ := mem_iff_getElem.mp h
  rw [getElem_zip, getElem_zipIdx] at hget
  obtain ⟨hid, -, hi⟩ := by simpa only [Prod.mk.injEq] using hget
  have hij : j = i := by omega
  subst hij
  exact List.getElem?_eq_some_iff.mpr ⟨_, hid⟩

theorem isNew_marked (pfs : List (AssetOwnershipProof Key)) (height : ℕ)
    (tds : List AssetTransferDetails) :
    isNew (pfs.foldl (fun tds pf => markSpent height pf.keyImage tds) tds) = isNew tds := by
  induction pfs generalizing tds with
  | nil => rfl
  | cons pf rest ih =>
    rw [foldl_cons, ih]
    funext td
    have hids := WalletSpendable.map_markSpent AssetTransferDetails.outputId (fun _ _ => rfl) height
      pf.keyImage tds
    have hany : ∀ l : List AssetTransferDetails, (l.any fun td' => td'.outputId = td.outputId) =
        (l.map AssetTransferDetails.outputId).any fun id => id = td.outputId := by
      intro l
      rw [any_map]
      rfl
    rw [isNew, isNew, hany, hids, ← hany]

/-- An envelope that is added to an extra field is the envelope of the result, if that can be read
and the field did not end cut off. -/
theorem envelope_of_added {extra extra' : List UInt8} {fs : List TxExtraField}
    (h : addMonzeroAssetTxExtra extra b = .ok extra') (hwhole : ¬EndsCutOff extra)
    (hprs : parseTxExtra extra' = some fs) : getMonzeroAssetTxExtra extra' = .ok (some b) := by
  obtain ⟨-, hsize, ⟨before, hbefore, hplain⟩, rfl⟩ := (add_eq_ok_iff extra b extra').mp h
  exact get_added (appendable_of_parse hwhole hprs) hbefore hplain hsize

/-- An attached issuance was built for the carrier, and the payload is the envelope of the
transaction, unless the extra field of the native one ends cut off. -/
theorem attached_of_attachIssuance {native : TransactionPrefix} {iss : IssuancePayload}
    {rcpt : AccountPublicAddress} {isSub : Bool}
    (h : attachIssuanceToNativeTransaction C D S coins H native iss rcpt isSub =
      .ok (tx, p)) (hwhole : ¬EndsCutOff native.extra) :
    (∃ carrier, (PayloadOrder.issuance iss rcpt isSub).create C D S coins carrier = .ok p) ∧
    ∃ b, encodeAssetTransactionPayload C p = .ok b ∧
      getMonzeroAssetTxExtra tx.extra = .ok (some b) := by
  simp only [attachIssuanceToNativeTransaction, bind_eq_ok] at h
  obtain ⟨existing, -, h⟩ := h
  cases existing with
  | some data => cases h
  | none =>
    simp only [bind_eq_ok] at h
    obtain ⟨carrier, -, created, hcreate, attached, hatt, h⟩ := h
    split at h
    · rename_i q hprs
      obtain ⟨rfl, rfl⟩ := Prod.mk.inj (Except.ok.inj h)
      simp only [attachPayload, bind_eq_ok, pure_eq_ok] at hatt
      obtain ⟨b, henc, extra, hadd, rfl⟩ := hatt
      refine ⟨⟨carrier, hcreate⟩, b, henc, ?_⟩
      cases hfields : parseTxExtra extra with
      | none =>
        simp only [parseNativeAssetTransaction, getMonzeroAssetTxExtra, hfields] at hprs
        cases hprs
      | some fields => exact envelope_of_added hadd hwhole hfields
    · cases h

/-- What the wallet received from the outputs of a payload is recorded with their ids, and with
the rows that the node has for them. -/
theorem records_of_received {t t' : AssetTables Key} (hbuilt : Built C D S orders p assetId made)
    (hrows : t'.outputs.rows = t.outputs.rows ++ outputRows (withKeyImages p) height ids)
    {td : AssetTransferDetails} (h : Received C D S W txid height assetId
      (fun e id => (id, e) ∈ ids.zip (made.map (outputOf assetId)).zipIdx) e td) :
    Records C W p ids t' txid height e td := by
  obtain ⟨hsubaddress, m, hcom, hzip, hdetails⟩ := h
  refine ⟨?_, ?_, ?_, hsubaddress, ?_, ?_, getElem?_of_zip hzip, ?_⟩
  · rw [hdetails]
    rfl
  · rw [hdetails]
    rfl
  · rw [hdetails]
    rfl
  · rw [hdetails]
    exact ⟨rfl, rfl, rfl⟩
  · obtain ⟨pseudoInputs, burns, pf, hbalances, -⟩ := hbuilt.balances
    intro bal hbal
    rw [hbalances, mem_singleton] at hbal
    rw [hdetails, hbal]
    rfl
  · have houts : payloadOutputs (withKeyImages p) = made.map (outputOf assetId) :=
      hbuilt.payloadOutputs_eq
    rw [← houts] at hzip
    have hrow := mem_append_right t.outputs.rows (show _ ∈ outputRows (withKeyImages p) height
      ids from mem_map_of_mem hzip)
    rw [← hrows] at hrow
    refine ⟨_, hrow, rfl, rfl, ?_⟩
    rw [hdetails]
    exact ⟨rfl, rfl, rfl, rfl, hcom⟩

/-- What is sent is found. A payload is built and attached to a transaction that the node applies,
and a wallet of the network scans it. Outputs to its own addresses are addressed to the wallet. It
records one transfer for each output that is addressed to it and has an amount, in order and unless
it has one with that id already, and nothing else; each has the amount and the mask of the sender
and the id under which the node has stored the output. -/
theorem sent_assets_found (C : Crypto Key) (H : TransactionHashes) (D : Derivations)
    (S : SenderPrimitives) (coins : Coins) (W : Wallet) (viewKeyOf : SubaddressIndex → PublicKey)
    (laws : Laws C D S) (hagree : Agreement D S W viewKeyOf) (order : PayloadOrder) (carrier : Hash)
    (p : AssetTransactionPayload Key) (hcreate : order.create C D S coins carrier = .ok p)
    (hbinding : Binding D S W C (order.outputs C S coins)) (tx : Transaction) (b : List UInt8)
    (hencode : encodeAssetTransactionPayload C p = .ok b)
    (hattached : getMonzeroAssetTxExtra tx.extra = .ok (some b)) (version height : ℕ)
    (q : AssetTransactionPayload Key)
    (hparse : parseNativeAssetTransaction C H tx.toTransactionPrefix version W.nettype =
      .ok (some q))
    (t t' : AssetTables Key) (ids : List Hash)
    (happly : applyAssetTransactionToDb C t q W.nettype q.carrierPrefixHash height = (.ok ids, t'))
    (txid : Hash) (transfers : List AssetTransferDetails) :
    (∀ o ∈ order.outputs C S coins, OwnAddress W viewKeyOf o.address o.isSubaddress →
      isAddressed D S W o = true) ∧
    ∃ found, List.Forall₂ (Records C W p ids t' txid height)
        ((order.outputs C S coins).zipIdx.filter (isWanted D S W)) found ∧
      scanAssetOutputs C H D W txid tx height version false transfers =
        p.ownershipProofs.foldl (fun transfers proof => markSpent height proof.keyImage transfers)
          transfers ++ found.filter (isNew transfers) := by
  obtain ⟨assetId, made, hbuilt⟩ := built_of_create laws hcreate
  obtain ⟨rfl, hactive⟩ := attached_decodes hbuilt hencode hattached hparse
  have hmade : List.Forall₂ (fun e m => makeAssetRecipientDataWithMask C D S e.1 e.2 = .ok m)
      (order.outputs C S coins).zipIdx made := (mapAll_eq_ok ..).mp hbuilt.outputs
  obtain ⟨issued, hprep, ⟨-, -, hfresh⟩, hadded⟩ := apply_eq_ok.mp happly
  obtain ⟨registry, -, -, hids⟩ := (prepare_eq_ok ..).mp hprep
  rw [candidateIds_eq_ok] at hids
  have houtputs : payloadOutputs (withKeyImages p) = made.map (outputOf assetId) :=
    hbuilt.payloadOutputs_eq
  rw [houtputs] at hids
  have hpoints := hbuilt.sendable (hids.imp fun e id h => h.1)
  have hsent : List.Forall₂ (fun e m => makeAssetRecipientDataWithMask C D S e.1 e.2 = .ok m ∧
      Sendable C m) (order.outputs C S coins).zipIdx made := by
    refine forall₂_iff_zip.mpr ⟨hmade.length_eq, fun {e m} hmem => ?_⟩
    exact ⟨(forall₂_iff_zip.mp hmade).2 hmem, hpoints m (of_mem_zip hmem).2⟩
  have hnumbered : List.Forall₂ (fun e id =>
      deriveAssetOutputId C W.nettype (withKeyImages p).carrierPrefixHash e.1 e.2 = .ok id ∧
        (id, e) ∈ ids.zip (made.map (outputOf assetId)).zipIdx)
      (made.map (outputOf assetId)).zipIdx ids := by
    refine forall₂_iff_zip.mpr ⟨hids.length_eq, fun {e id} hmem => ?_⟩
    refine ⟨((forall₂_iff_zip.mp hids).2 hmem).1, ?_⟩
    rw [← zip_swap]
    exact mem_map.mpr ⟨(e, id), hmem, rfl⟩
  have hnodup : ids.Nodup := by
    have hkeys : (outputRows (withKeyImages p) height ids).map Row.key = ids := by
      rw [outputRows, houtputs, map_map]
      exact map_fst_zip hids.length_eq.ge
    rw [← hkeys]
    exact hfresh.2
  obtain ⟨found, hfound, -, hscan⟩ :=
    receive_all laws hbinding txid height 0 (fun e he => he) hsent hnumbered hnodup
  refine ⟨?_, found, ?_, ?_⟩
  · intro o ho hown
    obtain ⟨i, hi, rfl⟩ := mem_iff_getElem.mp ho
    have hmem := mk_mem_zipIdx_iff_getElem?.mpr (List.getElem?_eq_some_iff.mpr ⟨hi, rfl⟩)
    obtain ⟨m, -, hm⟩ := forall₂_zip_partner hmade hmem
    obtain ⟨secret, hm⟩ := made_of_ok hm
    exact isAddressed_of_own hagree hm.txKey hown
  · exact hfound.imp fun e td h => records_of_received hbuilt hadded.outputs h
  · rw [scanAssetOutputs, if_neg (by simpa using hactive), hparse]
    show scanPayload C D W txid height (withKeyImages p) transfers = _
    rw [scanPayload, houtputs, hscan, isNew_marked, withKeyImages, foldl_map]

/-- Keys as numbers, with multiplication for the group. -/
def productDerivations : Derivations :=
  { sumDerivations with h2d := fun key => UInt64.ofNat (leValue key.bytes) }

def productSender : SenderPrimitives where
  scCheck _ := true
  scAdd a b := keyOfNat (leValue a.bytes + leValue b.bytes)
  scSub a b := keyOfNat (leValue a.bytes + 2 ^ 255 - leValue b.bytes)
  secretKeyToPublicKey secret := some secret
  scalarmultKey key secret := .ok (keyOfNat (leValue key.bytes * leValue secret.bytes))
  scalarmultBase key := key
  d2h amount := keyOfNat amount.toNat
  ecdhEncode tuple _ := tuple
  bulletproofPlusProve amounts masks :=
    if amounts.length ≤ 16 then .ok (rangeProof (List.zipWith toy.commit amounts masks))
    else .error "too many amounts"
  proveRctCLSAGSimple _ _ ring secret _ _ _ :=
    .ok { s := ring.map CtKey.dest, c1 := Blob.zero 32, I := secret.dest, D := Blob.zero 32 }

def sampleCoins : Coins where
  mask i := keyOfNat (100 + i)
  pseudoMask i := keyOfNat (200 + i)
  txSecret i := keyOfNat (7 + i)

/-- A wallet with view secret key 3, its standard address and one subaddress. -/
def productWallet : Wallet :=
  { sumWallet with
    viewSecretKey := keyOfNat 3
    subaddresses := [(keyOfNat 12, ⟨0, 0⟩), (keyOfNat 40, ⟨0, 1⟩)] }

def productViewKey (index : SubaddressIndex) : PublicKey :=
  if index = ⟨0, 0⟩ then keyOfNat 3 else keyOfNat 120

theorem product_laws : Laws toy productDerivations productSender where
  opening _ _ _ _ := rfl
  amount amount := by
    show UInt64.ofNat (leValue (leBytes 32 amount.toNat)) = amount
    rw [leValue_leBytes, Nat.mod_eq_of_lt (by have := amount.toNat_lt; omega), UInt64.ofNat_toNat]
  point _ _ := rfl
  proved amounts masks proof h := by
    simp only [productSender] at h
    split at h
    · cases h
      refine ⟨?_, Nat.succ_le_succ (Nat.zero_le 15), cons_ne_nil _ _, rfl⟩
      show (List.zipWith toy.commit amounts masks).length ≤ 16
      rw [length_zipWith]
      omega
    · cases h

theorem product_agreement :
    Agreement productDerivations productSender productWallet productViewKey := by
  rintro ⟨addr, isSub, secret, amt, mask⟩ ⟨ent, hent, haddress, hflag⟩ txPublicKey hkey
  have hthree : leValue (keyOfNat 3).bytes = 3 := by decide +kernel
  have hforty : leValue (keyOfNat 40).bytes = 40 := by decide +kernel
  have hview : leValue (keyOfNat 120).bytes = 120 := by decide +kernel
  subst haddress
  simp only [productWallet, mem_cons, not_mem_nil, or_false] at hent
  rcases hent with rfl | rfl
  · have hstandard : isSub = false := by
      rw [← Bool.not_eq_true, hflag]
      simp
    subst hstandard
    obtain rfl : secret = txPublicKey := Except.ok.inj hkey
    simp only [productDerivations, sumDerivations, productWallet, productViewKey, if_true, hthree,
      Nat.mul_comm]
  · have hsub : isSub = true := hflag.mpr (by decide)
    subst hsub
    obtain rfl : keyOfNat (leValue (keyOfNat 40).bytes * leValue secret.bytes) = txPublicKey :=
      Except.ok.inj hkey
    have hproduct : leValue (keyOfNat (40 * leValue secret.bytes)).bytes =
        40 * leValue secret.bytes % 256 ^ 32 := leValue_leBytes 32
    have hsame : 40 * leValue secret.bytes % 256 ^ 32 * 3 % 2 ^ 64 =
        120 * leValue secret.bytes % 2 ^ 64 := by omega
    have hidx : (⟨0, 1⟩ : SubaddressIndex) ≠ ⟨0, 0⟩ := by decide
    simp only [productDerivations, sumDerivations, productWallet, productViewKey, if_neg hidx,
      hthree, hforty, hview, hproduct, hsame]

/-- An issuance to the subaddress. -/
def sampleOrder : PayloadOrder :=
  .issuance (signedIssuance sampleCollection) ⟨keyOfNat 40, keyOfNat 120⟩ true

def sampleAttached : Except String (TransactionPrefix × AssetTransactionPayload Key) :=
  attachIssuanceToNativeTransaction toy productDerivations productSender sampleCoins toyHashes
    (nativeTx 1 []).toTransactionPrefix (signedIssuance sampleCollection)
    ⟨keyOfNat 40, keyOfNat 120⟩ true

/-- The payload that a node with empty tables reads from a transaction, if it can apply it. -/
def sampleApplied (tx : TransactionPrefix) : Option (AssetTransactionPayload Key) :=
  match parseNativeAssetTransaction toy toyHashes tx hfVersionMonzeroAssets .mainnet with
  | .ok (some q) =>
      match applyAssetTransactionToDb toy .empty q .mainnet q.carrierPrefixHash 1 with
      | (.ok _, _) => some q
      | _ => none
  | _ => none

theorem exists_of_sampleApplied (h : sampleApplied tx = some q) :
    parseNativeAssetTransaction toy toyHashes tx hfVersionMonzeroAssets .mainnet = .ok (some q) ∧
      ∃ ids t', applyAssetTransactionToDb toy .empty q .mainnet q.carrierPrefixHash 1 =
        (.ok ids, t') := by
  unfold sampleApplied at h
  split at h
  · rename_i hprs
    split at h
    · rename_i ids t' happly
      cases h
      exact ⟨hprs, ids, t', happly⟩
    · cases h
  · cases h

theorem sample_binding : Binding productDerivations productSender productWallet toy
    (sampleOrder.outputs toy productSender sampleCoins) := by
  have hfacts : ∀ e ∈ (sampleOrder.outputs toy productSender sampleCoins).zipIdx,
      walletSecret productDerivations productSender productWallet e.1 =
        senderSecret productDerivations e.1 ∧
      ∀ ent ∈ productWallet.subaddresses,
        ((senderSecret productDerivations e.1).bind fun sent =>
          productDerivations.derivePublicKey sent e.2 ent.1) =
        ((senderSecret productDerivations e.1).bind fun sent =>
          productDerivations.derivePublicKey sent e.2 e.1.address.spendPublicKey) →
        ent.1 = e.1.address.spendPublicKey := by
    decide +kernel
  refine ⟨?_, ?_⟩
  · intro e he own sent hown hsent _
    rw [(hfacts e he).1, hsent] at hown
    exact (Option.some.inj hown).symm
  · intro e he ent hent sent key hsent hkey hkey'
    refine (hfacts e he).2 ent hent ?_
    rw [hsent, Option.bind_some, Option.bind_some, hkey, hkey']

theorem sent_assets_found_issue :
    ∃ tx p q ids t' e td, sampleAttached = .ok (tx, p) ∧
      applyAssetTransactionToDb toy .empty q .mainnet q.carrierPrefixHash 1 = (.ok ids, t') ∧
      scanAssetOutputs toy toyHashes productDerivations productWallet (keyOfNat 60)
        { tx with signatures := [] } 1 hfVersionMonzeroAssets false [] = [td] ∧
      Records toy productWallet p ids t' (keyOfNat 60) 1 e td := by
  have hfacts : ((sampleAttached.toOption.bind fun r => sampleApplied r.1).isSome = true ∧
      (sampleAttached.toOption.map fun r => r.2.ownershipProofs) = some []) ∧
      ((sampleOrder.outputs toy productSender sampleCoins).zipIdx.filter
        (isWanted productDerivations productSender productWallet)).length = 1 := by
    decide +kernel
  obtain ⟨⟨happlied, hproofs⟩, hlength⟩ := hfacts
  cases hattach : sampleAttached with
  | error message =>
    rw [hattach] at happlied
    cases happlied
  | ok result =>
    obtain ⟨tx, p⟩ := result
    rw [hattach] at happlied hproofs
    obtain ⟨q, hq⟩ := Option.isSome_iff_exists.mp happlied
    obtain ⟨hparse, ids, t', happly⟩ := exists_of_sampleApplied hq
    obtain ⟨⟨carrier, hcreate⟩, b, hencode, henvelope⟩ :=
      attached_of_attachIssuance hattach endsCutOff_nil
    obtain ⟨-, found, hfound, hscan⟩ := sent_assets_found toy toyHashes productDerivations
      productSender sampleCoins productWallet productViewKey product_laws product_agreement
      sampleOrder carrier p hcreate sample_binding { tx with signatures := [] } b hencode henvelope
      hfVersionMonzeroAssets 1 q hparse .empty t' ids happly (keyOfNat 60) []
    obtain ⟨e, he⟩ := length_eq_one_iff.mp hlength
    rw [he] at hfound
    cases hfound with
    | @cons _ td _ rest hrecord hrest =>
      cases hrest
      have hnone : p.ownershipProofs = [] := Option.some.inj hproofs
      rw [hnone] at hscan
      exact ⟨tx, p, q, ids, t', e, td, rfl, happly, hscan, hrecord⟩

end Monzero.SentAssets
