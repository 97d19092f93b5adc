import Monzero.Base58
import Monzero.AssetBuilders
import Monzero.AssetRpc
import Monzero.TxExtraRoundTrip

/-!
Addresses as text. The tag of a network and kind, the keys and a checksum are written in
base 58. Reading such a text undoes writing it, and it accepts no other text for an
address. A text of the length of the old format is read as hexadecimal instead.
-/
namespace Monzero.AddressText

open Bytes Primitives TxExtra TxExtraCodec TxExtraRoundTrip AssetBuilders AssetRpc Base58 List
  ToyCrypto
open Option (bind_eq_bind bind_eq_some_iff bind_some some)

variable {K : Type}

/-- The prefixes of `config_t`. -/
structure AddressPrefixes where
  address : ℕ
  integratedAddress : ℕ
  subaddress : ℕ

/-- `get_config`; the regression network runs on the main configuration. -/
def getConfig : NetworkType → Except String AddressPrefixes
  | .mainnet | .fakechain => .ok ⟨86, 87, 88⟩
  | .testnet => .ok ⟨111, 112, 113⟩
  | .stagenet => .ok ⟨131, 132, 133⟩
  | .undefined => .error "Invalid network type"

def addrChecksumSize : ℕ := 4

/-- The checksum of an address: the first bytes of the hash. -/
def addrChecksum (C : Crypto K) (buf : List UInt8) : List UInt8 :=
  (C.cnFastHash buf).bytes.take addrChecksumSize

def encodeAddr (C : Crypto K) (tag : ℕ) (data : List UInt8) : List UInt8 :=
  let buf := writeVarint tag ++ data
  encode (buf ++ addrChecksum C buf)

def decodeAddr (C : Crypto K) (addr : List UInt8) : Option (ℕ × List UInt8) := do
  let addrData ← decode addr
  if addrData.length ≤ addrChecksumSize then none
  else
    let checksum := addrData.drop (addrData.length - addrChecksumSize)
    let addrData := addrData.take (addrData.length - addrChecksumSize)
    if addrChecksum C addrData ≠ checksum then none
    else readVarint addrData

/-- `t_serializable_object_to_blob` of an `account_public_address`. -/
def writeAddress (address : AccountPublicAddress) : List UInt8 :=
  address.spendPublicKey.bytes ++ address.viewPublicKey.bytes

def readAddress (s : List UInt8) : Option (AccountPublicAddress × List UInt8) := do
  let (spendPublicKey, rest) ← readBlob 32 s
  let (viewPublicKey, rest) ← readBlob 32 rest
  return (⟨spendPublicKey, viewPublicKey⟩, rest)

/-- `integrated_address`: the keys and the `hash8` of a payment. -/
def readIntegratedAddress (s : List UInt8) :
    Option ((AccountPublicAddress × Blob 8) × List UInt8) := do
  let (address, rest) ← readAddress s
  let (paymentId, rest) ← readBlob 8 rest
  return ((address, paymentId), rest)

/-- `serialization::parse_binary`, which wants the whole input. -/
def parseBinary {α : Type} (read : List UInt8 → Option (α × List UInt8)) (s : List UInt8) :
    Option α := do
  let (value, rest) ← read s
  if rest = [] then some value else none

def getAccountAddressAsStr (C : Crypto K) (nettype : NetworkType) (subaddress : Bool)
    (adr : AccountPublicAddress) : Except String (List UInt8) := do
  let config ← getConfig nettype
  let addressPrefix := if subaddress then config.subaddress else config.address
  return encodeAddr C addressPrefix (writeAddress adr)

def getAccountIntegratedAddressAsStr (C : Crypto K) (nettype : NetworkType)
    (adr : AccountPublicAddress) (paymentId : Blob 8) : Except String (List UInt8) := do
  let config ← getConfig nettype
  return encodeAddr C config.integratedAddress (writeAddress adr ++ paymentId.bytes)

structure AddressParseInfo where
  address : AccountPublicAddress
  isSubaddress : Bool
  hasPaymentId : Bool
  paymentId : Blob 8
deriving DecidableEq

/-- `is_subaddress` and `has_payment_id` by the prefix; `none` for a wrong one. -/
def kindOfPrefix (config : AddressPrefixes) (addressPrefix : ℕ) : Option (Bool × Bool) :=
  if config.integratedAddress = addressPrefix then some (false, true)
  else if config.address = addressPrefix then some (false, false)
  else if config.subaddress = addressPrefix then some (true, false)
  else none

/-- Both keys are points. -/
def checkKeys (C : Crypto K) (address : AccountPublicAddress) : Bool :=
  C.checkKey address.spendPublicKey && C.checkKey address.viewPublicKey

/-- The base 58 branch of `get_account_address_from_str`. Without a payment id that field of
`info` is left as it was. -/
def parseBase58 (C : Crypto K) (config : AddressPrefixes) (info : AddressParseInfo)
    (str : List UInt8) : Option AddressParseInfo := do
  let (addressPrefix, data) ← decodeAddr C str
  let (isSubaddress, hasPaymentId) ← kindOfPrefix config addressPrefix
  let (address, paymentId) ← (if hasPaymentId then parseBinary readIntegratedAddress data
    else (parseBinary readAddress data).map (·, info.paymentId))
  if checkKeys C address = false then none
  else some ⟨address, isSubaddress, hasPaymentId, paymentId⟩

/-- `sizeof(public_address_outer_blob)`: a version, the keys and a checksum. -/
def outerBlobSize : ℕ := 66

def publicAddressTextblobVer : UInt8 := 0

def getAccountAddressChecksum (blob : List UInt8) : UInt8 :=
  (blob.take (outerBlobSize - 1)).foldl (· + ·) 0

/-- The old format; its keys are not checked. -/
def parseOldFormat (info : AddressParseInfo) (str : List UInt8) : Option AddressParseInfo := do
  let buff ← readHex str
  if buff.length ≠ outerBlobSize then none
  else
    let (version, rest) ← readBlob 1 buff
    let (address, checkSum) ← readAddress rest
    if version.bytes.headD 0 > publicAddressTextblobVer then none
    else if checkSum.headD 0 ≠ getAccountAddressChecksum buff then none
    else some { info with address := address, isSubaddress := false, hasPaymentId := false }

/-- `get_account_address_from_str`: `none` for `false`, an error for what it throws. -/
def getAccountAddressFromStr (C : Crypto K) (info : AddressParseInfo) (nettype : NetworkType)
    (str : List UInt8) : Except String (Option AddressParseInfo) := do
  let config ← getConfig nettype
  if 2 * outerBlobSize ≠ str.length then return parseBase58 C config info str
  else return parseOldFormat info str

/-! ### Tagged data -/

variable (data : List UInt8) (address : AccountPublicAddress) (C : Crypto K)
  {config : AddressPrefixes} {nt : NetworkType}

theorem length_addrChecksum (buf : List UInt8) :
    (addrChecksum C buf).length = addrChecksumSize := by
  rw [addrChecksum, length_take, Blob.size_eq]
  rfl

theorem writeVarint_ne_nil (n : ℕ) : writeVarint n ≠ [] := by
  rw [writeVarint, writeVarintBytes]
  split <;> simp

theorem decodeAddr_encodeAddr {tag : ℕ} (htag : tag < 2 ^ 64) {data : List UInt8} :
    decodeAddr C (encodeAddr C tag data) = some (tag, data) := by
  obtain ⟨buf, hbuf⟩ : ∃ buf, writeVarint tag ++ data = buf := ⟨_, rfl⟩
  have hdec := (decode_eq_some_iff (buf ++ addrChecksum C buf)).mpr rfl
  have hpos : 0 < buf.length := by
    rw [← hbuf, length_append]
    exact Nat.add_pos_left (length_pos_iff.mpr (writeVarint_ne_nil tag)) _
  have hlen : (buf ++ addrChecksum C buf).length - addrChecksumSize = buf.length := by
    rw [length_append, length_addrChecksum, Nat.add_sub_cancel]
  have hlong : ¬(buf ++ addrChecksum C buf).length ≤ addrChecksumSize := by
    rw [length_append, length_addrChecksum]
    omega
  rw [decodeAddr, encodeAddr, hbuf, hdec]
  simp only [bind_eq_bind, bind_some, if_neg hlong, hlen, take_left,
    drop_left, ne_eq, not_true_eq_false, ↓reduceIte]
  rw [← hbuf]
  exact readVarint_written tag data htag

/-- A text that decodes is the one its tag and data are written as. The exception is a tag
that the text breaks off in, after which no data is left. -/
theorem decodeAddr_eq_some {C : Crypto K} {addr data : List UInt8} {tag : ℕ}
    (h : decodeAddr C addr = some (tag, data)) : addr = encodeAddr C tag data ∨ data = [] := by
  simp only [decodeAddr, bind_eq_bind, bind_eq_some_iff] at h
  obtain ⟨addrData, hdec, h⟩ := h
  split at h
  · cases h
  · split at h
    · cases h
    · rename_i hlong hsum
      rw [ne_eq, not_not] at hsum
      have hsplit := take_append_drop (addrData.length - addrChecksumSize) addrData
      rw [← hsum] at hsplit
      rcases readVarint_spec _ data h with hbuf | ⟨hdata, -⟩
      · left
        rw [(decode_eq_some_iff _).mp hdec, encodeAddr, ← hbuf, hsplit]
      · exact Or.inr hdata

/-! ### The keys -/

theorem readAddress_eq_some_iff {s rest : List UInt8} {addr : AccountPublicAddress} :
    readAddress s = some (addr, rest) ↔ s = writeAddress addr ++ rest := by
  constructor
  · intro h
    simp only [readAddress, bind_eq_bind, bind_eq_some_iff, Prod.exists,
      Option.pure_def, some.injEq, Prod.mk.injEq] at h
    obtain ⟨spend, s₁, hspend, view, s₂, hview, rfl, rfl⟩ := h
    rw [readBlob_spec _ _ _ _ hspend, readBlob_spec _ _ _ _ hview, writeAddress, append_assoc]
  · rintro rfl
    rw [readAddress, writeAddress, append_assoc, readBlob_written]
    simp only [bind_eq_bind, bind_some, readBlob_written]
    rfl

theorem readIntegratedAddress_eq_some_iff (s rest : List UInt8)
    (addr : AccountPublicAddress) (pid : Blob 8) :
    readIntegratedAddress s = some ((addr, pid), rest) ↔
      s = writeAddress addr ++ pid.bytes ++ rest := by
  constructor
  · intro h
    simp only [readIntegratedAddress, bind_eq_bind, bind_eq_some_iff, Prod.exists,
      Option.pure_def, some.injEq, Prod.mk.injEq] at h
    obtain ⟨addr, s₁, haddress, pid, s₂, hpayment, ⟨rfl, rfl⟩, rfl⟩ := h
    rw [readAddress_eq_some_iff.mp haddress, readBlob_spec _ _ _ _ hpayment, append_assoc]
  · rintro rfl
    rw [readIntegratedAddress, append_assoc, readAddress_eq_some_iff.mpr rfl]
    simp only [bind_eq_bind, bind_some, readBlob_written]
    rfl

theorem parseBinary_eq_some_iff {α : Type} (read : List UInt8 → Option (α × List UInt8))
    (s : List UInt8) (value : α) : parseBinary read s = some value ↔ read s = some (value, []) := by
  simp only [parseBinary, bind_eq_bind, bind_eq_some_iff, Prod.exists]
  constructor
  · rintro ⟨found, rest, hread, h⟩
    split at h
    · rename_i hrest
      rw [hread, hrest, some.inj h]
    · cases h
  · intro h
    exact ⟨value, [], h, if_pos rfl⟩

theorem parse_address_iff :
    parseBinary readAddress data = some address ↔ data = writeAddress address := by
  rw [parseBinary_eq_some_iff, readAddress_eq_some_iff, append_nil]

theorem parse_integrated_iff (pid : Blob 8) :
    parseBinary readIntegratedAddress data = some (address, pid) ↔
      data = writeAddress address ++ pid.bytes := by
  rw [parseBinary_eq_some_iff, readIntegratedAddress_eq_some_iff, append_nil]

/-! ### Parsed addresses -/

/-- The tag and the data that a parsed address is written with. -/
def tagOf (config : AddressPrefixes) (info : AddressParseInfo) : ℕ :=
  if info.hasPaymentId then config.integratedAddress
  else if info.isSubaddress then config.subaddress
  else config.address

def dataOf (info : AddressParseInfo) : List UInt8 :=
  if info.hasPaymentId then writeAddress info.address ++ info.paymentId.bytes
  else writeAddress info.address

/-- What parsing can leave: an integrated address is no subaddress, the payment id of another
address is what stood there before, and both keys are points. -/
structure Parsed (C : Crypto K) (info result : AddressParseInfo) : Prop where
  integrated : result.hasPaymentId = true → result.isSubaddress = false
  unchanged : result.hasPaymentId = false → result.paymentId = info.paymentId
  keys : checkKeys C result.address = true

/-- The prefixes of a network are pairwise distinct. -/
structure Distinct (config : AddressPrefixes) : Prop where
  address_integrated : config.address ≠ config.integratedAddress
  address_subaddress : config.address ≠ config.subaddress
  integrated_subaddress : config.integratedAddress ≠ config.subaddress

theorem getConfig_distinct (h : getConfig nt = .ok config) : Distinct config := by
  cases nt <;> cases h <;> constructor <;> decide

theorem tagOf_lt (h : getConfig nt = .ok config) (info : AddressParseInfo) :
    tagOf config info < 134 := by
  have hall : config.address < 134 ∧ config.integratedAddress < 134 ∧ config.subaddress < 134 := by
    cases nt <;> cases h <;> decide
  rw [tagOf]
  split
  · exact hall.2.1
  · split
    · exact hall.2.2
    · exact hall.1

theorem kindOfPrefix_tagOf (h : Distinct config) {info : AddressParseInfo}
    (hinfo : info.hasPaymentId = true → info.isSubaddress = false) :
    kindOfPrefix config (tagOf config info) = some (info.isSubaddress, info.hasPaymentId) := by
  rw [kindOfPrefix, tagOf]
  cases hpayment : info.hasPaymentId with
  | true =>
    rw [hinfo hpayment, if_pos rfl, if_pos rfl]
  | false =>
    cases info.isSubaddress with
    | true =>
      simp [↓reduceIte, if_neg h.integrated_subaddress, if_neg h.address_subaddress]
    | false =>
      simp [↓reduceIte, if_neg h.address_integrated.symm]

theorem kindOfPrefix_eq_some {tag : ℕ} {isSub hasPaymentId : Bool}
    (h : kindOfPrefix config tag = some (isSub, hasPaymentId)) :
    (hasPaymentId = true → isSub = false) ∧ ∀ info : AddressParseInfo, info.isSubaddress = isSub →
        info.hasPaymentId = hasPaymentId → tagOf config info = tag := by
  rw [kindOfPrefix] at h
  split at h
  · obtain ⟨rfl, rfl⟩ := Prod.mk.inj (some.inj h)
    refine ⟨fun _ => rfl, fun info _ hpayment => ?_⟩
    rw [tagOf, if_pos hpayment]
    assumption
  · split at h
    · obtain ⟨rfl, rfl⟩ := Prod.mk.inj (some.inj h)
      refine ⟨fun _ => rfl, fun info hsub hpayment => ?_⟩
      rw [tagOf, hpayment, hsub]
      assumption
    · split at h
      · obtain ⟨rfl, rfl⟩ := Prod.mk.inj (some.inj h)
        refine ⟨fun hfalse => absurd hfalse (by decide), fun info hsub hpayment => ?_⟩
        rw [tagOf, hpayment, hsub]
        assumption
      · cases h

theorem parse_data_iff (info res : AddressParseInfo)
    (hres : res.hasPaymentId = false → res.paymentId = info.paymentId) :
    (if res.hasPaymentId = true then parseBinary readIntegratedAddress data
      else (parseBinary readAddress data).map (·, info.paymentId)) =
        some (res.address, res.paymentId) ↔ data = dataOf res := by
  rw [dataOf]
  cases hpayment : res.hasPaymentId with
  | true => simpa using parse_integrated_iff data res.address res.paymentId
  | false => simp [hres hpayment, parse_address_iff]

theorem dataOf_ne_nil {info : AddressParseInfo} : dataOf info ≠ [] := by
  intro h
  have hlen := congrArg List.length h
  rw [dataOf] at hlen
  split at hlen <;> simp [writeAddress] at hlen

/-- The base 58 branch accepts a text exactly when it is the text of what it parses to. -/
theorem parseBase58_eq_some_iff (hconfig : getConfig nt = .ok config)
    (info res : AddressParseInfo) (str : List UInt8) : parseBase58 C config info str = some res ↔
      Parsed C info res ∧ str = encodeAddr C (tagOf config res) (dataOf res) := by
  simp only [parseBase58, bind_eq_bind, bind_eq_some_iff, Prod.exists]
  constructor
  · rintro ⟨tag, data, hdec, isSub, hasPaymentId, hkind, address, pid, hparse, h⟩
    obtain ⟨hintegrated, htag⟩ := kindOfPrefix_eq_some hkind
    split at h
    · cases h
    · rename_i hkeys
      obtain rfl := some.inj h
      have hunchanged : hasPaymentId = false → pid = info.paymentId := by
        rintro rfl
        simp only [Bool.false_eq_true, ↓reduceIte, Option.map_eq_some_iff, Prod.mk.injEq] at hparse
        obtain ⟨_, -, -, hid⟩ := hparse
        exact hid.symm
      obtain rfl := (parse_data_iff data info ⟨address, isSub, hasPaymentId, pid⟩
        hunchanged).mp hparse
      refine ⟨⟨hintegrated, hunchanged, by simpa using hkeys⟩, ?_⟩
      -- A tag that the text breaks off in leaves no keys.
      rcases decodeAddr_eq_some hdec with haddr | hnil
      · rw [haddr, htag _ rfl rfl]
      · exact absurd hnil (dataOf_ne_nil)
  · rintro ⟨hprs, rfl⟩
    have htag := tagOf_lt hconfig res
    exact ⟨_, _, decodeAddr_encodeAddr C (by omega), _, _,
      kindOfPrefix_tagOf (getConfig_distinct hconfig) hprs.integrated, _, _,
      (parse_data_iff _ info res hprs.unchanged).mpr rfl, by rw [if_neg (by simp [hprs.keys])]⟩

theorem length_encodeAddr_ne (hconfig : getConfig nt = .ok config) (res : AddressParseInfo) :
    2 * outerBlobSize ≠ (encodeAddr C (tagOf config res) (dataOf res)).length := by
  have hshort : ∀ tag < 134, (writeVarint tag).length = 1 ∨ (writeVarint tag).length = 2 := by
    decide +kernel
  have hdata : (dataOf res).length = 64 ∨ (dataOf res).length = 72 := by
    rw [dataOf]
    split <;> simp [writeAddress]
  rw [encodeAddr, length_encode, length_append, length_append, length_addrChecksum]
  rcases hshort _ (tagOf_lt hconfig res) with htag | htag <;>
    rcases hdata with hdata | hdata <;> rw [htag, hdata] <;> decide

/-- The text that the two functions give to a parsed address. -/
def addressText (C : Crypto K) (nettype : NetworkType) (info : AddressParseInfo) :
    Except String (List UInt8) :=
  if info.hasPaymentId then getAccountIntegratedAddressAsStr C nettype info.address info.paymentId
  else getAccountAddressAsStr C nettype info.isSubaddress info.address

theorem addressText_eq (hconfig : getConfig nt = .ok config) (info : AddressParseInfo) :
    addressText C nt info = .ok (encodeAddr C (tagOf config info) (dataOf info)) := by
  rw [addressText, tagOf, dataOf, getAccountIntegratedAddressAsStr, getAccountAddressAsStr, hconfig]
  cases info.hasPaymentId <;> rfl

theorem exists_config (h : nt ≠ .undefined) : ∃ config, getConfig nt = .ok config := by
  cases nt <;> first | exact ⟨_, rfl⟩ | exact absurd rfl h

theorem getAccountAddressFromStr_addressText (hnettype : nt ≠ .undefined)
    (info res : AddressParseInfo) (hprs : Parsed C info res) :
    ∃ str, addressText C nt res = .ok str ∧
      getAccountAddressFromStr C info nt str = .ok (some res) := by
  obtain ⟨config, hconfig⟩ := exists_config hnettype
  refine ⟨_, addressText_eq C hconfig res, ?_⟩
  rw [getAccountAddressFromStr, hconfig, Checked.ok_bind,
    if_pos (length_encodeAddr_ne C hconfig res),
    (parseBase58_eq_some_iff C hconfig info res _).mpr ⟨hprs, rfl⟩]
  rfl

theorem addressText_of_parsed {info res : AddressParseInfo} {str : List UInt8}
    (hlen : str.length ≠ 2 * outerBlobSize)
    (h : getAccountAddressFromStr C info nt str = .ok (some res)) :
    Parsed C info res ∧ addressText C nt res = .ok str := by
  rw [getAccountAddressFromStr, Checked.bind_eq_ok] at h
  obtain ⟨config, hconfig, h⟩ := h
  rw [if_pos hlen.symm] at h
  obtain ⟨hprs, rfl⟩ := (parseBase58_eq_some_iff C hconfig info res str).mp (Except.ok.inj h)
  exact ⟨hprs, addressText_eq C hconfig res⟩

/-- Address strings are canonical. Parsing the string of an address with valid keys gives back
the address, its kind and its payment id, on every network that has a configuration; and a
string that the base 58 branch accepts is the one written for what it was parsed to. -/
theorem address_strings_canonical (C : Crypto K) (nettype : NetworkType)
    (info : AddressParseInfo) :
    (∀ config, getConfig nettype = .ok config → Distinct config) ∧
    (∀ address isSubaddress, nettype ≠ .undefined → checkKeys C address = true →
      ∃ str, getAccountAddressAsStr C nettype isSubaddress address = .ok str ∧
        getAccountAddressFromStr C info nettype str =
          .ok (some ⟨address, isSubaddress, false, info.paymentId⟩)) ∧
    (∀ address paymentId, nettype ≠ .undefined → checkKeys C address = true →
      ∃ str, getAccountIntegratedAddressAsStr C nettype address paymentId = .ok str ∧
        getAccountAddressFromStr C info nettype str =
          .ok (some ⟨address, false, true, paymentId⟩)) ∧
    ∀ str result, str.length ≠ 2 * outerBlobSize →
      getAccountAddressFromStr C info nettype str = .ok (some result) →
      Parsed C info result ∧ addressText C nettype result = .ok str := by
  refine ⟨fun config hconfig => getConfig_distinct hconfig, ?_, ?_, ?_⟩
  · intro address isSubaddress hnettype hkeys
    exact getAccountAddressFromStr_addressText C hnettype info
      ⟨address, isSubaddress, false, info.paymentId⟩
      ⟨fun h => Bool.noConfusion h, fun _ => rfl, hkeys⟩
  · intro address paymentId hnettype hkeys
    exact getAccountAddressFromStr_addressText C hnettype info ⟨address, false, true, paymentId⟩
      ⟨fun _ => rfl, fun h => Bool.noConfusion h, hkeys⟩
  · intro str result hlength h
    exact addressText_of_parsed C hlength h

def sampleAddress : AccountPublicAddress := ⟨keyOfNat 1000, keyOfNat 2000⟩

def blankInfo : AddressParseInfo := ⟨⟨keyOfNat 0, keyOfNat 0⟩, false, false, Blob.zero 8⟩

/-- A subaddress of the main network, and an integrated address of the staging network, whose
prefix takes two bytes. -/
theorem address_strings_canonical_sample :
    (∃ str, getAccountAddressAsStr toy .mainnet true sampleAddress = .ok str ∧
      getAccountAddressFromStr toy blankInfo .mainnet str =
        .ok (some ⟨sampleAddress, true, false, Blob.zero 8⟩)) ∧
    ∃ str, (getAccountIntegratedAddressAsStr toy .stagenet sampleAddress ⟨leBytes 8 7, rfl⟩ =
        .ok str ∧ str.length = 108) ∧
      getAccountAddressFromStr toy blankInfo .stagenet str =
        .ok (some ⟨sampleAddress, false, true, ⟨leBytes 8 7, rfl⟩⟩) ∧
      addressText toy .stagenet ⟨sampleAddress, false, true, ⟨leBytes 8 7, rfl⟩⟩ = .ok str := by
  obtain ⟨-, hplain, -, -⟩ := address_strings_canonical toy .mainnet blankInfo
  obtain ⟨-, -, hintegrated, hcanonical⟩ := address_strings_canonical toy .stagenet blankInfo
  refine ⟨hplain sampleAddress true (by decide) rfl, ?_⟩
  obtain ⟨str, hstr, hparse⟩ := hintegrated sampleAddress ⟨leBytes 8 7, rfl⟩ (by decide) rfl
  have hlength : str.length = 108 := by
    obtain rfl := Except.ok.inj hstr
    decide +kernel
  have hshort : str.length ≠ 2 * outerBlobSize := by
    rw [hlength]
    decide
  exact ⟨str, ⟨hstr, hlength⟩, hparse, (hcanonical str _ hshort hparse).2⟩

end Monzero.AddressText
