import Monzero.MergeMining
import Monzero.TxExtraRoundTrip

/-!
What other chains find in the tag of a merge-mined block. The tag is written with a depth
of zero, which decodes to one chain and the nonce zero. So it can only be verified for a
single auxiliary chain. A template whose extra field ends in padding is worse off: the
tag stands after the padding, and the extra field cannot be read any more.
-/
namespace Monzero.MergeMiningTag

open Bytes Checked Primitives TxExtra TxExtraCodec TxExtraRoundTrip TxMemoryPool MergeMining List
open ToyCrypto (keyOfNat)

def firstTag (fields : List TxExtraField) : Option (ℕ × Hash) :=
  fields.findSome? fun
    | .mergeMiningTag depth root => some (depth, root)
    | _ => none

def mergeMiningTag (extra : List UInt8) : Option (ℕ × Hash) := (parseTxExtra extra).bind firstTag

/-- Every auxiliary chain can verify its hash with the tag of the block. -/
def Verifies (E : AuxEnv) (auxPow : List (Hash × Hash)) (b : Block) : Prop :=
  ∃ depth root, mergeMiningTag b.minerTx.extra = some (depth, root) ∧
    ∃ n nonce, decodeMmDepth (UInt32.ofNat depth) = (n, nonce) ∧ n.toNat = auxPow.length ∧
      (auxPow.map fun entry => getAuxSlot E entry.1 nonce n).Nodup ∧
      ∀ entry ∈ auxPow, ∃ slot path branch, getAuxSlot E entry.1 nonce n = some slot ∧
        getPathFromAuxSlot slot n = some path ∧ treeBranchHash E entry.2 branch path = root

theorem written_tag (root : Hash) :
    writeField (.mergeMiningTag 0 root) = 0x03 :: 33 :: UInt8.ofNat 0 :: root.bytes := by
  have hlen : (writeVarint 0 ++ root.bytes).length = 33 := by
    rw [length_append, root.size_eq]
    rfl
  rw [writeField, writeString, hlen]
  rfl

/-- The fields that stay in an extra field when the tags are removed. -/
def untagged (fields : List TxExtraField) : List TxExtraField :=
  fields.filter fun field => !isMergeMiningTag field

theorem firstTag_untagged (fs later : List TxExtraField) :
    firstTag (untagged fs ++ later) = firstTag later := by
  rw [firstTag, findSome?_append, findSome?_eq_none_iff.mpr]
  · rfl
  · intro f hf
    have htag := (mem_filter.mp hf).2
    cases f with
    | mergeMiningTag depth root => cases htag
    | _ => rfl

theorem readField_padded (size : ℕ) (t : List UInt8) (ht : ∃ b ∈ t, b ≠ 0) :
    readField (writeField (.padding size) ++ t) = none := by
  obtain ⟨b, hb, hne⟩ := ht
  rw [writeField, cons_append, readField, if_pos rfl, if_neg]
  rintro ⟨hall, _⟩
  have hzero := all_eq_true.mp hall b (mem_append_right _ hb)
  exact hne (of_decide_eq_true hzero)

def isPadding : TxExtraField → Bool
  | .padding _ => true
  | _ => false

theorem mergeMiningTag_appended {extra : List UInt8} {fs : List TxExtraField} (root : Hash)
    (hfields : parseTxExtra extra = some fs) :
    mergeMiningTag ((untagged fs).flatMap writeField ++ writeField (.mergeMiningTag 0 root)) =
      if fs.any isPadding then none else some (0, root) := by
  have htag : Writable (.mergeMiningTag 0 root) := by
    change 0 < 2 ^ 64
    norm_num
  rcases parsed_writable (parsed_of_parseTxExtra hfields) with hall | ⟨front, size, rfl, hfront⟩
  · have hprs : Parsed (writeField (.mergeMiningTag 0 root)) [.mergeMiningTag 0 root] := by
      have hread := readField_written [] htag
      rw [append_nil] at hread
      exact .cons hread .nil
    have hkept : ∀ f ∈ untagged fs, Writable f :=
      fun f hf => hall f (mem_of_mem_filter hf)
    rw [mergeMiningTag, parseTxExtra_of_parsed (parsed_written_append hkept hprs),
      Option.bind_some, firstTag_untagged, if_neg]
    · rfl
    · intro hany
      obtain ⟨f, hf, hpad⟩ := any_eq_true.mp hany
      cases f with
      | padding size => exact hall _ hf
      | _ => cases hpad
  · have hkept : ∀ f ∈ untagged front, Writable f :=
      fun f hf => hfront f (mem_of_mem_filter hf)
    rw [if_pos (by simp [isPadding]), mergeMiningTag, Option.bind_eq_none_iff]
    intro found hfound
    have hprs := parsed_of_parseTxExtra hfound
    have hsplit : untagged (front ++ [.padding size]) = untagged front ++ [.padding size] := by
      rw [untagged, filter_append]
      rfl
    rw [hsplit, flatMap_append, append_assoc, flatMap_singleton] at hprs
    obtain ⟨later, -, hlater⟩ := parsed_front hkept hprs
    have hnone := readField_padded size (writeField (.mergeMiningTag 0 root))
      ⟨0x03, by simp [writeField], by decide⟩
    generalize hs : writeField (.padding size) ++ writeField (.mergeMiningTag 0 root) = s
      at hlater hnone
    cases hlater with
    | nil => simp [writeField] at hs
    | cons read _ =>
      rw [hnone] at read
      cases read

theorem extra_of_accepted {E : AuxEnv} {req : AddAuxPowRequest} {res : AddAuxPowResponse}
    {auxPow : List (Hash × Hash)} {blob : List UInt8} {b : Block} {fs : List TxExtraField}
    (h : onAddAuxPow E req = .ok res) (hentries : parseAuxPow req.auxPow = .ok auxPow)
    (hblob : fromHex req.blocktemplateBlob = some blob) (hblk : E.parseBlock blob = some b)
    (hfields : parseTxExtra b.minerTx.extra = some fs) :
    res.block.minerTx.extra = (untagged fs).flatMap writeField ++
      writeField (.mergeMiningTag 0 (treeHash E (auxPow.map Prod.snd))) := by
  have hrem : removeMergeMiningTags b.minerTx.extra =
      some ((untagged fs).flatMap writeField) := by
    rw [removeMergeMiningTags, hfields]
    rfl
  simp only [onAddAuxPow, bind_eq_ok, exists_unit, hentries, hblob, hblk, hrem,
    addMmMerkleRootToTxExtra, Except.ok.injEq] at h
  obtain ⟨-, -, _, rfl, nonce, -, h⟩ := h
  rw [written_tag]
  split at h
  · cases h
  · cases h
    rfl

theorem decodeMmDepth_zero : decodeMmDepth (UInt32.ofNat 0) = (1, 0) := by decide

theorem getAuxSlot_one (E : AuxEnv) {id : Hash} (nonce : UInt32) :
    getAuxSlot E id nonce 1 = some 0 := by
  have hmod : ∀ x : UInt32, x % 1 = 0 := fun x =>
    UInt32.toNat_inj.mp (by rw [UInt32.toNat_mod]; exact Nat.mod_one _)
  rw [getAuxSlot, if_neg (by decide)]
  exact congrArg some (hmod _)

/-- A request is answered with a block that its chains can verify exactly when it names one chain
and the extra field of its template has no padding. -/
theorem merge_mining_verifies_iff (E : AuxEnv) (req : AddAuxPowRequest) (res : AddAuxPowResponse)
    (auxPow : List (Hash × Hash)) (blob : List UInt8) (b : Block) (fields : List TxExtraField)
    (haccepted : onAddAuxPow E req = .ok res) (hentries : parseAuxPow req.auxPow = .ok auxPow)
    (hblob : fromHex req.blocktemplateBlob = some blob) (hblock : E.parseBlock blob = some b)
    (hfields : parseTxExtra b.minerTx.extra = some fields) :
    Verifies E auxPow res.block ↔ auxPow.length = 1 ∧ fields.any isPadding = false := by
  have hextra := extra_of_accepted haccepted hentries hblob hblock hfields
  have htag : mergeMiningTag res.block.minerTx.extra = _ :=
    hextra ▸ mergeMiningTag_appended (treeHash E (auxPow.map Prod.snd)) hfields
  constructor
  · rintro ⟨depth, root, hstored, n, nonce, hdecoded, hlength, -⟩
    rw [htag] at hstored
    split at hstored
    · cases hstored
    · rename_i hpad
      cases hstored
      rw [decodeMmDepth_zero] at hdecoded
      cases hdecoded
      exact ⟨hlength.symm, by simpa using hpad⟩
  · rintro ⟨hone, hpad⟩
    obtain ⟨entry, rfl⟩ := length_eq_one_iff.mp hone
    rw [hpad] at htag
    refine ⟨0, _, htag, 1, 0, decodeMmDepth_zero, rfl, nodup_singleton _, ?_⟩
    intro other hother
    obtain rfl := mem_singleton.mp hother
    exact ⟨0, 0, [], getAuxSlot_one E 0, by decide, rfl⟩

/-- Hashes that keep the first bytes. -/
def prefixEnv (extra : List UInt8) : AuxEnv where
  sha256 s := keyOfNat (leValue (s.take 32))
  fastHash s := keyOfNat (leValue (s.take 32))
  parseBlock _ := some ⟨⟨⟨0, [], extra, []⟩, []⟩, [], []⟩

/-- A hash in hexadecimal digits that starts with a digit. -/
def hexOf (c : Char) : List Char := '0' :: c :: List.replicate 62 '0'

theorem merge_mining_one_chain :
    ∃ res, onAddAuxPow (prefixEnv []) ⟨[(hexOf '5', hexOf '7')], [], true⟩ = .ok res ∧
      Verifies (prefixEnv []) [(keyOfNat 5, keyOfNat 7)] res.block := by
  refine ⟨⟨keyOfNat 7, 0,
    ⟨⟨⟨0, [], 0x03 :: 33 :: 0 :: (keyOfNat 7).bytes, []⟩, []⟩, [], []⟩⟩, ?_, ?_⟩
  · decide +kernel
  · refine (merge_mining_verifies_iff (prefixEnv []) ⟨[(hexOf '5', hexOf '7')], [], true⟩ _ _ [] _
      [] ?_ ?_ rfl rfl rfl).mpr ⟨rfl, rfl⟩
    · decide +kernel
    · decide +kernel

/-- Two chains are accepted, in different slots, and cannot verify their hashes. -/
theorem merge_mining_two_chains :
    ∃ res, onAddAuxPow (prefixEnv [])
        ⟨[(hexOf '4', hexOf '7'), (hexOf '5', hexOf '8')], [], true⟩ = .ok res ∧
      ¬ Verifies (prefixEnv []) [(keyOfNat 4, keyOfNat 7),
        (keyOfNat 5, keyOfNat 8)] res.block := by
  refine ⟨⟨keyOfNat 7, 8,
    ⟨⟨⟨0, [], 0x03 :: 33 :: 0 :: (keyOfNat 7).bytes, []⟩, []⟩, [], []⟩⟩, ?_, ?_⟩
  · decide +kernel
  · rintro ⟨depth, root, htag, n, nonce, hdecoded, hlength, -⟩
    have hstored : mergeMiningTag (0x03 :: 33 :: 0 :: (keyOfNat 7).bytes) =
      some (0, keyOfNat 7) := by decide +kernel
    rw [hstored] at htag
    cases htag
    rw [decodeMmDepth_zero] at hdecoded
    cases hdecoded
    cases hlength

end Monzero.MergeMiningTag
