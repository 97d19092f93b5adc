import Monzero.Blocks
import Monzero.Codec
import Monzero.AssetTypes
import Mathlib.Data.List.GetD

/-!
`tools::base58`: bytes as text, block by block. A block of up to eight bytes is a number,
and is written in a fixed number of digits that depends on its length only. Decoding
accepts a text exactly when encoding some bytes gives it.
-/
namespace Monzero.Base58

open Bytes Codec Blocks List

def alphabet : List UInt8 := ascii "123456789ABCDEFGHJKLMNPQRSTUVWXYZabcdefghijkmnopqrstuvwxyz"

def alphabetSize : ℕ := 58

def encodedBlockSizes : List ℕ := [0, 2, 3, 5, 6, 7, 9, 10, 11]

def fullBlockSize : ℕ := 8

def fullEncodedBlockSize : ℕ := 11

def letterOf (digit : ℕ) : UInt8 := alphabet.getD digit 0x31

def reverseAlphabet (letter : UInt8) : Option ℕ :=
  if letter ∈ alphabet then some (alphabet.idxOf letter) else none

def encodedBlockSize (size : ℕ) : ℕ := encodedBlockSizes.getD size 0

def decodedBlockSize (encodedSize : ℕ) : Option ℕ :=
  if encodedSize ∈ encodedBlockSizes then some (encodedBlockSizes.idxOf encodedSize) else none

def uint8beTo64 (data : List UInt8) : ℕ := leValue data.reverse

def uint64To8be (num size : ℕ) : List UInt8 := (leBytes size num).reverse

/-- The result is filled with the letter of zero, and the digits are written from its end
until nothing is left of the number. -/
def encodeBlock (block : List UInt8) : List UInt8 :=
  (placedDigits alphabetSize (encodedBlockSize block.length) (uint8beTo64 block)).map letterOf

/-- One turn of the loop of `decode_block`, on `res_num` and `order`. Both have 64 bits, and the
product is taken in 128. -/
def decodeLetter (state : ℕ × ℕ) (letter : UInt8) : Option (ℕ × ℕ) := do
  let digit ← reverseAlphabet letter
  let product := state.2 * digit
  let tmp := (state.1 + product % 2 ^ 64) % 2 ^ 64
  if tmp < state.1 ∨ product / 2 ^ 64 ≠ 0 then none
  else some (tmp, state.2 * alphabetSize % 2 ^ 64)

/-- The loop runs over the block from its end. -/
def decodeBlock (block : List UInt8) : Option (List UInt8) := do
  let resSize ← decodedBlockSize block.length
  if resSize = 0 then none
  else
    let (resNum, _) ← block.reverse.foldlM decodeLetter (0, 1)
    if resSize < fullBlockSize ∧ 2 ^ (8 * resSize) ≤ resNum then none
    else some (uint64To8be resNum resSize)

def encode (data : List UInt8) : List UInt8 :=
  if data = [] then []
  else
    (fullBlocks fullBlockSize data).flatMap encodeBlock ++
      if 0 < data.length % fullBlockSize then encodeBlock (lastBlock fullBlockSize data) else []

def decode (enc : List UInt8) : Option (List UInt8) :=
  if enc = [] then some []
  else do
    let _ ← decodedBlockSize (enc.length % fullEncodedBlockSize)
    let blocks ← (fullBlocks fullEncodedBlockSize enc).mapM decodeBlock
    let last ← (if 0 < enc.length % fullEncodedBlockSize
      then decodeBlock (lastBlock fullEncodedBlockSize enc) else some [])
    return blocks.flatten ++ last

/-! ### Letters -/

theorem reverseAlphabet_eq_some_iff (letter : UInt8) (digit : ℕ) :
    reverseAlphabet letter = some digit ↔ digit < alphabetSize ∧ letterOf digit = letter := by
  have hlen : alphabet.length = alphabetSize := by decide +kernel
  have hnd : alphabet.Nodup := by decide +kernel
  rw [reverseAlphabet, ← hlen]
  constructor
  · intro h
    split at h
    · rename_i hmem
      cases h
      have hlt := idxOf_lt_length_of_mem hmem
      exact ⟨hlt, by rw [letterOf, getD_eq_getElem _ _ hlt, getElem_idxOf]⟩
    · cases h
  · rintro ⟨hlt, rfl⟩
    rw [letterOf, getD_eq_getElem _ _ hlt, if_pos (getElem_mem hlt), hnd.idxOf_getElem]

variable {s b : List UInt8} {size : ℕ}

theorem mapM_reverseAlphabet {ds : List ℕ} :
    s.mapM reverseAlphabet = some ds ↔ (∀ d ∈ ds, d < alphabetSize) ∧ s = ds.map letterOf := by
  induction s generalizing ds with
  | nil =>
    constructor
    · intro h
      cases h
      simp
    · rintro ⟨-, h⟩
      rw [map_eq_nil_iff.mp h.symm]
      rfl
  | cons c s ih =>
    simp only [mapM_cons, Option.bind_eq_bind, Option.bind_eq_some_iff, ih,
      reverseAlphabet_eq_some_iff, Option.pure_def, Option.some.injEq]
    constructor
    · rintro ⟨d, ⟨hd, rfl⟩, ds, ⟨hds, rfl⟩, rfl⟩
      exact ⟨by simpa using ⟨hd, hds⟩, rfl⟩
    · rintro ⟨hds, hs⟩
      cases ds with
      | nil => simp at hs
      | cons d ds =>
        obtain ⟨rfl, rfl⟩ := cons_eq_cons.mp hs
        exact ⟨d, ⟨hds d (by simp), rfl⟩, ds, ⟨fun x hx => hds x (by simp [hx]), rfl⟩, rfl⟩

/-! ### The loop of a block -/

theorem decodeLetter_eq_some_iff (k : ℕ) {v : ℕ} (hk : k < 11) (hv : v < 2 ^ 64) (letter : UInt8)
    (next : ℕ × ℕ) : decodeLetter (v, 58 ^ k % 2 ^ 64) letter = some next ↔
      ∃ d, reverseAlphabet letter = some d ∧ v + 58 ^ k * d < 2 ^ 64 ∧
        next = (v + 58 ^ k * d, 58 ^ (k + 1) % 2 ^ 64) := by
  -- The comment of the source: the order of the last digit still has 64 bits.
  have horder : 58 ^ k % 2 ^ 64 = 58 ^ k :=
    Nat.mod_eq_of_lt (lt_of_le_of_lt (Nat.pow_le_pow_right (by omega) (by omega : k ≤ 10))
      (by norm_num))
  simp only [decodeLetter, Option.bind_eq_bind, Option.bind_eq_some_iff, horder, alphabetSize,
    ← pow_succ]
  refine exists_congr fun d => and_congr_right fun _ => ?_
  obtain ⟨p, hp⟩ : ∃ p, 58 ^ k * d = p := ⟨_, rfl⟩
  rw [hp]
  constructor
  · intro h
    split at h
    · cases h
    · rename_i hfits
      obtain rfl := Option.some.inj h
      have hlow : p % 2 ^ 64 = p := by omega
      have hsum : v + p < 2 ^ 64 := by omega
      rw [hlow, Nat.mod_eq_of_lt hsum]
      exact ⟨hsum, rfl⟩
  · rintro ⟨hsum, rfl⟩
    have hlow : p % 2 ^ 64 = p := by omega
    rw [hlow, Nat.mod_eq_of_lt hsum, if_neg (by omega)]

/-- The loop adds up the digits, the least significant first, as long as 64 bits hold the sum. -/
theorem foldlM_decodeLetter_iff (k v : ℕ) (s : List UInt8) (hk : k + s.length ≤ 11)
    (hv : v < 2 ^ 64) (n : ℕ) :
    (∃ order, s.foldlM decodeLetter (v, 58 ^ k % 2 ^ 64) = some (n, order)) ↔
      ∃ ds, s.mapM reverseAlphabet = some ds ∧ n = v + 58 ^ k * Nat.ofDigits 58 ds ∧
        n < 2 ^ 64 := by
  induction s generalizing k v with
  | nil =>
    constructor
    · rintro ⟨order, h⟩
      obtain ⟨rfl, -⟩ := Prod.mk.inj (Option.some.inj h)
      exact ⟨[], rfl, by simp, hv⟩
    · rintro ⟨ds, hds, hn, -⟩
      cases hds
      exact ⟨_, by rw [hn]; rfl⟩
  | cons c s ih =>
    rw [length_cons] at hk
    have hmul : ∀ d rest, v + 58 ^ k * Nat.ofDigits 58 (d :: rest) =
        v + 58 ^ k * d + 58 ^ (k + 1) * Nat.ofDigits 58 rest := by
      intro d rest
      rw [Nat.ofDigits_cons, pow_succ]
      ring
    simp only [foldlM_cons, mapM_cons, Option.bind_eq_bind, Option.bind_eq_some_iff,
      decodeLetter_eq_some_iff k (by omega) hv, Option.pure_def, Option.some.injEq]
    constructor
    · rintro ⟨order, _, ⟨d, hd, hfits, rfl⟩, hrest⟩
      obtain ⟨ds, hds, hn, hlt⟩ := (ih (k + 1) _ (by omega) hfits).mp ⟨order, hrest⟩
      exact ⟨d :: ds, ⟨d, hd, ds, hds, rfl⟩, by rw [hmul, hn], hlt⟩
    · rintro ⟨_, ⟨d, hd, ds, hds, rfl⟩, hn, hlt⟩
      rw [hmul] at hn
      have hfits : v + 58 ^ k * d < 2 ^ 64 := by omega
      obtain ⟨order, hrest⟩ := (ih (k + 1) _ (by omega) hfits).mpr ⟨ds, hds, hn, hlt⟩
      exact ⟨order, _, ⟨d, hd, hfits, rfl⟩, hrest⟩

/-! ### One block -/

@[simp] theorem length_encodeBlock (block : List UInt8) :
    (encodeBlock block).length = encodedBlockSize block.length := by
  simp [encodeBlock]

theorem decodedBlockSize_eq_some_iff (n size : ℕ) :
    decodedBlockSize n = some size ↔ size ≤ fullBlockSize ∧ n = encodedBlockSize size := by
  constructor
  · intro h
    rw [decodedBlockSize] at h
    split at h
    · rename_i hmem
      have hall : ∀ n ∈ encodedBlockSizes, encodedBlockSizes.idxOf n ≤ fullBlockSize ∧
          n = encodedBlockSize (encodedBlockSizes.idxOf n) := by decide
      cases h
      exact hall n hmem
    · cases h
  · rintro ⟨hsize, rfl⟩
    have hall : ∀ size ≤ fullBlockSize,
        decodedBlockSize (encodedBlockSize size) = some size := by decide
    exact hall size hsize

theorem pow_le_encodedBlockSize (h : size ≤ fullBlockSize) :
    256 ^ size ≤ 58 ^ encodedBlockSize size := by
  have hall : ∀ size ≤ fullBlockSize, 256 ^ size ≤ 58 ^ encodedBlockSize size := by
    decide +kernel
  exact hall size h

theorem encodedBlockSize_le (h : size ≤ fullBlockSize) :
    encodedBlockSize size ≤ fullEncodedBlockSize := by
  have hall : ∀ size ≤ fullBlockSize, encodedBlockSize size ≤ fullEncodedBlockSize := by decide
  exact hall size h

theorem uint8beTo64_lt (data : List UInt8) : uint8beTo64 data < 256 ^ data.length := by
  have h := leValue_lt data.reverse
  rwa [length_reverse] at h

theorem uint64To8be_uint8beTo64 (data : List UInt8) :
    uint64To8be (uint8beTo64 data) data.length = data := by
  rw [uint64To8be, uint8beTo64, ← length_reverse, leBytes_leValue, reverse_reverse]

theorem uint8beTo64_uint64To8be {num : ℕ} (h : num < 256 ^ size) :
    uint8beTo64 (uint64To8be num size) = num := by
  rw [uint64To8be, uint8beTo64, reverse_reverse, leValue_leBytes, Nat.mod_eq_of_lt h]

@[simp] theorem length_uint64To8be (num size : ℕ) : (uint64To8be num size).length = size := by
  simp [uint64To8be]

theorem two_pow_eight_mul (size : ℕ) : 2 ^ (8 * size) = 256 ^ size := by
  rw [pow_mul]
  norm_num

/-- The loop over the letters of a block, which sees the digits in reverse, computes their value
if it fits 64 bits. -/
theorem foldlM_decodeLetter_block (hsize : size ≤ fullBlockSize)
    (hlen : s.length = encodedBlockSize size) (n : ℕ) :
    (∃ order, s.reverse.foldlM decodeLetter (0, 1) = some (n, order)) ↔
      ∃ ds, ((∀ d ∈ ds, d < alphabetSize) ∧ s = ds.map letterOf) ∧ n = valueOf 58 ds ∧
        n < 2 ^ 64 := by
  have hle := encodedBlockSize_le hsize
  rw [← hlen, fullEncodedBlockSize] at hle
  have h := foldlM_decodeLetter_iff 0 0 s.reverse (by simpa using hle) (by norm_num) n
  rw [pow_zero, Nat.mod_eq_of_lt (by norm_num)] at h
  rw [h]
  constructor
  · rintro ⟨ds, hds, hn, hlt⟩
    obtain ⟨hdig, hs⟩ := mapM_reverseAlphabet.mp hds
    refine ⟨ds.reverse, ⟨by simpa using hdig, ?_⟩, by simpa [valueOf] using hn, hlt⟩
    rw [map_reverse, ← hs, reverse_reverse]
  · rintro ⟨ds, ⟨hdig, hs⟩, hn, hlt⟩
    refine ⟨ds.reverse, mapM_reverseAlphabet.mpr ⟨by simpa using hdig, ?_⟩, ?_, hlt⟩
    · rw [hs, map_reverse]
    · simpa [valueOf] using hn

/-- The checks of a block: a length that some block is written with, letters of the alphabet,
and a number that fits the bytes of that length. -/
theorem decodeBlock_eq_some_iff_digits (s data : List UInt8) : decodeBlock s = some data ↔
      ∃ size ds, 0 < size ∧ size ≤ fullBlockSize ∧ s.length = encodedBlockSize size ∧
        (∀ d ∈ ds, d < alphabetSize) ∧ s = ds.map letterOf ∧
        valueOf 58 ds < 256 ^ size ∧ data = uint64To8be (valueOf 58 ds) size := by
  simp only [decodeBlock, Option.bind_eq_bind, Option.bind_eq_some_iff,
    decodedBlockSize_eq_some_iff]
  constructor
  · rintro ⟨size, ⟨hsize, hlen⟩, h⟩
    split at h
    · cases h
    · rename_i hpos
      obtain ⟨⟨n, order⟩, hrun, h⟩ := Option.bind_eq_some_iff.mp h
      obtain ⟨ds, ⟨hdig, hs⟩, rfl, hlt⟩ :=
        (foldlM_decodeLetter_block hsize hlen n).mp ⟨order, hrun⟩
      split at h
      · cases h
      · rename_i hfits
        refine ⟨size, ds, Nat.pos_of_ne_zero hpos, hsize, hlen, hdig, hs, ?_,
          (Option.some.inj h).symm⟩
        rw [← two_pow_eight_mul]
        by_cases hfull : size < fullBlockSize
        · by_contra hge
          exact hfits ⟨hfull, Nat.le_of_not_lt hge⟩
        · obtain rfl : size = 8 := by
            rw [fullBlockSize] at hsize hfull
            omega
          exact hlt
  · rintro ⟨size, ds, hpos, hsize, hlen, hdig, hs, hlt, rfl⟩
    refine ⟨size, ⟨hsize, hlen⟩, ?_⟩
    have h64 : valueOf 58 ds < 2 ^ 64 := by
      refine lt_of_lt_of_le hlt ?_
      calc 256 ^ size ≤ 256 ^ 8 := Nat.pow_le_pow_right (by omega) hsize
        _ = 2 ^ 64 := by norm_num
    obtain ⟨order, hrun⟩ :=
      (foldlM_decodeLetter_block hsize hlen _).mpr ⟨ds, ⟨hdig, hs⟩, rfl, h64⟩
    rw [if_neg (by omega), hrun, Option.bind_some]
    simp only
    rw [if_neg]
    rw [two_pow_eight_mul]
    omega

theorem decodeBlock_eq_some_iff (s data : List UInt8) : decodeBlock s = some data ↔
      0 < data.length ∧ data.length ≤ fullBlockSize ∧ s = encodeBlock data := by
  rw [decodeBlock_eq_some_iff_digits]
  constructor
  · rintro ⟨size, ds, hpos, hsize, hlen, hdig, rfl, hlt, rfl⟩
    have hround : placedDigits 58 ds.length (valueOf 58 ds) = ds :=
      placedDigits_valueOf (by decide) hdig
    rw [length_map] at hlen
    rw [length_uint64To8be, encodeBlock, length_uint64To8be, uint8beTo64_uint64To8be hlt,
      ← hlen, alphabetSize, hround]
    exact ⟨hpos, hsize, rfl⟩
  · rintro ⟨hpos, hsize, rfl⟩
    have hlt := uint8beTo64_lt data
    have hval : valueOf 58 (placedDigits 58 (encodedBlockSize data.length) (uint8beTo64 data)) =
        uint8beTo64 data :=
      valueOf_placedDigits _ _ (lt_of_lt_of_le hlt (pow_le_encodedBlockSize hsize))
    refine ⟨data.length, placedDigits 58 (encodedBlockSize data.length) (uint8beTo64 data), hpos,
      hsize, length_encodeBlock data, placedDigits_lt (by decide) _ _, rfl, ?_, ?_⟩
    · rw [hval]
      exact hlt
    · rw [hval, uint64To8be_uint8beTo64]

/-! ### Whole strings -/

theorem encodedBlockSize_lt_iff (h : size ≤ fullBlockSize) :
    encodedBlockSize size < fullEncodedBlockSize ↔ size < fullBlockSize := by
  have hall : ∀ size ≤ fullBlockSize,
      (encodedBlockSize size < fullEncodedBlockSize ↔ size < fullBlockSize) := by decide
  exact hall size h

theorem encodedBlockSize_pos (h : size ≤ fullBlockSize) (hpos : 0 < size) :
    0 < encodedBlockSize size := by
  have hall : ∀ size ≤ fullBlockSize, 0 < size → 0 < encodedBlockSize size := by decide
  exact hall size h hpos

theorem encode_short {data : List UInt8} (h : data.length < fullBlockSize) :
    encode data = encodeBlock data := by
  rw [encode, fullBlocks_short h, lastBlock_short h, Nat.mod_eq_of_lt h]
  cases data with
  | nil => rfl
  | cons b data => simp

theorem encode_append (hb : b.length = fullBlockSize) (rest : List UInt8) :
    encode (b ++ rest) = encodeBlock b ++ encode rest := by
  have hne : b ++ rest ≠ [] := by
    intro h
    rw [(append_eq_nil_iff.mp h).1] at hb
    cases hb
  rw [encode, if_neg hne, fullBlocks_append (by decide) hb, lastBlock_append (by decide) hb,
    length_mod_append hb, flatMap_cons, append_assoc]
  congr 1
  cases rest with
  | nil => rfl
  | cons c rest => rw [encode, if_neg (cons_ne_nil c rest)]

theorem decode_short (h : s.length < fullEncodedBlockSize) (data : List UInt8) :
    decode s = some data ↔ data.length < fullBlockSize ∧ s = encodeBlock data := by
  have hsize : ∀ {data : List UInt8}, data.length ≤ fullBlockSize → s = encodeBlock data →
      data.length < fullBlockSize := by
    rintro data hle rfl
    rw [length_encodeBlock] at h
    exact (encodedBlockSize_lt_iff hle).mp h
  rw [decode]
  by_cases hs : s = []
  · rw [if_pos hs]
    constructor
    · intro hdata
      obtain rfl := Option.some.inj hdata
      exact ⟨by decide, hs⟩
    · rintro ⟨hlt, hblk⟩
      congr 1
      symm
      by_contra hdata
      have hpos := encodedBlockSize_pos hlt.le (length_pos_iff.mpr hdata)
      rw [← length_encodeBlock, ← hblk, hs] at hpos
      exact Nat.lt_irrefl 0 hpos
  · have hpos : 0 < s.length := length_pos_iff.mpr hs
    rw [if_neg hs, fullBlocks_short h, lastBlock_short h, Nat.mod_eq_of_lt h]
    simp only [mapM_nil, Option.bind_eq_bind, Option.bind_eq_some_iff, if_pos hpos,
      Option.pure_def, Option.some.injEq, decodedBlockSize_eq_some_iff, decodeBlock_eq_some_iff]
    constructor
    · rintro ⟨-, -, _, rfl, data, ⟨-, hle, hblk⟩, rfl⟩
      rw [flatten_nil, nil_append]
      exact ⟨hsize hle hblk, hblk⟩
    · rintro ⟨hlt, hblk⟩
      have hlen : s.length = encodedBlockSize data.length := by
        rw [hblk, length_encodeBlock]
      refine ⟨data.length, ⟨hlt.le, hlen⟩, [], rfl, data, ⟨?_, hlt.le, hblk⟩, rfl⟩
      by_contra hzero
      rw [Nat.eq_zero_of_not_pos hzero] at hlen
      exact absurd hlen hpos.ne'

theorem decode_append (hb : b.length = fullEncodedBlockSize) (rest data : List UInt8) :
    decode (b ++ rest) = some data ↔
      ∃ d r, decodeBlock b = some d ∧ decode rest = some r ∧ data = d ++ r := by
  have hne : b ++ rest ≠ [] := by
    intro h
    rw [(append_eq_nil_iff.mp h).1] at hb
    cases hb
  have hrest : decode rest = (do
      let _ ← decodedBlockSize (rest.length % fullEncodedBlockSize)
      let bs ← (fullBlocks fullEncodedBlockSize rest).mapM decodeBlock
      let last ← (if 0 < rest.length % fullEncodedBlockSize
        then decodeBlock (lastBlock fullEncodedBlockSize rest) else some [])
      return bs.flatten ++ last) := by
    cases rest with
    | nil => rfl
    | cons c rest => rw [decode, if_neg (cons_ne_nil c rest)]
  rw [hrest, decode, if_neg hne, fullBlocks_append (by decide) hb,
    lastBlock_append (by decide) hb, length_mod_append hb]
  simp only [mapM_cons, Option.bind_eq_bind, Option.bind_eq_some_iff, Option.pure_def,
    Option.some.injEq]
  constructor
  · rintro ⟨size, hsize, _, ⟨d, hd, bs, hblks, rfl⟩, last, hlast, rfl⟩
    exact ⟨d, _, hd, ⟨size, hsize, bs, hblks, last, hlast, rfl⟩, by simp⟩
  · rintro ⟨d, _, hd, ⟨size, hsize, bs, hblks, last, hlast, rfl⟩, rfl⟩
    exact ⟨size, hsize, _, ⟨d, hd, bs, hblks, rfl⟩, last, hlast, by simp⟩

theorem decode_eq_some_iff (data : List UInt8) : decode s = some data ↔ s = encode data := by
  constructor
  · induction s using block_induction (n := fullEncodedBlockSize) (by decide) generalizing data with
    | short s hs =>
      intro h
      obtain ⟨hlt, hblk⟩ := (decode_short hs data).mp h
      rw [encode_short hlt, hblk]
    | full b rest hb ih =>
      intro h
      obtain ⟨d, r, hd, hr, rfl⟩ := (decode_append hb rest data).mp h
      obtain ⟨-, hle, rfl⟩ := (decodeBlock_eq_some_iff b d).mp hd
      -- Only a full block is written with the length of a full one.
      have hfull : d.length = fullBlockSize := by
        rw [length_encodeBlock] at hb
        have hiff := encodedBlockSize_lt_iff hle
        omega
      rw [encode_append hfull, ih r hr]
  · rintro rfl
    induction data using block_induction (n := fullBlockSize) (by decide) with
    | short data hdata =>
      have hlen : (encodeBlock data).length < fullEncodedBlockSize := by
        rw [length_encodeBlock]
        exact (encodedBlockSize_lt_iff hdata.le).mpr hdata
      rw [encode_short hdata]
      exact (decode_short hlen data).mpr ⟨hdata, rfl⟩
    | full b rest hb ih =>
      have hlen : (encodeBlock b).length = fullEncodedBlockSize := by
        rw [length_encodeBlock, hb]
        rfl
      have hblk : decodeBlock (encodeBlock b) = some b :=
        (decodeBlock_eq_some_iff _ b).mpr ⟨by rw [hb]; decide, hb.le, rfl⟩
      rw [encode_append hb]
      exact (decode_append hlen _ _).mpr ⟨b, rest, hblk, ih, rfl⟩

theorem length_encode (data : List UInt8) :
    (encode data).length = data.length / fullBlockSize * fullEncodedBlockSize +
      encodedBlockSize (data.length % fullBlockSize) := by
  induction data using block_induction (n := fullBlockSize) (by decide) with
  | short data hdata =>
    rw [encode_short hdata, length_encodeBlock, Nat.div_eq_of_lt hdata, Nat.mod_eq_of_lt hdata,
      Nat.zero_mul, Nat.zero_add]
  | full b rest hb ih =>
    have hblk : encodedBlockSize fullBlockSize = fullEncodedBlockSize := rfl
    rw [encode_append hb, length_append, length_encodeBlock, ih,
      length_div_append (by decide) hb, length_mod_append hb, hb, hblk, Nat.succ_mul]
    omega

end Monzero.Base58
