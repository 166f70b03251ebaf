import DesModular.MachineWord
import Mathlib.Data.LawfulXor.Basic
import Mathlib.Data.List.Induction

/-!
# Big-endian byte strings

A byte string as a 64-bit word, most significant byte first, and back. Byte
strings of whole words are lists of words.
-/
namespace ByteOrder

open MachineWord

abbrev Bytes := List U8

/-- One more byte at the low end of a word. -/
def pushByte (value : U64) (b : U8) : U64 := (value <<< 8) ||| b.setWidth 64

/-- The word a byte string spells, most significant byte first. -/
def pack (bytes : Bytes) : U64 := bytes.foldl pushByte 0#64

/-- The low `n` bytes of a word, most significant byte first. -/
def unpack : Nat → U64 → Bytes
  | 0, _ => []
  | n + 1, value => unpack n (value >>> 8) ++ [value.setWidth 8]

@[simp] theorem pack_nil : pack [] = 0#64 := rfl

theorem pack_concat (bytes : Bytes) (b : U8) :
    pack (bytes ++ [b]) = pushByte (pack bytes) b := by
  simp [pack]

@[simp] theorem length_unpack (n : Nat) (value : U64) : (unpack n value).length = n := by
  induction n generalizing value with
  | zero => rfl
  | succ n ih => simp [unpack, ih]

/-- Byte `i` of an unpacked word, bit by bit. -/
theorem getLsbD_unpack (n : Nat) (value : U64) (i : Nat) (h : i < (unpack n value).length)
    {r : Nat} (hr : r < 8) :
    (unpack n value)[i].getLsbD r = value.getLsbD (8 * (n - 1 - i) + r) := by
  induction n generalizing value with
  | zero => cases h
  | succ n ih =>
    rw [length_unpack] at h
    simp only [unpack]
    by_cases hi : i < n
    · have hindex : 8 + (8 * (n - 1 - i) + r) = 8 * (n + 1 - 1 - i) + r := by omega
      have hlt : i < (unpack n (value >>> 8)).length := by rwa [length_unpack]
      rw [List.getElem_append_left hlt, ih, BitVec.getLsbD_ushiftRight, hindex]
    · have hlast : i = n := by omega
      subst hlast
      rw [List.getElem_append_right (Nat.le_of_eq (length_unpack i _)), List.getElem_singleton,
        BitVec.getLsbD_setWidth, decide_eq_true hr, Bool.true_and, Nat.add_sub_cancel,
        Nat.sub_self, Nat.mul_zero, Nat.zero_add]

theorem fits_byte (b : U8) : Fits 8 (b.setWidth 64) := by
  have := b.isLt
  simp only [Fits, BitVec.toNat_setWidth]
  omega

theorem fits_pack (bytes : Bytes) : Fits (8 * bytes.length) (pack bytes) := by
  induction bytes using List.reverseRecOn with
  | nil => simp
  | append_singleton bytes b ih =>
    rw [pack_concat, List.length_append, List.length_singleton, Nat.mul_add]
    exact fits_shiftOr ih (fits_byte b)

theorem pushByte_high {x : U64} {n : Nat} (hx : Fits (8 * n) x) (hn : 8 * n + 8 ≤ 64) (b : U8) :
    pushByte x b >>> 8 = x := by
  apply BitVec.eq_of_getLsbD_eq
  intro j hj
  rw [BitVec.getLsbD_ushiftRight]
  by_cases hj8 : 8 + j < 64
  · exact getLsbD_shiftOr_high (fits_byte b) x hj8
  · rw [getLsbD_of_fits hx (by omega), BitVec.getLsbD_of_ge _ _ (by omega)]

theorem pushByte_low (x : U64) (b : U8) : (pushByte x b).setWidth 8 = b := by
  apply BitVec.eq_of_getLsbD_eq
  intro j hj
  have hj64 : j < 64 := by omega
  rw [pushByte, BitVec.getLsbD_setWidth, getLsbD_shiftOr_low _ _ hj, BitVec.getLsbD_setWidth]
  simp [hj, hj64]

/-- Unpacking undoes packing, for up to eight bytes. -/
theorem unpack_pack (bytes : Bytes) (h : bytes.length ≤ 8) :
    unpack bytes.length (pack bytes) = bytes := by
  induction bytes using List.reverseRecOn with
  | nil => rfl
  | append_singleton bytes b ih =>
    rw [List.length_append, List.length_singleton] at h ⊢
    rw [unpack, pack_concat, pushByte_high (fits_pack bytes) (by omega), pushByte_low,
      ih (by omega)]

/-- Packing undoes unpacking when no bits lie above the bytes taken. -/
theorem pack_unpack (n : Nat) (value : U64) (h : Fits (8 * n) value) :
    pack (unpack n value) = value := by
  induction n generalizing value with
  | zero =>
    have hz : value.toNat = 0 := by
      have := h
      simp only [Fits, Nat.mul_zero, Nat.pow_zero] at this
      omega
    exact BitVec.eq_of_toNat_eq (by rw [hz]; rfl)
  | succ n ih =>
    have hhigh : Fits (8 * n) (value >>> 8) := by
      rw [fits_iff]
      intro j hj
      rw [BitVec.getLsbD_ushiftRight]
      exact getLsbD_of_fits h (by omega)
    rw [unpack, pack_concat, ih _ hhigh, pushByte]
    apply BitVec.eq_of_getLsbD_eq
    intro j hj
    by_cases hj8 : j < 8
    · rw [getLsbD_shiftOr_low _ _ hj8]
      simp [hj8, hj]
    · obtain ⟨k, rfl⟩ : ∃ k, j = 8 + k := ⟨j - 8, by omega⟩
      rw [getLsbD_shiftOr_high (fits_byte _) _ hj, BitVec.getLsbD_ushiftRight]

@[simp] theorem pack_unpack_eight (value : U64) : pack (unpack 8 value) = value :=
  pack_unpack 8 value (fits_width value)

theorem unpack_pack_eight {bytes : Bytes} (h : bytes.length = 8) :
    unpack 8 (pack bytes) = bytes := by
  have hp := unpack_pack bytes (by omega)
  rwa [h] at hp

theorem pack_eq_iff {a b : Bytes} (ha : a.length = 8) (hb : b.length = 8) :
    pack a = pack b ↔ a = b := by
  constructor
  · intro h
    rw [← unpack_pack_eight ha, h, unpack_pack_eight hb]
  · intro h
    rw [h]

/-! ## Exclusive or, byte by byte -/

def xorBytes (a b : Bytes) : Bytes := List.zipWith (· ^^^ ·) a b

@[simp] theorem length_xorBytes (a b : Bytes) : (xorBytes a b).length = min a.length b.length := by
  simp [xorBytes]

theorem pushByte_xor (x y : U64) (c d : U8) :
    pushByte (x ^^^ y) (c ^^^ d) = pushByte x c ^^^ pushByte y d := by
  apply BitVec.eq_of_getLsbD_eq
  intro j hj
  by_cases hj8 : j < 8
  · simp [pushByte, hj8]
  · have hge : 8 ≤ j := by omega
    simp [pushByte, hj8, hj, BitVec.getLsbD_of_ge _ j hge]

theorem foldl_xorBytes (a b : Bytes) (h : a.length = b.length) (x y : U64) :
    (xorBytes a b).foldl pushByte (x ^^^ y) = a.foldl pushByte x ^^^ b.foldl pushByte y := by
  induction a generalizing b x y with
  | nil =>
    have hb : b = [] := List.length_eq_zero_iff.mp h.symm
    subst hb
    rfl
  | cons c a ih =>
    cases b with
    | nil => simp at h
    | cons d b =>
      simp only [xorBytes, List.zipWith_cons_cons, List.foldl_cons, pushByte_xor]
      exact ih b (by simpa using h) _ _

/-- Packing turns exclusive or of strings into exclusive or of words. -/
theorem pack_xorBytes {a b : Bytes} (h : a.length = b.length) :
    pack (xorBytes a b) = pack a ^^^ pack b := by
  have hfold := foldl_xorBytes a b h 0#64 0#64
  rwa [BitVec.xor_self] at hfold

theorem xorBytes_assoc (a b c : Bytes) : xorBytes (xorBytes a b) c = xorBytes a (xorBytes b c) := by
  apply List.ext_getElem
  · simp [Nat.min_assoc]
  · intro i h1 h2
    simp only [xorBytes, List.getElem_zipWith, BitVec.xor_assoc]

theorem xorBytes_cancel {a mask : Bytes} (h : a.length ≤ mask.length) :
    xorBytes (xorBytes a mask) mask = a := by
  apply List.ext_getElem
  · simp [h]
  · intro i h1 h2
    simp only [xorBytes, List.getElem_zipWith, xor_cancel_right]

theorem unpack_xor (x y : U64) : unpack 8 (x ^^^ y) = xorBytes (unpack 8 x) (unpack 8 y) := by
  have hpack := pack_xorBytes ((length_unpack 8 x).trans (length_unpack 8 y).symm)
  rw [pack_unpack_eight, pack_unpack_eight] at hpack
  rw [← hpack]
  exact unpack_pack_eight (by simp)

/-! ## Strings of whole words -/

/-- The first `n` words of a string. -/
def toWords : Nat → Bytes → List U64
  | 0, _ => []
  | n + 1, bytes => pack (bytes.take 8) :: toWords n (bytes.drop 8)

def ofWords (words : List U64) : Bytes := words.flatMap (unpack 8)

@[simp] theorem ofWords_nil : ofWords [] = [] := rfl
@[simp] theorem ofWords_cons (w : U64) (words : List U64) :
    ofWords (w :: words) = unpack 8 w ++ ofWords words := rfl

@[simp] theorem length_toWords (n : Nat) (bytes : Bytes) : (toWords n bytes).length = n := by
  induction n generalizing bytes with
  | zero => rfl
  | succ n ih => simp [toWords, ih]

@[simp] theorem length_ofWords (words : List U64) :
    (ofWords words).length = 8 * words.length := by
  induction words with
  | nil => rfl
  | cons w words ih =>
    simp only [ofWords_cons, List.length_append, length_unpack, List.length_cons, ih]
    omega

/-- A string of `n` whole words is recovered from its words. -/
theorem ofWords_toWords (n : Nat) (bytes : Bytes) (h : bytes.length = 8 * n) :
    ofWords (toWords n bytes) = bytes := by
  induction n generalizing bytes with
  | zero =>
    have hb : bytes = [] := List.length_eq_zero_iff.mp (by omega)
    subst hb
    rfl
  | succ n ih =>
    have htake : (bytes.take 8).length = 8 := by rw [List.length_take]; omega
    rw [toWords, ofWords_cons, unpack_pack_eight htake,
      ih (bytes.drop 8) (by rw [List.length_drop]; omega), List.take_append_drop]

theorem toWords_ofWords (words : List U64) : toWords words.length (ofWords words) = words := by
  induction words with
  | nil => rfl
  | cons w words ih =>
    rw [List.length_cons, toWords, ofWords_cons, List.take_left' (length_unpack 8 w),
      List.drop_left' (length_unpack 8 w), pack_unpack_eight, ih]

/-- Block `i` of a string, counted from 0. -/
def blockAt (bytes : Bytes) (i : Nat) : Bytes := (bytes.drop (8 * i)).take 8

theorem length_blockAt {bytes : Bytes} {i : Nat} (h : 8 * (i + 1) ≤ bytes.length) :
    (blockAt bytes i).length = 8 := by
  rw [blockAt, List.length_take, List.length_drop]
  omega

theorem length_blockAt_le (bytes : Bytes) (i : Nat) : (blockAt bytes i).length ≤ 8 := by
  rw [blockAt, List.length_take]
  exact Nat.min_le_left _ _

/-- A block inside the first part of a string. -/
theorem blockAt_append {bytes : Bytes} {i : Nat} (h : 8 * (i + 1) ≤ bytes.length) (rest : Bytes) :
    blockAt (bytes ++ rest) i = blockAt bytes i := by
  rw [blockAt, blockAt, List.drop_append_of_le_length (by omega),
    List.take_append_of_le_length (by rw [List.length_drop]; omega)]

theorem getElem_toWords (n : Nat) (bytes : Bytes) (i : Nat) (h : i < (toWords n bytes).length) :
    (toWords n bytes)[i] = pack (blockAt bytes i) := by
  induction n generalizing bytes i with
  | zero => simp [toWords] at h
  | succ n ih =>
    cases i with
    | zero => rfl
    | succ i =>
      have hi : i < (toWords n (bytes.drop 8)).length := by simpa [toWords] using h
      have he : 8 + 8 * i = 8 * (i + 1) := by omega
      simp only [toWords, List.getElem_cons_succ]
      rw [ih (bytes.drop 8) i hi, blockAt, blockAt, List.drop_drop, he]

theorem blockAt_ofWords (words : List U64) (i : Nat) (h : i < words.length) :
    blockAt (ofWords words) i = unpack 8 words[i] := by
  induction words generalizing i with
  | nil => simp at h
  | cons w words ih =>
    cases i with
    | zero => simp [blockAt, List.take_left' (length_unpack 8 w)]
    | succ i =>
      have he : 8 * (i + 1) = 8 + 8 * i := by omega
      rw [blockAt, ofWords_cons, he, ← List.drop_drop, List.drop_left' (length_unpack 8 w),
        ← blockAt, ih i (by simpa using h), List.getElem_cons_succ]

/-- The whole blocks of a string, in order. -/
def blocks (bytes : Bytes) : List Bytes := (List.range (bytes.length / 8)).map (blockAt bytes)

theorem blocks_ofWords (words : List U64) : blocks (ofWords words) = words.map (unpack 8) := by
  have hlen : (ofWords words).length / 8 = words.length := by
    rw [length_ofWords, Nat.mul_div_cancel_left _ (by decide)]
  apply List.ext_getElem
  · rw [blocks, List.length_map, List.length_range, hlen, List.length_map]
  · intro i h1 h2
    rw [List.length_map] at h2
    simp only [blocks, List.getElem_map, List.getElem_range]
    exact blockAt_ofWords words i h2

theorem blocks_eq {bytes : Bytes} {n : Nat} (h : bytes.length = 8 * n) :
    blocks bytes = (toWords n bytes).map (unpack 8) := by
  have hwords := blocks_ofWords (toWords n bytes)
  rwa [ofWords_toWords n bytes h] at hwords

theorem unpack_injective : Function.Injective (unpack 8) := by
  intro x y h
  rw [← pack_unpack_eight x, h, pack_unpack_eight]

theorem toWords_append {n : Nat} {front : Bytes} (h : front.length = 8 * n) (m : Nat)
    (rest : Bytes) : toWords (n + m) (front ++ rest) = toWords n front ++ toWords m rest := by
  induction n generalizing front with
  | zero =>
    have hnil : front = [] := List.length_eq_zero_iff.mp h
    rw [hnil, Nat.zero_add]
    rfl
  | succ n ih =>
    have hdrop : (front.drop 8).length = 8 * n := by rw [List.length_drop]; omega
    rw [Nat.succ_add n m, toWords, List.take_append_of_le_length (by omega),
      List.drop_append_of_le_length (by omega), ih hdrop, toWords, List.cons_append]

theorem ofWords_append (front rest : List U64) :
    ofWords (front ++ rest) = ofWords front ++ ofWords rest := List.flatMap_append

end ByteOrder
