import Mathlib.Tactic.Common
import Mathlib.Algebra.GroupWithZero.Nat
import Mathlib.Data.List.OfFn

/-!
# Machine words as bit strings

Words of a fixed width that hold a shorter register in their low bits. Bits are
numbered from 1 at the most significant end of the register. The accumulation
`acc := (acc << d) | chunk` is proved once for every chunk width `d`.
-/
namespace MachineWord

abbrev U8 := BitVec 8
abbrev U32 := BitVec 32
abbrev U64 := BitVec 64

variable {w : Nat}

/-- The value of the word lies in its low `width` bits. -/
def Fits (width : Nat) (x : BitVec w) : Prop := x.toNat < 2 ^ width

instance (width : Nat) (x : BitVec w) : Decidable (Fits width x) :=
  inferInstanceAs (Decidable (x.toNat < 2 ^ width))

theorem fits_iff (width : Nat) (x : BitVec w) :
    Fits width x ↔ ∀ j, width ≤ j → x.getLsbD j = false := by
  constructor
  · intro h j hj
    exact Nat.testBit_lt_two_pow (Nat.lt_of_lt_of_le h (Nat.pow_le_pow_right (by decide) hj))
  · intro h
    exact Nat.lt_pow_two_of_testBit _ (fun j hj => h j hj)

theorem getLsbD_of_fits {width : Nat} {x : BitVec w} (h : Fits width x) {j : Nat}
    (hj : width ≤ j) : x.getLsbD j = false :=
  (fits_iff width x).mp h j hj

@[simp] theorem fits_zero (width : Nat) : Fits width 0#w := by
  rw [Fits, BitVec.toNat_ofNat, Nat.zero_mod]
  exact Nat.two_pow_pos width

theorem fits_width (x : BitVec w) : Fits w x := x.isLt

theorem Fits.mono {m n : Nat} {x : BitVec w} (h : Fits m x) (hmn : m ≤ n) : Fits n x :=
  Nat.lt_of_lt_of_le h (Nat.pow_le_pow_right (by decide) hmn)

theorem fits_xor {width : Nat} {x y : BitVec w} (hx : Fits width x) (hy : Fits width y) :
    Fits width (x ^^^ y) := by
  rw [fits_iff] at *
  intro j hj
  simp [hx j hj, hy j hj]

/-- Masking with `2 ^ width - 1` leaves a register of `width` bits. -/
theorem fits_and {width : Nat} (x : BitVec w) {mask : BitVec w} (h : Fits width mask) :
    Fits width (x &&& mask) := by
  rw [fits_iff] at *
  intro j hj
  simp [h j hj]

/-- The mask of `width` ones. -/
theorem getLsbD_mask {width : Nat} (h : width ≤ w) (j : Nat) :
    (BitVec.ofNat w (2 ^ width - 1)).getLsbD j = decide (j < width) := by
  rw [BitVec.getLsbD_ofNat, Nat.testBit_two_pow_sub_one]
  by_cases hj : j < width
  · simp [hj, Nat.lt_of_lt_of_le hj h]
  · simp [hj]

/-- Bit `i` of a `width`-bit register, numbered from 1 at the most significant end. -/
def msbBit (width : Nat) (x : BitVec w) (i : Nat) : Bool := x.getLsbD (width - i)

/-- A register is determined by its numbered bits. -/
theorem eq_of_msbBit {width : Nat} {x y : BitVec w} (hx : Fits width x) (hy : Fits width y)
    (h : ∀ i < width, msbBit width x (i + 1) = msbBit width y (i + 1)) : x = y := by
  apply BitVec.eq_of_getLsbD_eq
  intro j _
  by_cases hj : j < width
  · have hi := h (width - (j + 1)) (by omega)
    have he : width - (width - (j + 1) + 1) = j := by omega
    simpa only [msbBit, he] using hi
  · rw [getLsbD_of_fits hx (by omega), getLsbD_of_fits hy (by omega)]

theorem msbBit_xor (width : Nat) (x y : BitVec w) (i : Nat) :
    msbBit width (x ^^^ y) i = (msbBit width x i ^^ msbBit width y i) := by
  simp [msbBit]

/-- The register written out as a string, first bit first. -/
def bitString (width : Nat) (x : BitVec w) : List Bool :=
  (List.range width).map (fun i => msbBit width x (i + 1))

@[simp] theorem length_bitString (width : Nat) (x : BitVec w) :
    (bitString width x).length = width := by
  simp [bitString]

theorem getElem_bitString (width : Nat) (x : BitVec w) (i : Nat)
    (h : i < (bitString width x).length) :
    (bitString width x)[i] = msbBit width x (i + 1) := by
  simp [bitString]

/-- Two registers with the same string are the same word. -/
theorem bitString_inj {width : Nat} {x y : BitVec w} (hx : Fits width x) (hy : Fits width y)
    (h : bitString width x = bitString width y) : x = y := by
  apply eq_of_msbBit hx hy
  intro i hi
  have he := congrArg (fun s => s[i]?) h
  simpa [bitString, hi] using he

theorem bitString_xor (width : Nat) (x y : BitVec w) :
    bitString width (x ^^^ y) = List.zipWith (· ^^ ·) (bitString width x) (bitString width y) := by
  simp only [bitString, List.zipWith_map, List.zipWith_self, msbBit_xor]

/-- The string of a narrower word does not depend on the word that holds it. -/
theorem bitString_setWidth {width v : Nat} (x : BitVec w) (h : width ≤ v) :
    bitString width (x.setWidth v) = bitString width x := by
  apply List.map_congr_left
  intro i hi
  have hv : width - (i + 1) < v := by have := List.mem_range.mp hi; omega
  simp [msbBit, hv]

/-! ## Appending a chunk below a register -/

theorem getLsbD_shiftOr_low {d : Nat} (acc x : BitVec w) {r : Nat} (hr : r < d) :
    ((acc <<< d) ||| x).getLsbD r = x.getLsbD r := by
  simp [hr]

theorem getLsbD_shiftOr_high {d : Nat} {x : BitVec w} (hx : Fits d x) (acc : BitVec w) {j : Nat}
    (hj : d + j < w) : ((acc <<< d) ||| x).getLsbD (d + j) = acc.getLsbD j := by
  have hz : x.getLsbD (d + j) = false := getLsbD_of_fits hx (by omega)
  simp only [BitVec.getLsbD_or, BitVec.getLsbD_shiftLeft, hz, hj, Nat.add_sub_cancel_left]
  simp

theorem fits_shiftOr {n d : Nat} {acc x : BitVec w} (ha : Fits n acc) (hx : Fits d x) :
    Fits (n + d) ((acc <<< d) ||| x) := by
  rw [fits_iff]
  intro j hj
  have hz : x.getLsbD j = false := getLsbD_of_fits hx (by omega)
  have hs : acc.getLsbD (j - d) = false := getLsbD_of_fits ha (by omega)
  simp [hz, hs]

/-- Shifting a register left and filling in `d` low bits appends their string. -/
theorem bitString_shiftOr {n d : Nat} (acc : BitVec w) {x : BitVec w} (hx : Fits d x)
    (hw : n + d ≤ w) :
    bitString (n + d) ((acc <<< d) ||| x) = bitString n acc ++ bitString d x := by
  apply List.ext_getElem (by simp)
  intro i h1 h2
  simp only [length_bitString] at h1
  rw [getElem_bitString]
  by_cases hi : i < n
  · rw [List.getElem_append_left (by simpa using hi), getElem_bitString]
    have he : n + d - (i + 1) = d + (n - (i + 1)) := by omega
    simp only [msbBit, he]
    exact getLsbD_shiftOr_high hx acc (by omega)
  · rw [List.getElem_append_right (by simpa using hi), getElem_bitString]
    simp only [msbBit, length_bitString]
    have he : d - (i - n + 1) = n + d - (i + 1) := by omega
    rw [he]
    exact getLsbD_shiftOr_low acc x (by omega)

/-! ## Accumulation loops -/

/-- `for i in 0..n: acc = (acc << d) | chunk i`, from zero. -/
def accumulate (d n : Nat) (chunk : (i : Nat) → i < n → BitVec w) : BitVec w :=
  Nat.fold n (fun i h acc => (acc <<< d) ||| chunk i h) 0#w

@[simp] theorem accumulate_zero (d : Nat) (chunk : (i : Nat) → i < 0 → BitVec w) :
    accumulate d 0 chunk = 0#w := rfl

@[simp] theorem accumulate_succ (d n : Nat) (chunk : (i : Nat) → i < n + 1 → BitVec w) :
    accumulate d (n + 1) chunk =
      (accumulate d n (fun i h => chunk i (by omega)) <<< d) ||| chunk n (by omega) := by
  simp [accumulate]

theorem fits_accumulate (d n : Nat) (chunk : (i : Nat) → i < n → BitVec w)
    (h : ∀ i hi, Fits d (chunk i hi)) : Fits (n * d) (accumulate d n chunk) := by
  induction n with
  | zero => simp
  | succ n ih =>
    rw [accumulate_succ, Nat.succ_mul]
    exact fits_shiftOr (ih _ (fun i hi => h i (by omega))) (h n (by omega))

/-- Chunk `i` of `n` ends up `n - 1 - i` chunk widths above the low end. -/
theorem getLsbD_accumulate (d n : Nat) (chunk : (i : Nat) → i < n → BitVec w)
    (h : ∀ i hi, Fits d (chunk i hi)) (hw : n * d ≤ w) (i : Nat) (hi : i < n)
    (r : Nat) (hr : r < d) :
    (accumulate d n chunk).getLsbD ((n - 1 - i) * d + r) = (chunk i hi).getLsbD r := by
  induction n with
  | zero => omega
  | succ n ih =>
    have hmul : (n + 1) * d = n * d + d := Nat.succ_mul n d
    rw [accumulate_succ]
    by_cases hin : i = n
    · subst i
      have he : (n + 1 - 1 - n) * d + r = r := by simp
      rw [he]
      exact getLsbD_shiftOr_low _ _ hr
    · have hlt : i < n := by omega
      have hk : n + 1 - 1 - i = (n - 1 - i) + 1 := by omega
      have he : (n + 1 - 1 - i) * d + r = d + ((n - 1 - i) * d + r) := by
        rw [hk, Nat.succ_mul]
        omega
      have hb : (n - 1 - i) * d + d ≤ n * d := by
        rw [← Nat.succ_mul]
        exact Nat.mul_le_mul_right d (by omega)
      rw [he, getLsbD_shiftOr_high (h n (by omega)) _ (by omega)]
      exact ih (fun i hi => chunk i (by omega)) (fun i hi => h i (by omega)) (by omega) hlt

/-- The accumulated string is the concatenation of the chunks' strings. -/
theorem bitString_accumulate (d n : Nat) (chunk : (i : Nat) → i < n → BitVec w)
    (h : ∀ i hi, Fits d (chunk i hi)) (hw : n * d ≤ w) :
    bitString (n * d) (accumulate d n chunk) =
      (List.ofFn (fun i : Fin n => bitString d (chunk i i.isLt))).flatten := by
  induction n with
  | zero => simp [bitString]
  | succ n ih =>
    have hmul : (n + 1) * d = n * d + d := Nat.succ_mul n d
    rw [accumulate_succ, hmul, bitString_shiftOr _ (h n (by omega)) (by omega),
      ih (fun i hi => chunk i (by omega)) (fun i hi => h i (by omega)) (by omega),
      List.ofFn_succ', List.concat_eq_append, List.flatten_append]
    simp

end MachineWord
