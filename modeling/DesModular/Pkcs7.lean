import DesModular.ByteOrder
import Mathlib.Data.List.GetD

/-!
# Padding to whole blocks

PKCS#7 padding over byte strings, for any block size that fits in a byte.
Removing the padding accepts exactly the strings that padding produces.
-/
namespace Pkcs7

open MachineWord ByteOrder

/-- The number of padding bytes after `n` bytes of data. -/
def padCount (size n : Nat) : Nat := size - n % size

/-- The data followed by `p` bytes of value `p`. -/
def pad (size : Nat) (data : Bytes) : Bytes :=
  data ++ List.replicate (padCount size data.length) (BitVec.ofNat 8 (padCount size data.length))

/-- The length of the data in a padded string, if its padding is well formed. -/
def unpad (size : Nat) (padded : Bytes) : Option Nat :=
  let p := (padded.getD (padded.length - 1) 0#8).toNat
  if p = 0 ∨ size < p then none
  else if padded.drop (padded.length - p) = List.replicate p (BitVec.ofNat 8 p) then
    some (padded.length - p)
  else none

/-- The check once the last byte is known. -/
theorem unpad_of_last (size : Nat) {padded : Bytes} {b : U8}
    (h : padded.getD (padded.length - 1) 0#8 = b) :
    unpad size padded = if b.toNat = 0 ∨ size < b.toNat then none
      else if padded.drop (padded.length - b.toNat) = List.replicate b.toNat b then
        some (padded.length - b.toNat)
      else none := by
  have hb : BitVec.ofNat 8 b.toNat = b := by simp
  rw [unpad, h, hb]

theorem padCount_pos {size : Nat} (h : 0 < size) (n : Nat) : 0 < padCount size n := by
  have := Nat.mod_lt n h
  unfold padCount
  omega

theorem padCount_le (size n : Nat) : padCount size n ≤ size := Nat.sub_le _ _

@[simp] theorem length_pad (size : Nat) (data : Bytes) :
    (pad size data).length = data.length + padCount size data.length := by
  simp [pad]

/-- A padded string is made of whole blocks. -/
theorem length_add_padCount {size : Nat} (h : 0 < size) (n : Nat) :
    n + padCount size n = size * (n / size + 1) := by
  have hlt := Nat.mod_lt n h
  have hdiv := Nat.div_add_mod n size
  rw [Nat.mul_add, Nat.mul_one, padCount]
  omega

/-- Whole blocks less `p` bytes are filled up by `p` bytes again. -/
theorem padCount_of_sub {size k p : Nat} (hp : 0 < p) (hs : p ≤ size) :
    padCount size (size * (k + 1) - p) = p := by
  have he : size * (k + 1) - p = size * k + (size - p) := by
    rw [Nat.mul_add]
    omega
  rw [padCount, he, Nat.mul_add_mod, Nat.mod_eq_of_lt (by omega)]
  omega

/-- Whole blocks before the data do not change its padding. -/
theorem pad_append {size : Nat} {front : Bytes} (h : front.length % size = 0) (rest : Bytes) :
    pad size (front ++ rest) = front ++ pad size rest := by
  have hcount : padCount size (front ++ rest).length = padCount size rest.length := by
    rw [padCount, padCount, List.length_append, Nat.add_mod, h, Nat.zero_add, Nat.mod_mod]
  rw [pad, pad, hcount, List.append_assoc]

variable {size : Nat}

theorem lastByte_pad (h : 0 < size) (hsize : size < 256) (data : Bytes) :
    ((pad size data).getD ((pad size data).length - 1) 0#8).toNat = padCount size data.length := by
  have hpos := padCount_pos h data.length
  have hle := padCount_le size data.length
  rw [length_pad, pad, List.getD_append_right _ _ _ _ (by omega),
    List.getD_eq_getElem _ _ (by rw [List.length_replicate]; omega), List.getElem_replicate,
    BitVec.toNat_ofNat]
  exact Nat.mod_eq_of_lt (by omega)

/-- Unpadding recovers the length of whatever was padded. -/
theorem unpad_pad (h : 0 < size) (hsize : size < 256) (data : Bytes) :
    unpad size (pad size data) = some data.length := by
  have hpos := padCount_pos h data.length
  have hle := padCount_le size data.length
  have hn : (pad size data).length - padCount size data.length = data.length := by
    rw [length_pad]
    omega
  have hg : ¬(padCount size data.length = 0 ∨ size < padCount size data.length) := by omega
  have hdrop : (pad size data).drop data.length =
      List.replicate (padCount size data.length) (BitVec.ofNat 8 (padCount size data.length)) :=
    List.drop_left' rfl
  simp only [unpad, lastByte_pad h hsize data, hn, if_neg hg, if_pos hdrop]

/-- Whatever unpadding accepts is the padding of the data it reports. -/
theorem pad_of_unpad {padded : Bytes} {k n : Nat} (hlen : padded.length = size * (k + 1))
    (h : unpad size padded = some n) : n ≤ padded.length ∧ pad size (padded.take n) = padded := by
  simp only [unpad] at h
  generalize (padded.getD (padded.length - 1) 0#8).toNat = p at h
  split at h
  · cases h
  · split at h
    next hg hdrop =>
      obtain rfl := Option.some.inj h
      have hp : 0 < p := by omega
      have hs : p ≤ size := by omega
      have htake : (padded.take (padded.length - p)).length = padded.length - p := by
        rw [List.length_take]
        omega
      have hcount : padCount size (padded.length - p) = p := by
        rw [hlen]
        exact padCount_of_sub hp hs
      refine ⟨Nat.sub_le _ _, ?_⟩
      rw [pad, htake, hcount, ← hdrop, List.take_append_drop]
    next => cases h

/-- Only the last block decides about the padding. -/
theorem unpad_append (h : 0 < size) {rest : Bytes} (hrest : size ≤ rest.length) (front : Bytes) :
    unpad size (front ++ rest) = (unpad size rest).map (front.length + ·) := by
  have hindex : (front ++ rest).length - 1 = front.length + (rest.length - 1) := by
    rw [List.length_append]
    omega
  have hlast : (front ++ rest).getD ((front ++ rest).length - 1) 0#8 =
      rest.getD (rest.length - 1) 0#8 := by
    rw [hindex, List.getD_append_right _ _ _ _ (Nat.le_add_right _ _), Nat.add_sub_cancel_left]
  simp only [unpad, hlast]
  generalize (rest.getD (rest.length - 1) 0#8).toNat = p
  by_cases hp : p = 0 ∨ size < p
  · rw [if_pos hp, if_pos hp, Option.map_none]
  · have hkeep : (front ++ rest).length - p = front.length + (rest.length - p) := by
      rw [List.length_append]
      omega
    rw [if_neg hp, if_neg hp, hkeep, List.drop_length_add_append]
    split
    · rfl
    · rfl

/-- Acceptance is membership in the image of padding. -/
theorem unpad_eq_some_iff (h : 0 < size) (hsize : size < 256) {padded : Bytes} {k n : Nat}
    (hlen : padded.length = size * (k + 1)) :
    unpad size padded = some n ↔ ∃ data, pad size data = padded ∧ data.length = n := by
  constructor
  · intro hu
    obtain ⟨hn, hpad⟩ := pad_of_unpad hlen hu
    exact ⟨padded.take n, hpad, by rw [List.length_take]; omega⟩
  · rintro ⟨data, rfl, rfl⟩
    exact unpad_pad h hsize data

/-- The last `t` bytes of a string are copies of a byte. -/
theorem drop_eq_replicate_iff {bytes : Bytes} {t : Nat} (ht : t ≤ bytes.length) (b : U8) :
    bytes.drop (bytes.length - t) = List.replicate t b ↔
      ∀ i < bytes.length, bytes.length - t ≤ i → bytes.getD i 0#8 = b := by
  constructor
  · intro h i hi hle
    obtain ⟨j, rfl⟩ := Nat.exists_eq_add_of_le hle
    have hj : j < (bytes.drop (bytes.length - t)).length := by
      rw [List.length_drop]
      omega
    rw [List.getD_eq_getElem _ _ hi, ← List.getElem_drop (h := hj)]
    simp only [h, List.getElem_replicate]
  · intro h
    apply List.ext_getElem
    · rw [List.length_drop, List.length_replicate]
      omega
    · intro j h1 h2
      rw [List.length_drop] at h1
      rw [List.getElem_drop, List.getElem_replicate, ← List.getD_eq_getElem _ 0#8]
      exact h _ (by omega) (Nat.le_add_right _ _)

/-- Acceptance byte by byte: `t` bytes are taken off where the last `t` have the value `t`. -/
theorem unpad_eq_some_iff_bytes (hsize : size < 256) {padded : Bytes} {t : Nat} (ht : 0 < t)
    (hts : t ≤ size) (hlen : size ≤ padded.length) :
    unpad size padded = some (padded.length - t) ↔
      ∀ i < padded.length, padded.length - t ≤ i → padded.getD i 0#8 = BitVec.ofNat 8 t := by
  have hvalue : (BitVec.ofNat 8 t).toNat = t := by
    rw [BitVec.toNat_ofNat]
    omega
  rw [← drop_eq_replicate_iff (by omega)]
  constructor
  · intro h
    simp only [unpad] at h
    generalize (padded.getD (padded.length - 1) 0#8).toNat = p at h
    split at h
    · cases h
    · split at h
      next hg hdrop =>
        have hp : p = t := by
          have := Option.some.inj h
          omega
        rwa [hp] at hdrop
      next => cases h
  · intro h
    have hlast := (drop_eq_replicate_iff (by omega) (BitVec.ofNat 8 t)).mp h
      (padded.length - 1) (by omega) (by omega)
    have hguard : ¬(t = 0 ∨ size < t) := by omega
    rw [unpad_of_last size hlast, hvalue, if_neg hguard, if_pos h]

/-- What is accepted has some number of padding bytes. -/
theorem exists_of_unpad {padded : Bytes} {n : Nat} (h : unpad size padded = some n) :
    ∃ t, 0 < t ∧ t ≤ size ∧ n = padded.length - t := by
  simp only [unpad] at h
  generalize (padded.getD (padded.length - 1) 0#8).toNat = p at h
  split at h
  · cases h
  · split at h
    next hg _ => exact ⟨p, by omega, by omega, (Option.some.inj h).symm⟩
    next => cases h

theorem pad_injective (h : 0 < size) (hsize : size < 256) : Function.Injective (pad size) := by
  intro a b he
  have hlen : a.length = b.length := by
    have ha := unpad_pad h hsize a
    rw [he, unpad_pad h hsize b] at ha
    exact (Option.some.inj ha).symm
  have htake := congrArg (List.take a.length) he
  rw [pad, pad, List.take_left' rfl, List.take_left' hlen.symm] at htake
  exact htake

end Pkcs7
