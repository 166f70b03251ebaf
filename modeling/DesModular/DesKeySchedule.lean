import DesModular.DesTables
import Mathlib.Data.List.Rotate

/-!
# Key schedule

`des_keyschedule.c`: PC-1, sixteen rounds of rotation of the two 28-bit
registers, and PC-2 of each round's registers. The closed form reads every
register as the starting string rotated by the sum of the shifts so far.
-/
namespace DesKeySchedule

open MachineWord DesPermute DesTables

/-- `(1 << DES_KEY_HALF_BITS) - 1`. -/
def halfMask : U32 := (1#32 <<< 28) - 1#32

/-- Circular left rotation of a 28-bit register held in a 32-bit word. -/
def rotateLeft28 (half : U32) (amount : Nat) : U32 :=
  ((half <<< amount) ||| (half >>> (28 - amount))) &&& halfMask

structure KeyRegisters where
  c : U32
  d : U32
  deriving DecidableEq, Repr

/-- PC-1 of the key, split into the top and the bottom 28 bits. -/
def initialRegisters (key : U64) : KeyRegisters :=
  let permutedKey := permute key desPc1
  ⟨((permutedKey >>> 28) &&& halfMask.setWidth 64).setWidth 32,
    (permutedKey &&& halfMask.setWidth 64).setWidth 32⟩

/-- PC-2 treats `c || d` as a single 56-bit value. -/
def KeyRegisters.combined (r : KeyRegisters) : U64 :=
  (r.c.setWidth 64 <<< 28) ||| r.d.setWidth 64

/-- Rotations stack up: the amount applies to the registers of the round before. -/
def KeyRegisters.rotate (r : KeyRegisters) (amount : Nat) : KeyRegisters :=
  ⟨rotateLeft28 r.c amount, rotateLeft28 r.d amount⟩

structure ScheduleState where
  registers : KeyRegisters
  roundKeys : Vector U64 16

/-- The body of the loop over the rounds. -/
def scheduleRound (s : ScheduleState) (round : Nat) (h : round < 16) : ScheduleState :=
  let registers := s.registers.rotate desShifts[round]
  ⟨registers, s.roundKeys.set round (permute registers.combined desPc2)⟩

/-- The array is written in every entry, so its first contents do not matter. -/
def desGenerateRoundKeys (key : U64) : Vector U64 16 :=
  (Nat.fold 16 (fun round h s => scheduleRound s round h)
    ⟨initialRegisters key, Vector.replicate 16 0#64⟩).roundKeys

@[simp] theorem scheduleRound_registers (s : ScheduleState) (round : Nat) (h : round < 16) :
    (scheduleRound s round h).registers = s.registers.rotate desShifts[round] := rfl

@[simp] theorem scheduleRound_roundKeys (s : ScheduleState) (round : Nat) (h : round < 16) :
    (scheduleRound s round h).roundKeys = s.roundKeys.set round
      (permute (s.registers.rotate desShifts[round]).combined desPc2) := rfl

/-! ## What the loop computes -/

/-- The registers after `n` rounds. -/
def registersAfter (key : U64) : (n : Nat) → n ≤ 16 → KeyRegisters
  | 0, _ => initialRegisters key
  | n + 1, h => (registersAfter key n (by omega)).rotate desShifts[n]

theorem schedule_loop (key : U64) (n : Nat) (hn : n ≤ 16) :
    let s := Nat.fold n (fun round h s => scheduleRound s round (by omega))
      ⟨initialRegisters key, Vector.replicate 16 0#64⟩
    s.registers = registersAfter key n hn ∧
      ∀ i (hi : i < n), s.roundKeys[i] =
        permute (registersAfter key (i + 1) (by omega)).combined desPc2 := by
  induction n with
  | zero => exact ⟨rfl, fun i hi => absurd hi (by omega)⟩
  | succ n ih =>
    obtain ⟨hregisters, hkeys⟩ := ih (by omega)
    simp only [Nat.fold_succ]
    refine ⟨?_, ?_⟩
    · rw [scheduleRound_registers, hregisters]
      rfl
    · intro i hi
      simp only [scheduleRound_roundKeys]
      by_cases hin : i = n
      · subst i
        rw [Vector.getElem_set_self, hregisters]
        rfl
      · rw [Vector.getElem_set_ne _ _ (by omega)]
        exact hkeys i (by omega)

/-- Subkey `i` is PC-2 of the registers after `i + 1` rounds. -/
theorem roundKey_eq (key : U64) (i : Nat) (hi : i < 16) :
    (desGenerateRoundKeys key)[i] =
      permute (registersAfter key (i + 1) (by omega)).combined desPc2 :=
  (schedule_loop key 16 (by decide)).2 i hi

theorem fits_roundKey (key : U64) (i : Nat) (hi : i < 16) :
    Fits 48 (desGenerateRoundKeys key)[i] := by
  rw [roundKey_eq]
  exact fits_permute _ _

/-! ## Registers as 28-bit strings -/

theorem getLsbD_halfMask (j : Nat) : halfMask.getLsbD j = decide (j < 28) := by
  have h : halfMask = BitVec.ofNat 32 (2 ^ 28 - 1) := by decide
  rw [h, getLsbD_mask (by decide)]

theorem fits_rotateLeft28 (half : U32) (amount : Nat) : Fits 28 (rotateLeft28 half amount) :=
  fits_and _ (by decide)

/-- Bits shifted off the top are masked back in at the bottom. -/
theorem getLsbD_rotateLeft28 {half : U32} (hf : Fits 28 half) {amount : Nat} (ha : amount ≤ 28)
    {j : Nat} (hj : j < 28) :
    (rotateLeft28 half amount).getLsbD j =
      if j < amount then half.getLsbD (28 - amount + j) else half.getLsbD (j - amount) := by
  simp only [rotateLeft28, BitVec.getLsbD_and, BitVec.getLsbD_or, BitVec.getLsbD_shiftLeft,
    BitVec.getLsbD_ushiftRight, getLsbD_halfMask]
  by_cases hlow : j < amount
  · simp [hlow, hj]
  · have hz : half.getLsbD (28 - amount + j) = false := getLsbD_of_fits hf (by omega)
    have hj32 : j < 32 := by omega
    simp [hlow, hj, hz, hj32]

/-- As a string of 28 bits the register is rotated to the left. -/
theorem bitString_rotateLeft28 {half : U32} (hf : Fits 28 half) {amount : Nat}
    (ha : amount ≤ 28) :
    bitString 28 (rotateLeft28 half amount) = (bitString 28 half).rotate amount := by
  apply List.ext_getElem (by simp)
  intro i h1 h2
  rw [length_bitString] at h1
  rw [getElem_bitString, List.getElem_rotate, getElem_bitString]
  simp only [msbBit, length_bitString]
  rw [getLsbD_rotateLeft28 hf ha (by omega)]
  by_cases hlow : 28 - (i + 1) < amount
  · have hm : (i + amount) % 28 = i + amount - 28 := by omega
    rw [if_pos hlow, hm]
    congr 1
    omega
  · have hm : (i + amount) % 28 = i + amount := Nat.mod_eq_of_lt (by omega)
    rw [if_neg hlow, hm]
    congr 1
    omega

/-- Both registers stay below `2 ^ 28`. -/
structure KeyRegisters.Fit (r : KeyRegisters) : Prop where
  c : Fits 28 r.c
  d : Fits 28 r.d

theorem fits_narrow {x : U64} (h : Fits 28 x) : Fits 28 (x.setWidth 32) := by
  rw [fits_iff] at *
  intro j hj
  simp [h j hj]

theorem initialRegisters_fit (key : U64) : (initialRegisters key).Fit :=
  ⟨fits_narrow (fits_and _ (by decide)), fits_narrow (fits_and _ (by decide))⟩

theorem registersAfter_fit (key : U64) (n : Nat) (hn : n ≤ 16) :
    (registersAfter key n hn).Fit := by
  cases n with
  | zero => exact initialRegisters_fit key
  | succ n => exact ⟨fits_rotateLeft28 _ _, fits_rotateLeft28 _ _⟩

theorem KeyRegisters.Fit.wide {r : KeyRegisters} (h : r.Fit) : Fits 28 (r.d.setWidth 64) := by
  have := h.d
  simp only [Fits, BitVec.toNat_setWidth] at *
  omega

theorem bitString_combined {r : KeyRegisters} (h : r.Fit) :
    bitString 56 r.combined = bitString 28 r.c ++ bitString 28 r.d := by
  have h := bitString_shiftOr (n := 28) (r.c.setWidth 64) h.wide (by decide)
  rwa [bitString_setWidth _ (by decide), bitString_setWidth _ (by decide)] at h

theorem getLsbD_initialRegisters_c (key : U64) {j : Nat} (hj : j < 28) :
    (initialRegisters key).c.getLsbD j = (permute key desPc1).getLsbD (28 + j) := by
  have hj32 : j < 32 := by omega
  have hj64 : j < 64 := by omega
  simp [initialRegisters, getLsbD_halfMask, hj, hj32, hj64]

theorem getLsbD_initialRegisters_d (key : U64) {j : Nat} (hj : j < 28) :
    (initialRegisters key).d.getLsbD j = (permute key desPc1).getLsbD j := by
  have hj32 : j < 32 := by omega
  have hj64 : j < 64 := by omega
  simp [initialRegisters, getLsbD_halfMask, hj, hj32, hj64]

/-- The two starting registers are the halves of PC-1 of the key. -/
theorem bitString_initialRegisters (key : U64) :
    bitString 28 (initialRegisters key).c ++ bitString 28 (initialRegisters key).d =
      bitString 56 (permute key desPc1) := by
  apply List.ext_getElem (by simp)
  intro i h1 h2
  rw [length_bitString] at h2
  rw [getElem_bitString]
  by_cases hi : i < 28
  · rw [List.getElem_append_left (by simpa using hi), getElem_bitString]
    have he : 28 + (28 - (i + 1)) = 56 - (i + 1) := by omega
    rw [msbBit, getLsbD_initialRegisters_c key (by omega), he, msbBit]
  · rw [List.getElem_append_right (by simpa using hi), getElem_bitString]
    have he : 28 - (i - 28 + 1) = 56 - (i + 1) := by omega
    rw [msbBit, length_bitString, getLsbD_initialRegisters_d key (by omega), he, msbBit]

/-- `DES_SHIFTS[0] + ... + DES_SHIFTS[n - 1]`. -/
def cumulativeShift (n : Nat) : Nat := (desShifts.toList.take n).sum

theorem cumulativeShift_succ (n : Nat) (hn : n < 16) :
    cumulativeShift (n + 1) = cumulativeShift n + desShifts[n] := by
  unfold cumulativeShift
  rw [List.take_succ_eq_append_getElem (by simpa using hn), List.sum_append]
  simp

/-- Closed form of the registers: the starting strings rotated by the summed shifts. -/
theorem bitString_registersAfter (key : U64) (n : Nat) (hn : n ≤ 16) :
    bitString 28 (registersAfter key n hn).c =
        (bitString 28 (initialRegisters key).c).rotate (cumulativeShift n) ∧
      bitString 28 (registersAfter key n hn).d =
        (bitString 28 (initialRegisters key).d).rotate (cumulativeShift n) := by
  induction n with
  | zero => simp [registersAfter, cumulativeShift]
  | succ n ih =>
    obtain ⟨hc, hd⟩ := ih (by omega)
    have hfit := registersAfter_fit key n (by omega)
    have ha : desShifts[n] ≤ 28 := by
      have := desShifts_one_or_two n hn
      omega
    constructor
    · simp only [registersAfter, KeyRegisters.rotate]
      rw [bitString_rotateLeft28 hfit.c ha, hc, List.rotate_rotate, cumulativeShift_succ n hn]
    · simp only [registersAfter, KeyRegisters.rotate]
      rw [bitString_rotateLeft28 hfit.d ha, hd, List.rotate_rotate, cumulativeShift_succ n hn]

/-! ## The closed form -/

/-- The state of the loop past its first `n` rounds. -/
def scheduleAfter (key : U64) (n : Nat) (hn : n ≤ 16) : ScheduleState :=
  Nat.fold n (fun round h s => scheduleRound s round (by omega))
    ⟨initialRegisters key, Vector.replicate 16 0#64⟩

theorem scheduleAfter_registers (key : U64) (n : Nat) (hn : n ≤ 16) :
    (scheduleAfter key n hn).registers = registersAfter key n hn := (schedule_loop key n hn).1

/-- The shifts of all sixteen rounds make one full turn. -/
theorem cumulativeShift_sixteen : cumulativeShift 16 = 28 := by decide

/-- The registers are determined by their strings. -/
theorem KeyRegisters.Fit.eq {r s : KeyRegisters} (hr : r.Fit) (hs : s.Fit)
    (hc : bitString 28 r.c = bitString 28 s.c) (hd : bitString 28 r.d = bitString 28 s.d) :
    r = s := by
  have hc' := bitString_inj hr.c hs.c hc
  have hd' := bitString_inj hr.d hs.d hd
  cases r
  cases s
  simp_all

theorem registersAfter_sixteen (key : U64) :
    registersAfter key 16 (by decide) = initialRegisters key := by
  obtain ⟨hc, hd⟩ := bitString_registersAfter key 16 (by decide)
  have hturn : ∀ x : U32, (bitString 28 x).rotate (cumulativeShift 16) = bitString 28 x := by
    intro x
    rw [cumulativeShift_sixteen]
    simpa using List.rotate_length (bitString 28 x)
  rw [hturn] at hc hd
  exact (registersAfter_fit key 16 (by decide)).eq (initialRegisters_fit key) hc hd

/-- Put back together, the starting registers are PC-1 of the key. -/
theorem combined_initialRegisters (key : U64) :
    (initialRegisters key).combined = permute key desPc1 := by
  have hfit := initialRegisters_fit key
  have hcombined : Fits 56 (initialRegisters key).combined := by
    have hc : Fits 28 ((initialRegisters key).c.setWidth 64) := by
      have := hfit.c
      simp only [Fits, BitVec.toNat_setWidth] at *
      omega
    exact fits_shiftOr hc hfit.wide
  apply bitString_inj hcombined (fits_permute key desPc1)
  rw [bitString_combined hfit, bitString_initialRegisters]

/-- Every round of the schedule in closed form: the registers are the halves of PC-1
turned by the shifts so far, the subkey is PC-2 of both, and sixteen rounds bring the
registers back to where they began. -/
theorem key_schedule_closed_form (key : U64) :
    bitString 28 (initialRegisters key).c ++ bitString 28 (initialRegisters key).d =
      bitString 56 (permute key desPc1) ∧
    (∀ n (hn : n ≤ 16), let r := (scheduleAfter key n hn).registers
      Fits 28 r.c ∧ Fits 28 r.d ∧
      bitString 28 r.c = (bitString 28 (initialRegisters key).c).rotate (cumulativeShift n % 28) ∧
      bitString 28 r.d =
        (bitString 28 (initialRegisters key).d).rotate (cumulativeShift n % 28)) ∧
    (∀ i (hi : i < 16), let r := (scheduleAfter key (i + 1) hi).registers
      bitString 56 r.combined = bitString 28 r.c ++ bitString 28 r.d ∧
      (desGenerateRoundKeys key)[i] = permute r.combined desPc2 ∧
      Fits 48 (desGenerateRoundKeys key)[i]) ∧
    (scheduleAfter key 16 (by decide)).registers = initialRegisters key ∧
    (desGenerateRoundKeys key)[15] = permute (permute key desPc1) desPc2 := by
  have hmod : ∀ (x : U32) (n : Nat), (bitString 28 x).rotate (n % 28) =
      (bitString 28 x).rotate n := by
    intro x n
    simpa using List.rotate_mod (bitString 28 x) n
  refine ⟨bitString_initialRegisters key, ?_, ?_, ?_, ?_⟩
  · intro n hn
    have hfit := registersAfter_fit key n hn
    obtain ⟨hc, hd⟩ := bitString_registersAfter key n hn
    simp only [scheduleAfter_registers, hmod]
    exact ⟨hfit.c, hfit.d, hc, hd⟩
  · intro i hi
    simp only [scheduleAfter_registers]
    exact ⟨bitString_combined (registersAfter_fit key (i + 1) hi), roundKey_eq key i hi,
      fits_roundKey key i hi⟩
  · rw [scheduleAfter_registers, registersAfter_sixteen]
  · rw [roundKey_eq key 15 (by decide), registersAfter_sixteen, combined_initialRegisters]

end DesKeySchedule
