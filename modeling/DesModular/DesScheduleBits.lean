import DesModular.Keyspace

/-!
# Where the bits of the subkeys come from

Every bit of every subkey is one bit of PC-1 of the key, at a place that the tables
alone decide. Between them the sixteen rounds read all 56 places, so the subkeys
determine the key up to its parity bits.
-/
namespace DesScheduleBits

open MachineWord DesPermute DesTables DesKeySchedule DesBlock Keyspace

/-- The place `p` of the two registers, each turned left by `s`. -/
def turn (s p : Nat) : Nat :=
  if p < 28 then (p + s) % 28 else 28 + (p - 28 + s) % 28

theorem turn_lt (s p : Nat) : turn s p < 56 := by
  simp only [turn]
  split <;> omega

theorem turn_turn (s t p : Nat) : turn s (turn t p) = turn (t + s) p := by
  simp only [turn]
  split <;> split <;> omega

/-- The place in PC-1 of the key that bit `j + 1` of subkey `i + 1` is read from. -/
def scheduledPosition (i : Fin 16) (j : Fin 48) : Nat :=
  turn (cumulativeShift (i + 1)) (desPc2.position j)

theorem msbBit_combined {r : KeyRegisters} (h : r.Fit) {p : Nat} (hp : p < 56) :
    msbBit 56 r.combined (p + 1) =
      if p < 28 then msbBit 28 r.c (p + 1) else msbBit 28 r.d (p - 28 + 1) := by
  have hbit := getElem_bitString 56 r.combined p (by simpa using hp)
  simp only [bitString_combined h] at hbit
  rw [← hbit]
  by_cases hc : p < 28
  · rw [if_pos hc, List.getElem_append_left (by simpa using hc), getElem_bitString]
  · rw [if_neg hc, List.getElem_append_right (by simpa using hc), getElem_bitString]
    simp

/-- A bit of a register that was turned. -/
theorem msbBit_of_rotate {x y : U32} {s : Nat} (h : bitString 28 x = (bitString 28 y).rotate s)
    {p : Nat} (hp : p < 28) : msbBit 28 x (p + 1) = msbBit 28 y ((p + s) % 28 + 1) := by
  have hbit := getElem_bitString 28 x p (by simpa using hp)
  simp only [h, List.getElem_rotate, getElem_bitString, length_bitString] at hbit
  exact hbit.symm

/-- After `n` rounds the registers hold the bits of PC-1, turned by the shifts so far. -/
theorem msbBit_registersAfter (key : U64) (n : Nat) (hn : n ≤ 16) {p : Nat} (hp : p < 56) :
    msbBit 56 (registersAfter key n hn).combined (p + 1) =
      msbBit 56 (permute key desPc1) (turn (cumulativeShift n) p + 1) := by
  obtain ⟨hc, hd⟩ := bitString_registersAfter key n hn
  rw [← combined_initialRegisters, msbBit_combined (registersAfter_fit key n hn) hp, turn]
  by_cases hleft : p < 28
  · have hlt : (p + cumulativeShift n) % 28 < 28 := Nat.mod_lt _ (by decide)
    rw [if_pos hleft, if_pos hleft, msbBit_of_rotate hc hleft,
      msbBit_combined (initialRegisters_fit key) (by omega), if_pos hlt]
  · have hlt : (p - 28 + cumulativeShift n) % 28 < 28 := Nat.mod_lt _ (by decide)
    rw [if_neg hleft, if_neg hleft, msbBit_of_rotate hd (by omega),
      msbBit_combined (initialRegisters_fit key) (by omega), if_neg (by omega),
      Nat.add_sub_cancel_left]

/-- One bit of one subkey, as a bit of PC-1 of the key. -/
theorem msbBit_roundKey (key : U64) (i : Fin 16) (j : Fin 48) :
    msbBit 48 (desGenerateRoundKeys key)[i] (j + 1) =
      msbBit 56 (permute key desPc1) (scheduledPosition i j + 1) := by
  have hkey := roundKey_eq key i i.isLt
  have hplace := desPc2.position_succ j
  simp only [Fin.getElem_fin] at hkey hplace ⊢
  rw [hkey, msbBit_permute _ desPc2 (by decide) (by decide) j j.isLt, ← hplace,
    msbBit_registersAfter key (i + 1) i.isLt (desPc2.position j).isLt, scheduledPosition]

/-- Subkeys of one round are equal when their bits come from equal bits. -/
theorem roundKey_congr {x y : U64} {i k : Fin 16}
    (h : ∀ j, msbBit 56 (permute x desPc1) (scheduledPosition i j + 1) =
      msbBit 56 (permute y desPc1) (scheduledPosition k j + 1)) :
    (desGenerateRoundKeys x)[i] = (desGenerateRoundKeys y)[k] := by
  apply eq_of_msbBit (fits_roundKey x i i.isLt) (fits_roundKey y k k.isLt)
  intro j hj
  have hbit := h ⟨j, hj⟩
  rwa [← msbBit_roundKey, ← msbBit_roundKey] at hbit

/-! ## The effective bits -/

/-- Each place of PC-1 is read in one of the rounds, though PC-2 skips eight of them in
every single round. -/
theorem exists_scheduledPosition :
    ∀ p : Fin 56, ∃ i : Fin 16, ∃ j : Fin 48, scheduledPosition i j = p := by decide +kernel

/-- Each bit that is not a parity bit has its place in PC-1. -/
theorem exists_pc1_entry : ∀ p : Fin 64, (p.val + 1) % 8 ≠ 0 →
    ∃ i : Fin 56, desPc1.entries[i] = p.val + 1 := by decide +kernel

/-- The subkeys determine PC-1 of the key. -/
theorem permute_desPc1_eq {x y : U64} (h : desGenerateRoundKeys x = desGenerateRoundKeys y) :
    permute x desPc1 = permute y desPc1 := by
  apply eq_of_msbBit (fits_permute _ _) (fits_permute _ _)
  intro p hp
  obtain ⟨i, j, hij⟩ := exists_scheduledPosition ⟨p, hp⟩
  have hplace : scheduledPosition i j = p := hij
  rw [← hplace, ← msbBit_roundKey, ← msbBit_roundKey, h]

theorem agreeOffParity_of_roundKeys {x y : U64}
    (h : desGenerateRoundKeys x = desGenerateRoundKeys y) : AgreeOffParity x y := by
  intro b hb hparity
  obtain ⟨i, hi⟩ := exists_pc1_entry ⟨63 - b, by omega⟩ (by simp only; omega)
  have hbit : ∀ z : U64, msbBit 56 (permute z desPc1) (i + 1) = z.getLsbD b := by
    intro z
    have hentry : 64 - desPc1.entries[i] = b := by
      rw [hi]
      simp only
      omega
    rw [msbBit_permute z desPc1 (by decide) (by decide) i i.isLt, msbBit]
    exact congrArg z.getLsbD hentry
  rw [← hbit, ← hbit, permute_desPc1_eq h]

/-- The seven upper bits of every byte. -/
def effectiveKeyMask : U64 := 0xFEFEFEFEFEFEFEFE#64

theorem getLsbD_effectiveKeyMask :
    ∀ b < 64, effectiveKeyMask.getLsbD b = decide (b % 8 ≠ 0) := by decide +kernel

theorem agreeOffParity_iff (x y : U64) :
    AgreeOffParity x y ↔ x &&& effectiveKeyMask = y &&& effectiveKeyMask := by
  constructor
  · intro h
    apply BitVec.eq_of_getLsbD_eq
    intro b hb
    rw [BitVec.getLsbD_and, BitVec.getLsbD_and, getLsbD_effectiveKeyMask b hb]
    by_cases hparity : b % 8 = 0
    · simp [hparity]
    · simp [hparity, h b hb hparity]
  · intro h b hb hparity
    have hbit := congrArg (fun z => z.getLsbD b) h
    simpa [getLsbD_effectiveKeyMask b hb, hparity] using hbit

theorem xor_and_effectiveKeyMask (key flips : U64) :
    (key ^^^ flips) &&& effectiveKeyMask = key &&& effectiveKeyMask ↔
      flips &&& effectiveKeyMask = 0#64 := by
  have hdistrib : (key ^^^ flips) &&& effectiveKeyMask =
      (key &&& effectiveKeyMask) ^^^ (flips &&& effectiveKeyMask) := by
    apply BitVec.eq_of_getLsbD_eq
    intro b _
    simp only [BitVec.getLsbD_and, BitVec.getLsbD_xor, Bool.and_xor_distrib_right]
  rw [hdistrib]
  constructor
  · intro h
    have hcancel := congrArg (key &&& effectiveKeyMask ^^^ ·) h
    simpa [← BitVec.xor_assoc] using hcancel
  · intro h
    simp [h]

/-- The subkeys depend on the 56 effective bits and on all of them: parity bits never
matter to the cipher, and a change to any effective bits changes some subkey. -/
theorem key_schedule_effective_bits :
    (∀ key key' : U64, desGenerateRoundKeys key = desGenerateRoundKeys key' ↔
      key &&& effectiveKeyMask = key' &&& effectiveKeyMask) ∧
    (∀ key flips : U64, flips &&& effectiveKeyMask = 0#64 → ∀ block,
      desEncryptBlock block (key ^^^ flips) = desEncryptBlock block key ∧
      desDecryptBlock block (key ^^^ flips) = desDecryptBlock block key) ∧
    ∀ key flips : U64, flips &&& effectiveKeyMask ≠ 0#64 →
      ∃ i : Fin 16, (desGenerateRoundKeys (key ^^^ flips))[i] ≠ (desGenerateRoundKeys key)[i] := by
  have hkeys : ∀ key key' : U64, desGenerateRoundKeys key = desGenerateRoundKeys key' ↔
      key &&& effectiveKeyMask = key' &&& effectiveKeyMask := fun key key' =>
    ⟨fun h => (agreeOffParity_iff key key').mp (agreeOffParity_of_roundKeys h),
      fun h => desGenerateRoundKeys_congr ((agreeOffParity_iff key key').mpr h)⟩
  refine ⟨hkeys, ?_, ?_⟩
  · intro key flips hparity block
    have hagree : AgreeOffParity (key ^^^ flips) key :=
      (agreeOffParity_iff _ _).mpr ((xor_and_effectiveKeyMask key flips).mpr hparity)
    exact ⟨desEncryptBlock_congr hagree block, desDecryptBlock_congr hagree block⟩
  · intro key flips heffective
    by_contra hsame
    push Not at hsame
    have hequal : desGenerateRoundKeys (key ^^^ flips) = desGenerateRoundKeys key :=
      Vector.ext (fun i hi => hsame ⟨i, hi⟩)
    exact heffective ((xor_and_effectiveKeyMask key flips).mp ((hkeys _ _).mp hequal))

/-- All parity bits of a key flipped at once, and one bit that is not a parity bit. -/
theorem key_schedule_effective_bits_flips :
    desEncryptBlock 0#64 (0x133457799BBCDFF1#64 ^^^ 0x0101010101010101#64) =
        desEncryptBlock 0#64 0x133457799BBCDFF1#64 ∧
      ∃ i : Fin 16, (desGenerateRoundKeys (0x133457799BBCDFF1#64 ^^^ 2#64))[i] ≠
        (desGenerateRoundKeys 0x133457799BBCDFF1#64)[i] := by
  obtain ⟨-, hparity, heffective⟩ := key_schedule_effective_bits
  exact ⟨(hparity 0x133457799BBCDFF1#64 0x0101010101010101#64 (by decide) 0#64).1,
    heffective 0x133457799BBCDFF1#64 2#64 (by decide)⟩

end DesScheduleBits
