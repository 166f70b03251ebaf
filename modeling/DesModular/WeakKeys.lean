import DesModular.DesScheduleBits

/-!
# Reversed schedules and weak keys

A key whose subkeys are those of another key in reverse order undoes it. A key is its
own reversal exactly when both starting registers are constant, and then all subkeys
are the same word.
-/
namespace WeakKeys

open MachineWord DesPermute DesTables DesKeySchedule DesBlock DesScheduleBits

/-- The subkeys of one key are those of the other, last one first. -/
def Reverses (key key' : U64) : Prop :=
  ∀ i (h : i < 16), (desGenerateRoundKeys key')[i] = (desGenerateRoundKeys key)[15 - i]

instance (key key' : U64) : Decidable (Reverses key key') :=
  inferInstanceAs (Decidable (∀ i (_ : i < 16), _ = _))

theorem Reverses.toList {key key' : U64} (h : Reverses key key') :
    (desGenerateRoundKeys key').toList = (desGenerateRoundKeys key).toList.reverse := by
  apply List.ext_getElem (by simp)
  intro i h1 h2
  have hi : i < 16 := by simpa using h1
  simpa using h i hi

/-- Encrypting under the one key is decrypting under the other. -/
theorem Reverses.encrypt {key key' : U64} (h : Reverses key key') (block : U64) :
    desEncryptBlock block key' = desDecryptBlock block key := by
  rw [desEncryptBlock, desDecryptBlock, desRun, desRun, desProcessBlock_eq, desProcessBlock_eq,
    orderedKeys, orderedKeys, h.toList]

/-! ## Constant registers -/

/-- All zeros or all ones. -/
def ConstantHalf (half : U32) : Prop := half = 0#32 ∨ half = halfMask

instance (half : U32) : Decidable (ConstantHalf half) := inferInstanceAs (Decidable (_ ∨ _))

theorem constantHalf_iff {half : U32} (h : Fits 28 half) :
    ConstantHalf half ↔ ∀ p < 28, msbBit 28 half (p + 1) = msbBit 28 half 1 := by
  have hmask : ∀ p < 28, msbBit 28 halfMask (p + 1) = true := by
    intro p hp
    have hlt : 28 - (p + 1) < 28 := by omega
    rw [msbBit, getLsbD_halfMask, decide_eq_true hlt]
  constructor
  · rintro (rfl | rfl) p hp
    · simp [msbBit]
    · rw [hmask p hp, hmask 0 (by decide)]
  · intro hsame
    cases hfirst : msbBit 28 half 1 with
    | false =>
      left
      apply eq_of_msbBit h (fits_zero 28)
      intro p hp
      rw [hsame p hp, hfirst]
      simp [msbBit]
    | true =>
      right
      apply eq_of_msbBit h (by decide)
      intro p hp
      rw [hsame p hp, hfirst, hmask p hp]

/-- Both halves of PC-1 of the key are constant. -/
structure WeakKey (key : U64) : Prop where
  c : ConstantHalf (initialRegisters key).c
  d : ConstantHalf (initialRegisters key).d

/-- The place of PC-1 a half begins with. -/
def halfStart (p : Nat) : Nat := if p < 28 then 0 else 28

/-- A key is weak when each place of PC-1 holds the bit its half begins with. -/
theorem weakKey_iff (key : U64) : WeakKey key ↔ ∀ p < 56,
    msbBit 56 (permute key desPc1) (p + 1) =
      msbBit 56 (permute key desPc1) (halfStart p + 1) := by
  have hfit := initialRegisters_fit key
  have hbits : ∀ p < 56, msbBit 56 (permute key desPc1) (p + 1) = if p < 28 then
      msbBit 28 (initialRegisters key).c (p + 1)
      else msbBit 28 (initialRegisters key).d (p - 28 + 1) := by
    intro p hp
    rw [← combined_initialRegisters, msbBit_combined hfit hp]
  constructor
  · rintro ⟨hc, hd⟩ p hp
    rw [constantHalf_iff hfit.c] at hc
    rw [constantHalf_iff hfit.d] at hd
    by_cases hleft : p < 28
    · simp [halfStart, hbits p hp, hbits 0 (by decide), hleft, hc p hleft]
    · simp [halfStart, hbits p hp, hbits 28 (by decide), hleft, hd (p - 28) (by omega)]
  · intro h
    constructor
    · rw [constantHalf_iff hfit.c]
      intro p hp
      have hp56 : p < 56 := by omega
      simpa [halfStart, hbits p hp56, hbits 0 (by decide), hp] using h p hp56
    · rw [constantHalf_iff hfit.d]
      intro p hp
      have hp56 : 28 + p < 56 := by omega
      have hright : ¬28 + p < 28 := by omega
      simpa [halfStart, hbits (28 + p) hp56, hbits 28 (by decide), hright] using h (28 + p) hp56

/-! ## Palindromic schedules -/

/-- Any two neighbouring places of a register are read for the same bit of two subkeys
that a palindrome makes equal. -/
theorem exists_mirrored : ∀ p : Fin 56, ∃ i : Fin 16, ∃ j : Fin 48,
    scheduledPosition i j = turn 1 p ∧ scheduledPosition i.rev j = p := by decide +kernel

theorem neighbour_bit {key : U64} (h : Reverses key key) {p : Nat} (hp : p < 56) :
    msbBit 56 (permute key desPc1) (turn 1 p + 1) =
      msbBit 56 (permute key desPc1) (p + 1) := by
  obtain ⟨i, j, hturned, hplace⟩ := exists_mirrored ⟨p, hp⟩
  have hkeys : (desGenerateRoundKeys key)[i] = (desGenerateRoundKeys key)[i.rev] := by
    have hi : 15 - i.val = i.rev.val := by
      rw [Fin.val_rev]
      omega
    simpa only [Fin.getElem_fin, hi] using h i i.isLt
  rw [← hturned, ← msbBit_roundKey, hkeys, msbBit_roundKey, hplace]

/-- Equal neighbours carry the first bit of each half along its register. -/
theorem weakKey_of_neighbours {key : U64} (h : ∀ p < 56,
    msbBit 56 (permute key desPc1) (turn 1 p + 1) = msbBit 56 (permute key desPc1) (p + 1)) :
    WeakKey key := by
  rw [weakKey_iff]
  intro p hp
  induction p with
  | zero => rfl
  | succ p ih =>
    by_cases hstart : p + 1 = 28
    · rw [hstart]
      rfl
    · have hturn : turn 1 p = p + 1 := by
        simp only [turn]
        split <;> omega
      have hhalf : halfStart (p + 1) = halfStart p := by
        simp only [halfStart]
        split <;> split <;> omega
      rw [← hturn, h p (by omega), ih (by omega), hturn, hhalf]

theorem weakKey_of_reverses {key : U64} (h : Reverses key key) : WeakKey key :=
  weakKey_of_neighbours fun _ hp => neighbour_bit h hp

/-- The register a place belongs to does not change when it turns. -/
theorem halfStart_scheduledPosition (i : Fin 16) (j : Fin 48) :
    halfStart (scheduledPosition i j) = halfStart (desPc2.position j) := by
  simp only [scheduledPosition, turn]
  generalize (desPc2.position j).val = p
  by_cases hleft : p < 28
  · have hlt : (p + cumulativeShift (i + 1)) % 28 < 28 := Nat.mod_lt _ (by decide)
    simp [halfStart, hleft, hlt]
  · simp [halfStart, hleft]

theorem scheduledPosition_lt (i : Fin 16) (j : Fin 48) : scheduledPosition i j < 56 := by
  simp only [scheduledPosition, turn]
  split <;> omega

/-- All subkeys of a weak key are the same. -/
theorem WeakKey.roundKeys {key : U64} (h : WeakKey key) (i k : Nat) (hi : i < 16) (hk : k < 16) :
    (desGenerateRoundKeys key)[i] = (desGenerateRoundKeys key)[k] := by
  rw [weakKey_iff] at h
  apply roundKey_congr (i := ⟨i, hi⟩) (k := ⟨k, hk⟩)
  intro j
  rw [h _ (scheduledPosition_lt ⟨i, hi⟩ j), h _ (scheduledPosition_lt ⟨k, hk⟩ j),
    halfStart_scheduledPosition, halfStart_scheduledPosition]

theorem WeakKey.reverses {key : U64} (h : WeakKey key) : Reverses key key := by
  intro i hi
  exact h.roundKeys i (15 - i) hi (by omega)

/-- Reversed schedules exchange encryption and decryption; a schedule is a palindrome
exactly when both halves of PC-1 are constant, and exactly when all its subkeys
coincide, and then encrypting twice changes nothing. -/
theorem reversed_schedules :
    (∀ key key' : U64, Reverses key key' →
      ∀ block, desEncryptBlock block key' = desDecryptBlock block key) ∧
    ∀ key : U64, (Reverses key key ↔ WeakKey key) ∧
      ((∀ i k (hi : i < 16) (hk : k < 16),
        (desGenerateRoundKeys key)[i] = (desGenerateRoundKeys key)[k]) ↔ WeakKey key) ∧
      (WeakKey key → ∀ block, desEncryptBlock (desEncryptBlock block key) key = block) := by
  refine ⟨fun key key' h block => h.encrypt block, ?_⟩
  intro key
  refine ⟨⟨weakKey_of_reverses, WeakKey.reverses⟩, ⟨?_, WeakKey.roundKeys⟩, ?_⟩
  · intro hsame
    exact weakKey_of_reverses (fun i hi => hsame i (15 - i) hi (by omega))
  · intro hweak block
    rw [hweak.reverses.encrypt (desEncryptBlock block key), desDecryptBlock_encrypt]

/-- A pair of keys with reversed schedules, and a key whose schedule is a palindrome. -/
theorem reversed_schedules_pair :
    desEncryptBlock 0#64 0xFE01FE01FE01FE01#64 = desDecryptBlock 0#64 0x01FE01FE01FE01FE#64 ∧
      desEncryptBlock (desEncryptBlock 0#64 0x0101010101010101#64) 0x0101010101010101#64 =
        0#64 := by
  obtain ⟨hpair, hweak⟩ := reversed_schedules
  have hkey : WeakKey 0x0101010101010101#64 := ⟨by decide +kernel, by decide +kernel⟩
  exact ⟨hpair 0x01FE01FE01FE01FE#64 0xFE01FE01FE01FE01#64 (by decide +kernel) 0#64,
    (hweak 0x0101010101010101#64).2.2 hkey 0#64⟩

end WeakKeys
