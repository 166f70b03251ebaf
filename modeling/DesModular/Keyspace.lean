import DesModular.DesBlock

/-!
# Key spaces

`des_keyspace.c`: a candidate of `n` bits below a fixed prefix is spread over the
eight bytes of a key, seven bits a byte, with odd parity in each low bit.
-/
namespace Keyspace

open MachineWord DesPermute DesTables DesKeySchedule DesBlock

/-- `1` to `DES_KEYSPACE_MAX_BITS` low bits vary. -/
structure DesKeyspace where
  unknownBits : Nat
  fixedPrefix : U64
  one_le : 1 ≤ unknownBits
  le_max : unknownBits ≤ 32

def desKeyspaceSize (space : DesKeyspace) : U64 := 1#64 <<< space.unknownBits

def effectiveMask : U64 := (1#64 <<< 56) - 1#64

/-- `data` of one byte of the key. -/
def keyByteData (effectiveBits : U64) (byte : Nat) : U64 :=
  (effectiveBits >>> (56 - 7 * (byte + 1))) &&& 0x7F#64

/-- The loop `ones += (data >> bit) & 1`. -/
def onesBelow (data : U64) (bits : Nat) : Nat :=
  Nat.fold bits (fun bit _ ones => ones + ((data >>> bit) &&& 1#64).toNat) 0

def parityBit (data : U64) : U64 := if onesBelow data 7 % 2 = 0 then 1#64 else 0#64

def desKeyWithParity (effectiveBits : U64) : U64 :=
  let effectiveBits := effectiveBits &&& effectiveMask
  Nat.fold 8 (fun byte _ key =>
    let data := keyByteData effectiveBits byte
    (key <<< 8) ||| (data <<< 1) ||| parityBit data) 0#64

def candidateMask (space : DesKeyspace) : U64 := (1#64 <<< space.unknownBits) - 1#64

def desKeyspaceKey (space : DesKeyspace) (candidate : U64) : U64 :=
  let effective := (space.fixedPrefix <<< space.unknownBits) |||
    (candidate &&& candidateMask space)
  desKeyWithParity effective

/-! ## The bits of a generated key -/

theorem getLsbD_effectiveMask (j : Nat) : effectiveMask.getLsbD j = decide (j < 56) := by
  have h : effectiveMask = BitVec.ofNat 64 (2 ^ 56 - 1) := by decide
  rw [h, getLsbD_mask (by decide)]

theorem getLsbD_dataMask (j : Nat) : (0x7F#64).getLsbD j = decide (j < 7) := by
  have h : (0x7F#64) = BitVec.ofNat 64 (2 ^ 7 - 1) := by decide
  rw [h, getLsbD_mask (by decide)]

theorem fits_keyByteData (effectiveBits : U64) (byte : Nat) :
    Fits 7 (keyByteData effectiveBits byte) := fits_and _ (by decide)

theorem getLsbD_keyByteData (effectiveBits : U64) (byte : Nat) {j : Nat} (hj : j < 7) :
    (keyByteData effectiveBits byte).getLsbD j =
      effectiveBits.getLsbD (56 - 7 * (byte + 1) + j) := by
  rw [keyByteData, BitVec.getLsbD_and, getLsbD_dataMask, decide_eq_true hj, Bool.and_true,
    BitVec.getLsbD_ushiftRight]

theorem fits_parityBit (data : U64) : Fits 1 (parityBit data) := by
  rw [parityBit]
  split <;> decide

/-- One byte of the key: seven data bits above the parity bit. -/
def keyByte (effectiveBits : U64) (byte : Nat) : U64 :=
  (keyByteData effectiveBits byte <<< 1) ||| parityBit (keyByteData effectiveBits byte)

theorem fits_keyByte (effectiveBits : U64) (byte : Nat) : Fits 8 (keyByte effectiveBits byte) :=
  fits_shiftOr (fits_keyByteData effectiveBits byte) (fits_parityBit _)

theorem desKeyWithParity_eq (effectiveBits : U64) : desKeyWithParity effectiveBits =
    accumulate 8 8 (fun byte _ => keyByte (effectiveBits &&& effectiveMask) byte) := by
  simp only [desKeyWithParity, accumulate, keyByte, BitVec.or_assoc]

/-- Byte `group` of a generated key, counted from the low end. -/
theorem getLsbD_desKeyWithParity (effectiveBits : U64) {group r : Nat} (hg : group < 8)
    (hr : r < 8) : (desKeyWithParity effectiveBits).getLsbD (8 * group + r) =
      (keyByte (effectiveBits &&& effectiveMask) (7 - group)).getLsbD r := by
  have h := getLsbD_accumulate 8 8 (fun byte _ => keyByte (effectiveBits &&& effectiveMask) byte)
    (fun _ _ => fits_keyByte _ _) (by decide) (7 - group) (by omega) r hr
  have hindex : (8 - 1 - (7 - group)) * 8 + r = 8 * group + r := by omega
  rw [desKeyWithParity_eq, ← hindex]
  exact h

/-- The seven data bits of a byte are seven of the effective bits. -/
theorem getLsbD_dataBit (effectiveBits : U64) {group j : Nat} (hg : group < 8) (hj : j < 7) :
    (desKeyWithParity effectiveBits).getLsbD (8 * group + (j + 1)) =
      effectiveBits.getLsbD (7 * group + j) := by
  have hindex : 56 - 7 * (7 - group + 1) + j = 7 * group + j := by omega
  have hin : 7 * group + j < 56 := by omega
  rw [getLsbD_desKeyWithParity effectiveBits hg (by omega), keyByte, Nat.add_comm j 1,
    getLsbD_shiftOr_high (fits_parityBit _) _ (by omega), getLsbD_keyByteData _ _ hj, hindex,
    BitVec.getLsbD_and, getLsbD_effectiveMask, decide_eq_true hin, Bool.and_true]

/-! ## Parity -/

/-- Every byte of a key has an odd number of ones. -/
def OddParity (key : U64) : Prop :=
  ∀ byte < 8, (List.range 8).countP (fun r => key.getLsbD (8 * byte + r)) % 2 = 1

instance (key : U64) : Decidable (OddParity key) :=
  inferInstanceAs (Decidable (∀ byte < 8, _ = 1))

theorem onesBelow_eq (data : U64) (bits : Nat) :
    onesBelow data bits = (List.range bits).countP data.getLsbD := by
  induction bits with
  | zero => rfl
  | succ bits ih =>
    have hbit : ((data >>> bits) &&& 1#64).toNat = (data.getLsbD bits).toNat := by
      rw [BitVec.and_one_eq_setWidth_ofBool_getLsbD, BitVec.getLsbD_ushiftRight, Nat.add_zero]
      cases data.getLsbD bits <;> rfl
    rw [onesBelow, Nat.fold_succ, ← onesBelow, ih, hbit, List.range_succ, List.countP_append,
      List.countP_singleton]
    cases data.getLsbD bits <;> rfl

/-- The parity bit makes the number of ones of its byte odd. -/
theorem countP_keyByte (effectiveBits : U64) (byte : Nat) :
    (List.range 8).countP (keyByte effectiveBits byte).getLsbD % 2 = 1 := by
  have hdata : (List.range 7).countP (fun j => (keyByte effectiveBits byte).getLsbD (j + 1)) =
      onesBelow (keyByteData effectiveBits byte) 7 := by
    rw [onesBelow_eq]
    apply List.countP_congr
    intro j hj
    have hlt := List.mem_range.mp hj
    rw [keyByte, Nat.add_comm j 1, getLsbD_shiftOr_high (fits_parityBit _) _ (by omega)]
  have hparity : (keyByte effectiveBits byte).getLsbD 0 =
      decide (onesBelow (keyByteData effectiveBits byte) 7 % 2 = 0) := by
    rw [keyByte, getLsbD_shiftOr_low _ _ (by decide), parityBit]
    split
    next h => rw [decide_eq_true h]; rfl
    next h => rw [decide_eq_false h]; rfl
  rw [List.range_succ_eq_map, List.countP_cons, List.countP_map]
  simp only [Function.comp_def, Nat.succ_eq_add_one, hdata, hparity, decide_eq_true_iff]
  split <;> omega

theorem oddParity_desKeyWithParity (effectiveBits : U64) :
    OddParity (desKeyWithParity effectiveBits) := by
  intro byte hbyte
  have hbits :
      (List.range 8).countP (fun r => (desKeyWithParity effectiveBits).getLsbD (8 * byte + r)) =
        (List.range 8).countP (keyByte (effectiveBits &&& effectiveMask) (7 - byte)).getLsbD := by
    apply List.countP_congr
    intro r hr
    rw [getLsbD_desKeyWithParity effectiveBits hbyte (List.mem_range.mp hr)]
  rw [hbits]
  exact countP_keyByte _ _

/-! ## Keys that differ only in parity bits -/

def AgreeOffParity (x y : U64) : Prop := ∀ i < 64, i % 8 ≠ 0 → x.getLsbD i = y.getLsbD i

/-- PC-1 reads no parity bit, so the subkeys do not depend on them. -/
theorem desGenerateRoundKeys_congr {x y : U64} (h : AgreeOffParity x y) :
    desGenerateRoundKeys x = desGenerateRoundKeys y := by
  have hpermute : permute x desPc1 = permute y desPc1 := by
    apply permute_congr desPc1 (by decide) (by decide)
    intro i hi
    have hne := desPc1_no_parity i hi
    have hle := desPc1.le_inBits i hi
    have hpos := desPc1.one_le i hi
    exact h _ (by omega) (by omega)
  simp only [desGenerateRoundKeys, initialRegisters, hpermute]

theorem desEncryptBlock_congr {x y : U64} (h : AgreeOffParity x y) (block : U64) :
    desEncryptBlock block x = desEncryptBlock block y := by
  simp only [desEncryptBlock, desRun, desGenerateRoundKeys_congr h]

theorem desDecryptBlock_congr {x y : U64} (h : AgreeOffParity x y) (block : U64) :
    desDecryptBlock block x = desDecryptBlock block y := by
  simp only [desDecryptBlock, desRun, desGenerateRoundKeys_congr h]

/-- The 56 bits of a key that are not parity bits: the top seven of each byte. -/
def effectiveBits (key : U64) : U64 :=
  accumulate 7 8 (fun byte _ => (key >>> (57 - 8 * byte)) &&& 0x7F#64)

theorem getLsbD_effectiveBits (key : U64) {group j : Nat} (hg : group < 8) (hj : j < 7) :
    (effectiveBits key).getLsbD (7 * group + j) = key.getLsbD (8 * group + (j + 1)) := by
  have h := getLsbD_accumulate 7 8 (fun byte _ => (key >>> (57 - 8 * byte)) &&& 0x7F#64)
    (fun _ _ => fits_and _ (by decide)) (by decide) (7 - group) (by omega) j hj
  have hindex : (8 - 1 - (7 - group)) * 7 + j = 7 * group + j := by omega
  have hshift : 57 - 8 * (7 - group) + j = 8 * group + (j + 1) := by omega
  rw [hindex] at h
  rw [effectiveBits, h, BitVec.getLsbD_and, getLsbD_dataMask, decide_eq_true hj, Bool.and_true,
    BitVec.getLsbD_ushiftRight, hshift]

/-- A key is recovered, up to its parity bits, from its effective bits. -/
theorem agreeOffParity_effectiveBits (key : U64) :
    AgreeOffParity (desKeyWithParity (effectiveBits key)) key := by
  intro i hi hparity
  obtain ⟨j, hj⟩ : ∃ j, i % 8 = j + 1 := ⟨i % 8 - 1, by omega⟩
  have hsplit : i = 8 * (i / 8) + (j + 1) := by omega
  rw [hsplit, getLsbD_dataBit _ (by omega) (by omega),
    getLsbD_effectiveBits _ (by omega) (by omega)]

/-! ## Candidates -/

theorem two_pow_unknownBits_le (space : DesKeyspace) : 2 ^ space.unknownBits ≤ 2 ^ 32 :=
  Nat.pow_le_pow_right (by decide) space.le_max

theorem candidateMask_eq (space : DesKeyspace) :
    candidateMask space = BitVec.ofNat 64 (2 ^ space.unknownBits - 1) := by
  have hle := two_pow_unknownBits_le space
  have hpos : 0 < 2 ^ space.unknownBits := Nat.two_pow_pos _
  apply BitVec.eq_of_toNat_eq
  simp only [candidateMask, BitVec.toNat_sub, BitVec.toNat_shiftLeft, BitVec.toNat_ofNat,
    Nat.shiftLeft_eq]
  omega

theorem toNat_desKeyspaceSize (space : DesKeyspace) :
    (desKeyspaceSize space).toNat = 2 ^ space.unknownBits := by
  have hle := two_pow_unknownBits_le space
  simp only [desKeyspaceSize, BitVec.toNat_shiftLeft, BitVec.toNat_ofNat, Nat.shiftLeft_eq]
  omega

/-- The low bits that a space leaves open. -/
theorem toNat_and_candidateMask (space : DesKeyspace) (candidate : U64) :
    (candidate &&& candidateMask space).toNat = candidate.toNat % 2 ^ space.unknownBits := by
  have hle := two_pow_unknownBits_le space
  rw [candidateMask_eq, BitVec.toNat_and, BitVec.toNat_ofNat, Nat.mod_eq_of_lt (by omega),
    Nat.and_two_pow_sub_one_eq_mod]

/-- The key of a candidate depends on its low bits alone. -/
theorem desKeyspaceKey_mod (space : DesKeyspace) {c c' : U64}
    (h : c.toNat % 2 ^ space.unknownBits = c'.toNat % 2 ^ space.unknownBits) :
    desKeyspaceKey space c = desKeyspaceKey space c' := by
  have hlow : c &&& candidateMask space = c' &&& candidateMask space := by
    apply BitVec.eq_of_toNat_eq
    rw [toNat_and_candidateMask, toNat_and_candidateMask, h]
  rw [desKeyspaceKey, hlow, desKeyspaceKey]

/-- A prefix shifted back over the low bits it was cut from. -/
theorem prefix_or_low (space : DesKeyspace) (e : U64) :
    ((e >>> space.unknownBits) <<< space.unknownBits) ||| (e &&& candidateMask space) = e := by
  apply BitVec.eq_of_getLsbD_eq
  intro j hj
  rw [candidateMask_eq, BitVec.getLsbD_or, BitVec.getLsbD_and,
    getLsbD_mask (Nat.le_trans space.le_max (by decide)), BitVec.getLsbD_shiftLeft,
    BitVec.getLsbD_ushiftRight]
  by_cases hlow : j < space.unknownBits
  · simp [hlow]
  · have hback : space.unknownBits + (j - space.unknownBits) = j := by omega
    simp [hlow, hj, hback]

/-- The space of `n` unknown bits under a prefix. -/
def keyspaceWith (n : Nat) (h : 1 ≤ n ∧ n ≤ 32) (fixedPrefix : U64) : DesKeyspace :=
  ⟨n, fixedPrefix, h.1, h.2⟩

/-- The space that holds a key: its low `n` effective bits are unknown. -/
def keyspaceOf (key : U64) (n : Nat) (h : 1 ≤ n ∧ n ≤ 32) : DesKeyspace where
  unknownBits := n
  fixedPrefix := effectiveBits key >>> n
  one_le := h.1
  le_max := h.2

/-- The planted candidate maps to the key, up to parity bits. -/
theorem desKeyspaceKey_planted (key : U64) (n : Nat) (h : 1 ≤ n ∧ n ≤ 32) {candidate : U64}
    (hc : candidate.toNat = (effectiveBits key).toNat % 2 ^ n) :
    desKeyspaceKey (keyspaceOf key n h) candidate = desKeyWithParity (effectiveBits key) := by
  have hlow : candidate &&& candidateMask (keyspaceOf key n h) =
      effectiveBits key &&& candidateMask (keyspaceOf key n h) := by
    apply BitVec.eq_of_toNat_eq
    rw [toNat_and_candidateMask, toNat_and_candidateMask, hc]
    exact Nat.mod_mod _ _
  rw [desKeyspaceKey, hlow]
  exact congrArg desKeyWithParity (prefix_or_low (keyspaceOf key n h) (effectiveBits key))

end Keyspace
