import DesModular.Fips46
import DesModular.DesBlock

/-!
# The code computes the standard

Every word of the code is read as the string of its register bits. Table steps,
the masked rotations, the S-box loop and the rounds each become the standard's
operation on strings, and the network is mapped round by round.
-/
namespace FipsRefinement

open MachineWord DesPermute DesTables DesKeySchedule DesFeistel DesBlock FeistelNetwork

/-! ## Tables -/

theorem entries_desIp : desIp.entries.toList = Fips46.ip := by decide +kernel
theorem entries_desIpInv : desIpInv.entries.toList = Fips46.ipInverse := by decide +kernel
theorem entries_desE : desE.entries.toList = Fips46.e := by decide +kernel
theorem entries_desP : desP.entries.toList = Fips46.p := by decide +kernel
theorem entries_desPc1 : desPc1.entries.toList = Fips46.pc1C ++ Fips46.pc1D := by decide +kernel
theorem entries_desPc2 : desPc2.entries.toList = Fips46.pc2 := by decide +kernel
theorem entries_desShifts : desShifts.toList = Fips46.leftShifts := by decide +kernel

theorem entries_desSbox : ∀ box (hb : box < 8) row (hr : row < 4) col (hc : col < 16),
    ((Fips46.sTables.getD box []).getD row []).getD col 0 = desSbox[box][row][col] := by
  decide +kernel

/-! ## Table steps -/

theorem bit_bitString {w : Nat} (width : Nat) (x : BitVec w) {i : Nat} (h1 : 1 ≤ i)
    (hi : i ≤ width) : Fips46.bit (bitString width x) i = msbBit width x i := by
  have hlt : i - 1 < (bitString width x).length := by rw [length_bitString]; omega
  have he : i - 1 + 1 = i := by omega
  rw [Fips46.bit, List.getD_eq_getElem?_getD, List.getElem?_eq_getElem hlt, Option.getD_some,
    getElem_bitString, he]

/-- A table step of the code is the standard's selection on strings. -/
theorem bitString_permute_select {inBits outBits : Nat} (x : U64)
    (table : BitTable inBits outBits) (hin : inBits ≤ 64) (hout : outBits ≤ 64) :
    bitString outBits (permute x table) =
      Fips46.select table.entries.toList (bitString inBits x) := by
  rw [bitString_permute x table hin hout, Fips46.select]
  apply List.map_congr_left
  intro entry hentry
  obtain ⟨i, hi, rfl⟩ := List.mem_iff_getElem.mp hentry
  have hlt : i < outBits := by simpa using hi
  exact (bit_bitString inBits x (table.one_le i hlt) (table.le_inBits i hlt)).symm

/-! ## The S-boxes -/

theorem getLsbD_sboxChunk (x : U64) {box r : Nat} (hb : box < 8) (hr : r < 6) :
    (sboxChunk x box).getLsbD r = msbBit 48 x (6 * box + (6 - r)) := by
  have hmask : (0x3F#64).getLsbD r = true := by
    have h : (0x3F#64) = BitVec.ofNat 64 (2 ^ 6 - 1) := by decide
    rw [h, getLsbD_mask (by decide), decide_eq_true hr]
  have he : 48 - 6 - box * 6 + r = 48 - (6 * box + (6 - r)) := by omega
  simp only [sboxChunk, BitVec.getLsbD_setWidth, BitVec.getLsbD_and, BitVec.getLsbD_ushiftRight,
    hmask, msbBit, he]
  have hr8 : r < 8 := by omega
  simp [hr8]

/-- Box `j` reads bits `6j - 5` to `6j` of the 48-bit string. -/
theorem bitString_sboxChunk (x : U64) {box : Nat} (hb : box < 8) :
    bitString 6 (sboxChunk x box) = Fips46.sixBits (box + 1) (bitString 48 x) := by
  apply List.map_congr_left
  intro i hi
  have hlt : i < 6 := List.mem_range.mp hi
  have he : 6 * (box + 1) - 5 + i = 6 * box + (6 - (6 - (i + 1))) := by omega
  rw [bit_bitString 48 x (by omega) (by omega), msbBit, getLsbD_sboxChunk x hb (by omega), he]

/-- The row is the number written by the outer bits of the chunk. -/
theorem sboxRow_eq : ∀ chunk : U8, sboxRow chunk =
    Fips46.number [Fips46.bit (bitString 6 chunk) 1, Fips46.bit (bitString 6 chunk) 6] := by
  decide +kernel

/-- The column is the number written by the four inner bits. -/
theorem sboxCol_eq : ∀ chunk : U8, sboxCol chunk =
    Fips46.number [Fips46.bit (bitString 6 chunk) 2, Fips46.bit (bitString 6 chunk) 3,
      Fips46.bit (bitString 6 chunk) 4, Fips46.bit (bitString 6 chunk) 5] := by
  decide +kernel

theorem bitString_fourBits : ∀ n < 16, bitString 4 (BitVec.ofNat 32 n) = Fips46.fourBits n := by
  decide +kernel

theorem bitString_sboxOutput (box : Nat) (hb : box < 8) (chunk : U8) :
    bitString 4 (BitVec.ofNat 32 (sboxOutput box hb chunk)) =
      Fips46.selection (box + 1) (bitString 6 chunk) := by
  have hentry := entries_desSbox box hb _ (sboxRow_lt chunk) _ (sboxCol_lt chunk)
  rw [bitString_fourBits _ (sboxOutput_lt box hb chunk), sboxOutput, ← hentry, sboxRow_eq,
    sboxCol_eq]
  rfl

theorem flatMap_range {α : Type} (n : Nat) (g : Nat → List α) :
    (List.range n).flatMap g = (List.ofFn (fun i : Fin n => g i)).flatten := by
  rw [List.flatMap_def]
  congr 1
  apply List.ext_getElem (by simp)
  intro i _ _
  simp

/-- The eight outputs are written one after the other. -/
theorem bitString_substitute (x : U64) :
    bitString 32 (substitute x) = (List.range 8).flatMap
      (fun i => Fips46.selection (i + 1) (Fips46.sixBits (i + 1) (bitString 48 x))) := by
  have h := bitString_accumulate 4 8
    (fun box hb => BitVec.ofNat 32 (sboxOutput box hb (sboxChunk x box))) (fits_sboxOutput x)
    (by decide)
  rw [flatMap_range]
  refine h.trans ?_
  congr 2
  funext box
  rw [bitString_sboxOutput, bitString_sboxChunk x box.isLt]

/-! ## The round function -/

/-- Only the low 48 bits of a subkey enter the cipher. -/
theorem bitString_subkeyMask (k : U64) : bitString 48 (k &&& subkeyMask) = bitString 48 k := by
  apply List.map_congr_left
  intro i hi
  have hlt : i < 48 := List.mem_range.mp hi
  have hmask : subkeyMask.getLsbD (48 - (i + 1)) = true := by
    have h : subkeyMask = BitVec.ofNat 64 (2 ^ 48 - 1) := by decide
    rw [h, getLsbD_mask (by decide), decide_eq_true (by omega)]
  simp only [msbBit, BitVec.getLsbD_and, hmask, Bool.and_true]

theorem bitString_desFeistelF (r : U32) (k : U64) :
    bitString 32 (desFeistelF r k) = Fips46.f (bitString 32 r) (bitString 48 k) := by
  have hexpand : bitString 48 (permute (r.setWidth 64) desE) =
      Fips46.select Fips46.e (bitString 32 r) := by
    rw [bitString_permute_select _ desE (by decide) (by decide), entries_desE,
      bitString_setWidth r (by decide)]
  have hmixed : bitString 48 (permute (r.setWidth 64) desE ^^^ (k &&& subkeyMask)) =
      Fips46.add (bitString 48 k) (Fips46.select Fips46.e (bitString 32 r)) := by
    rw [BitVec.xor_comm, bitString_xor, bitString_subkeyMask, hexpand]
    rfl
  simp only [desFeistelF, Fips46.f]
  rw [bitString_setWidth _ (by decide), bitString_permute_select _ desP (by decide) (by decide),
    entries_desP, bitString_setWidth _ (by decide), bitString_substitute, hmixed]

theorem bitString_round (a b : U32) (k : U64) :
    bitString 32 (a ^^^ desFeistelF b k) =
      Fips46.add (bitString 32 a) (Fips46.f (bitString 32 b) (bitString 48 k)) := by
  rw [bitString_xor, bitString_desFeistelF]
  rfl

/-! ## The key schedule -/

theorem totalShift_eq (n : Nat) : Fips46.totalShift n = cumulativeShift n := by
  rw [Fips46.totalShift, cumulativeShift, entries_desShifts]

/-- The summed shifts never exceed one full turn of a register. -/
theorem totalShift_le : ∀ n ≤ 16, Fips46.totalShift n ≤ 28 := by decide +kernel

theorem shiftLeft_eq_rotate {s : List Bool} {n : Nat} (hs : s.length = 28) (hn : n ≤ 28) :
    Fips46.shiftLeft s n = s.rotate n := by
  rw [List.rotate_eq_drop_append_take (by omega)]
  rfl

/-- The starting registers are the two parts of permuted choice 1. -/
theorem bitString_registers (key : U64) :
    bitString 28 (initialRegisters key).c = Fips46.select Fips46.pc1C (bitString 64 key) ∧
      bitString 28 (initialRegisters key).d = Fips46.select Fips46.pc1D (bitString 64 key) := by
  have h := bitString_initialRegisters key
  rw [bitString_permute_select key desPc1 (by decide) (by decide), entries_desPc1, Fips46.select,
    List.map_append] at h
  have hlen : (Fips46.pc1C.map (Fips46.bit (bitString 64 key))).length = 28 := by
    rw [List.length_map]
    rfl
  exact List.append_inj h ((length_bitString 28 _).trans hlen.symm)

theorem bitString_roundKey (key : U64) (i : Nat) (hi : i < 16) :
    bitString 48 (desGenerateRoundKeys key)[i] =
      Fips46.keyBlock (bitString 64 key) (i + 1) := by
  obtain ⟨hc, hd⟩ := bitString_registersAfter key (i + 1) (by omega)
  obtain ⟨hc0, hd0⟩ := bitString_registers key
  have hshift := totalShift_le (i + 1) (by omega)
  rw [roundKey_eq, bitString_permute_select _ desPc2 (by decide) (by decide), entries_desPc2,
    bitString_combined (registersAfter_fit key (i + 1) (by omega)), hc, hd, ← totalShift_eq,
    ← shiftLeft_eq_rotate (by simp) hshift, ← shiftLeft_eq_rotate (by simp) hshift, hc0, hd0]
  rfl

theorem bitString_roundKeys (key : U64) :
    (desGenerateRoundKeys key).toList.map (bitString 48) =
      Fips46.keyBlocks (bitString 64 key) := by
  apply List.ext_getElem (by simp [Fips46.keyBlocks])
  intro i h1 h2
  have hi : i < 16 := by simpa using h1
  simpa [Fips46.keyBlocks] using bitString_roundKey key i hi

/-! ## The block transform -/

theorem bitString_splitBlock (x : U64) :
    (splitBlock x).map (bitString 32) (bitString 32) =
      ((bitString 64 x).take 32, (bitString 64 x).drop 32) := by
  have h := bitString_joinBlock (splitBlock x)
  rw [joinBlock_splitBlock] at h
  rw [h, List.take_left' (by simp), List.drop_left' (by simp)]
  rfl

theorem bitString_desProcessBlock (block : U64) (roundKeys : Vector U64 16)
    (order : DesKeyOrder) :
    bitString 64 (desProcessBlock block roundKeys order) =
      Fips46.compute ((orderedKeys roundKeys order).map (bitString 48)) (bitString 64 block) := by
  have hnetwork := network_map (bitString 32) (bitString 48) bitString_round
    (orderedKeys roundKeys order) (splitBlock (permute block desIp))
  have hinput : bitString 64 (permute block desIp) =
      Fips46.select Fips46.ip (bitString 64 block) := by
    rw [bitString_permute_select block desIp (by decide) (by decide), entries_desIp]
  rw [bitString_splitBlock, hinput] at hnetwork
  rw [desProcessBlock_eq, bitString_permute_select _ desIpInv (by decide) (by decide),
    entries_desIpInv, bitString_joinBlock]
  simp only [Fips46.compute, hnetwork]
  rfl

/-- On every block and key the code computes the standard's enciphering and
deciphering computations, bit for bit. -/
theorem block_refines_fips (block key : U64) :
    bitString 64 (desEncryptBlock block key) =
        Fips46.encipher (bitString 64 block) (bitString 64 key) ∧
      bitString 64 (desDecryptBlock block key) =
        Fips46.decipher (bitString 64 block) (bitString 64 key) := by
  have hkeys := bitString_roundKeys key
  constructor
  · rw [Fips46.encipher, ← hkeys]
    exact bitString_desProcessBlock block (desGenerateRoundKeys key) .forward
  · rw [Fips46.decipher, ← hkeys, ← List.map_reverse]
    exact bitString_desProcessBlock block (desGenerateRoundKeys key) .reverse

end FipsRefinement
