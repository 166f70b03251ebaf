import DesModular.DesModesPatterns
import DesModular.DesModesPropagation
import DesModular.KeyEnumeration
import Mathlib.Algebra.Order.BigOperators.Group.List
import Mathlib.Algebra.Order.Ring.Nat

/-!
# The mode experiments

`experiments/modes_experiments.c`: how often the first block repeats in a ciphertext, in
how many blocks and bits two ciphertexts differ, and what one flipped bit of a ciphertext
does to the decrypted text. Key, IVs and text are parameters here, and so is what the local
arrays hold before they are written. A text is the bytes before the zero that ends it. A run
has a result only if every access stays inside its array.
-/
namespace ModesExperiments

open MachineWord ByteOrder BoundedLoop DesModeCalls DesModeBuffers
open DesApi (Size DesStatus)

/-- `BUFFER_BYTES`. -/
def bufferBytes : Nat := 64

/-- `k_key`. -/
def key : Buffer where
  bytes := [0x13#8, 0x34#8, 0x57#8, 0x79#8, 0x9B#8, 0xBC#8, 0xDF#8, 0xF1#8]
  fits := by decide

/-- `k_iv`. -/
def iv : Buffer where
  bytes := [0x11#8, 0x22#8, 0x33#8, 0x44#8, 0x55#8, 0x66#8, 0x77#8, 0x88#8]
  fits := by decide

/-- `k_repeated`: four times `ABCDEFGH`. -/
def repeated : Buffer where
  bytes := (List.replicate 4
    [0x41#8, 0x42#8, 0x43#8, 0x44#8, 0x45#8, 0x46#8, 0x47#8, 0x48#8]).flatten
  fits := by decide

def popcount8 (value : U8) : Option Nat :=
  (whileLoop (fun s : U8 × Nat => s.1 != 0#8)
    (fun s => some (s.1 >>> 1, s.2 + (s.1 &&& 1#8).toNat)) 8 (value, 0)).map Prod.snd

/-- `block_bit_differences(&a[p], &b[q])`. -/
def blockBitDifferences (a : Bytes) (p : Nat) (b : Bytes) (q : Nat) : Option Nat :=
  (List.range 8).foldlM (fun total i => do
    let x ← a[p + i]?
    let y ← b[q + i]?
    let ones ← popcount8 (x ^^^ y)
    pure (total + ones)) 0

/-- The values of `i` in `for (i = start; i < length; i += 8)`. -/
def offsets (start length : Nat) : List Nat := List.range' start ((length - start + 7) / 8) 8

/-- `memcmp(&a[p], &b[q], n) == 0`. -/
def sameBytes (a : Bytes) (p : Nat) (b : Bytes) (q n : Nat) : Option Bool :=
  if p + n ≤ a.length ∧ q + n ≤ b.length then
    some (decide ((a.drop p).take n = (b.drop q).take n))
  else none

def countRepeatedBlocks (data : Bytes) (length : Nat) : Option Nat :=
  (offsets 8 length).foldlM (fun repeats i => do
    let same ← sameBytes data 0 data i 8
    pure (if same then repeats + 1 else repeats)) 0

/-! ## The experiments -/

/-- `array[i] ^= mask`. -/
def flip (b : Buffer) (i : Nat) (mask : U8) : Option Buffer :=
  if i < b.bytes.length then
    some ⟨b.bytes.set i (b.bytes.getD i 0#8 ^^^ mask), by
      rw [List.length_set]
      exact b.fits⟩
  else none

/-- Bits changed in each block, damaged blocks, and bits in total, for ECB and CBC. -/
structure Damage where
  rows : List (Nat × Nat)
  blocks : Nat × Nat
  bits : Nat × Nat
  deriving DecidableEq, Repr

/-- One iteration of the loop over the blocks. -/
def Damage.add (damage : Damage) (inEcb inCbc : Nat) : Damage where
  rows := damage.rows ++ [(inEcb, inCbc)]
  blocks := (if inEcb ≠ 0 then damage.blocks.1 + 1 else damage.blocks.1,
    if inCbc ≠ 0 then damage.blocks.2 + 1 else damage.blocks.2)
  bits := (damage.bits.1 + inEcb, damage.bits.2 + inCbc)

/-- The bits changed in block `i` of a plaintext, or 0 if it was not decrypted. -/
def changedBits (original : Bytes) (plain : Outcome) (i : Nat) : Option Nat :=
  if plain.status = .ok then blockBitDifferences original (i * 8) plain.out.bytes (i * 8)
  else some 0

structure Propagation where
  ecbStatus : DesStatus
  cbcStatus : DesStatus
  damage : Damage
  total : Nat
  deriving DecidableEq, Repr

def experimentErrorPropagation (key iv text : Buffer) (flipByte : Nat) (flipMask : U8)
    (ecb cbc ecbPlain cbcPlain : Buffer) : Option (Option Propagation) := do
  let length := text.bytes.length
  let e ← encryptBuffers .ecb ⟨key, iv, text, ecb⟩ 0#64
  if e.status ≠ .ok then return none
  let c ← encryptBuffers .cbc ⟨key, iv, text, cbc⟩ 0#64
  if c.status ≠ .ok then return none
  let ecb ← flip e.out flipByte flipMask
  let cbc ← flip c.out flipByte flipMask
  let d ← decryptBuffers .ecb ⟨key, iv, ecb.take e.outLen.toNat, ecbPlain⟩ 0#64
  let d' ← decryptBuffers .cbc ⟨key, iv, cbc.take c.outLen.toNat, cbcPlain⟩ 0#64
  let damage ← (List.range (length / 8)).foldlM (fun damage i => do
    let inEcb ← changedBits text.bytes d i
    let inCbc ← changedBits text.bytes d' i
    pure (damage.add inEcb inCbc)) ⟨[], (0, 0), (0, 0)⟩
  return some ⟨d.status, d'.status, damage, length / 8⟩

/-! ## Bits of a block -/

def ones (value : U8) : Nat := (List.range 8).countP value.getLsbD

theorem popcount8_eq (value : U8) : popcount8 value = some (ones value) :=
  KeyEnumeration.onesInByte_eq value

theorem ones_eq_zero_iff (value : U8) : ones value = 0 ↔ value = 0#8 := by
  rw [ones, List.countP_eq_zero]
  constructor
  · intro h
    apply BitVec.eq_of_getLsbD_eq
    intro i hi
    have hbit := h i (List.mem_range.mpr hi)
    simpa using hbit
  · rintro rfl i _
    simp

/-- A fold that adds up. -/
theorem foldl_sum {ι : Type} (f : ι → Nat) (list : List ι) (n : Nat) :
    list.foldl (fun n x => n + f x) n = n + (list.map f).sum := by
  induction list generalizing n with
  | nil => rfl
  | cons x rest ih =>
    rw [List.foldl_cons, ih, List.map_cons, List.sum_cons, Nat.add_assoc]

/-- In how many bits two blocks differ. -/
def bitDifferences (a b : Bytes) : Nat :=
  ((List.range 8).map fun i => ones (a.getD i 0#8 ^^^ b.getD i 0#8)).sum

theorem blockBitDifferences_eq {a b : Bytes} {p q : Nat} (ha : p + 8 ≤ a.length)
    (hb : q + 8 ≤ b.length) : blockBitDifferences a p b q =
      some (bitDifferences ((a.drop p).take 8) ((b.drop q).take 8)) := by
  have hread : ∀ {bytes : Bytes} {o i : Nat}, o + 8 ≤ bytes.length → i < 8 →
      bytes[o + i]? = some (((bytes.drop o).take 8).getD i 0#8) := by
    intro bytes o i hlen hi
    rw [List.getD_eq_getElem?_getD, List.getElem?_take, if_pos hi, List.getElem?_drop,
      List.getElem?_eq_getElem (by omega), Option.getD_some]
  rw [blockBitDifferences, foldlM_eq_some (fun total i => total +
    ones (((a.drop p).take 8).getD i 0#8 ^^^ ((b.drop q).take 8).getD i 0#8)), foldl_sum,
    Nat.zero_add, bitDifferences]
  intro i hi total
  have hlt := List.mem_range.mp hi
  rw [hread ha hlt, hread hb hlt]
  simp only [Option.bind_eq_bind, Option.bind_some, popcount8_eq, Option.pure_def]

theorem bitDifferences_eq_zero_iff {a b : Bytes} (ha : a.length = 8) (hb : b.length = 8) :
    bitDifferences a b = 0 ↔ a = b := by
  rw [bitDifferences, List.sum_eq_zero_iff]
  simp only [List.mem_map, List.mem_range, forall_exists_index, and_imp,
    forall_apply_eq_imp_iff₂, ones_eq_zero_iff, BitVec.xor_eq_zero_iff]
  constructor
  · intro h
    apply List.ext_getElem (ha.trans hb.symm)
    intro i h1 h2
    have hbyte := h i (ha ▸ h1)
    rwa [List.getD_eq_getElem _ _ h1, List.getD_eq_getElem _ _ h2] at hbyte
  · rintro rfl i _
    rfl

/-- Adding a mask changes as many bits as the mask has ones. -/
theorem bitDifferences_xorBytes {a mask : Bytes} (ha : a.length = 8) (hmask : mask.length = 8) :
    bitDifferences a (xorBytes a mask) =
      ((List.range 8).map fun i => ones (mask.getD i 0#8)).sum := by
  rw [bitDifferences]
  congr 1
  apply List.map_congr_left
  intro i hi
  have hlt := List.mem_range.mp hi
  have hxor : (xorBytes a mask).getD i 0#8 = a.getD i 0#8 ^^^ mask.getD i 0#8 := by
    rw [List.getD_eq_getElem _ _ (by rw [length_xorBytes, ha, hmask]; exact hlt),
      List.getD_eq_getElem _ _ (ha ▸ hlt), List.getD_eq_getElem _ _ (hmask ▸ hlt)]
    simp [xorBytes]
  rw [hxor, xor_cancel_left]

/-- A block of zeros with one byte set. -/
def maskBlock (i : Nat) (mask : U8) : Bytes := (List.replicate 8 0#8).set i mask

theorem sum_ones_maskBlock {i : Nat} (hi : i < 8) (mask : U8) :
    ((List.range 8).map fun k => ones ((maskBlock i mask).getD k 0#8)).sum = ones mask := by
  have hzero : ones 0#8 = 0 := (ones_eq_zero_iff _).mpr rfl
  obtain rfl | rfl | rfl | rfl | rfl | rfl | rfl | rfl :
      i = 0 ∨ i = 1 ∨ i = 2 ∨ i = 3 ∨ i = 4 ∨ i = 5 ∨ i = 6 ∨ i = 7 := by omega
  all_goals simp [maskBlock, List.range_succ, hzero]

/-! ## Blocks shown -/

theorem offsets_first (length : Nat) :
    offsets 8 length = (List.range ((length - 1) / 8)).map fun i => 8 + 8 * i := by
  have hcount : (length - 8 + 7) / 8 = (length - 1) / 8 := by omega
  rw [offsets, hcount]
  apply List.ext_getElem (by simp)
  intro i h1 h2
  simp

/-- The loop counts the later blocks that are equal to the first. -/
theorem countRepeatedBlocks_eq {data : Bytes} {length : Nat}
    (h : 8 * ((length - 1) / 8 + 1) ≤ data.length) :
    countRepeatedBlocks data length = some ((List.range ((length - 1) / 8)).countP
      fun i => blockAt data (i + 1) = blockAt data 0) := by
  rw [countRepeatedBlocks, offsets_first, List.foldlM_map, foldlM_eq_some
    (fun repeats i => if decide (blockAt data (i + 1) = blockAt data 0) then repeats + 1
      else repeats), foldl_count, Nat.zero_add]
  intro i hi repeats
  have hlt := List.mem_range.mp hi
  have hin : 0 + 8 ≤ data.length ∧ 8 + 8 * i + 8 ≤ data.length := by omega
  have hplace : 8 + 8 * i = 8 * (i + 1) := by omega
  rw [sameBytes, if_pos hin, Option.bind_eq_bind, Option.bind_some, hplace]
  simp only [blockAt, Nat.mul_zero, eq_comm, Option.pure_def]

end ModesExperiments
