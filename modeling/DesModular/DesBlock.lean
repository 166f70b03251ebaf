import DesModular.DesKeySchedule
import DesModular.DesFeistel
import DesModular.FeistelNetwork
import Mathlib.Data.LawfulXor.Basic
import Mathlib.Logic.Equiv.Basic

/-!
# The block cipher

`des.c`: IP, sixteen rounds in the chosen key order, the final swap, IP^-1. The
loop is read as a Feistel network over the list of subkeys, and decryption is
the same network over the reversed list.
-/
namespace DesBlock

open MachineWord DesPermute DesTables DesKeySchedule DesFeistel FeistelNetwork

/-- Which way to walk the subkeys. -/
inductive DesKeyOrder where
  | forward | reverse
  deriving DecidableEq, Repr

def keyIndex (order : DesKeyOrder) (round : Nat) : Nat :=
  match order with
  | .reverse => 16 - 1 - round
  | .forward => round

theorem keyIndex_lt (order : DesKeyOrder) {round : Nat} (h : round < 16) :
    keyIndex order round < 16 := by
  cases order <;> simp only [keyIndex] <;> omega

/-- The shared core of encryption and decryption; only `order` differs. -/
def desProcessBlock (block : U64) (roundKeys : Vector U64 16) (order : DesKeyOrder) : U64 :=
  let permuted := permute block desIp
  let left : U32 := (permuted >>> 32).setWidth 32
  let right : U32 := (permuted &&& 0xFFFFFFFF#64).setWidth 32
  let last := Nat.fold 16 (fun round h next =>
    have := keyIndex_lt order h
    desRound next.left next.right roundKeys[keyIndex order round]) (⟨left, right⟩ : DesHalfPair)
  -- The final swap: the output is R16 || L16.
  let preoutput := (last.right.setWidth 64 <<< 32) ||| last.left.setWidth 64
  permute preoutput desIpInv

/-- Derives the subkeys and runs the block through. The source then wipes its
local copy of the subkeys, which no caller can observe. -/
def desRun (block key : U64) (order : DesKeyOrder) : U64 :=
  desProcessBlock block (desGenerateRoundKeys key) order

def desEncryptBlock (block key : U64) : U64 := desRun block key .forward

def desDecryptBlock (block key : U64) : U64 := desRun block key .reverse

/-! ## Halves of a block -/

/-- The two 32-bit halves, most significant half first. -/
def splitBlock (x : U64) : U32 × U32 :=
  ((x >>> 32).setWidth 32, (x &&& 0xFFFFFFFF#64).setWidth 32)

def joinBlock (p : U32 × U32) : U64 := (p.1.setWidth 64 <<< 32) ||| p.2.setWidth 64

theorem getLsbD_lowMask (j : Nat) : (0xFFFFFFFF#64).getLsbD j = decide (j < 32) := by
  have h : (0xFFFFFFFF#64) = BitVec.ofNat 64 (2 ^ 32 - 1) := by decide
  rw [h, getLsbD_mask (by decide)]

theorem fits_widen (x : U32) : Fits 32 (x.setWidth 64) := by
  have := x.isLt
  simp only [Fits, BitVec.toNat_setWidth]
  omega

theorem splitBlock_joinBlock (p : U32 × U32) : splitBlock (joinBlock p) = p := by
  obtain ⟨left, right⟩ := p
  have hlow := fits_widen right
  apply Prod.ext
  · apply BitVec.eq_of_getLsbD_eq
    intro j hj
    have hj64 : j < 64 := by omega
    simp only [splitBlock, joinBlock, BitVec.getLsbD_setWidth, BitVec.getLsbD_ushiftRight]
    rw [getLsbD_shiftOr_high hlow _ (by omega)]
    simp [hj, hj64]
  · apply BitVec.eq_of_getLsbD_eq
    intro j hj
    have hj64 : j < 64 := by omega
    simp only [splitBlock, joinBlock, BitVec.getLsbD_setWidth, BitVec.getLsbD_and,
      getLsbD_lowMask]
    rw [getLsbD_shiftOr_low _ _ hj]
    simp [hj, hj64]

theorem bitString_joinBlock (p : U32 × U32) :
    bitString 64 (joinBlock p) = bitString 32 p.1 ++ bitString 32 p.2 := by
  have h := bitString_shiftOr (n := 32) (p.1.setWidth 64) (fits_widen p.2) (by decide)
  rwa [bitString_setWidth _ (by decide), bitString_setWidth _ (by decide)] at h

theorem joinBlock_splitBlock (x : U64) : joinBlock (splitBlock x) = x := by
  apply BitVec.eq_of_getLsbD_eq
  intro j hj
  have hlow : Fits 32 ((splitBlock x).2.setWidth 64) := fits_widen _
  by_cases hj32 : j < 32
  · rw [joinBlock, getLsbD_shiftOr_low _ _ hj32]
    simp [splitBlock, getLsbD_lowMask, hj32, hj]
  · obtain ⟨k, rfl⟩ : ∃ k, j = 32 + k := ⟨j - 32, by omega⟩
    have hk : k < 32 := by omega
    have hk64 : k < 64 := by omega
    rw [joinBlock, getLsbD_shiftOr_high hlow _ (by omega)]
    simp [splitBlock, hk, hk64]

/-! ## The loop as a network -/

/-- The subkeys in the order the loop meets them. -/
def orderedKeys (roundKeys : Vector U64 16) : DesKeyOrder → List U64
  | .forward => roundKeys.toList
  | .reverse => roundKeys.toList.reverse

/-- The other direction. -/
def DesKeyOrder.opposite : DesKeyOrder → DesKeyOrder
  | .forward => .reverse
  | .reverse => .forward

theorem orderedKeys_opposite (roundKeys : Vector U64 16) (order : DesKeyOrder) :
    orderedKeys roundKeys order.opposite = (orderedKeys roundKeys order).reverse := by
  cases order <;> simp [orderedKeys, DesKeyOrder.opposite]

theorem length_orderedKeys (roundKeys : Vector U64 16) (order : DesKeyOrder) :
    (orderedKeys roundKeys order).length = 16 := by
  cases order <;> simp [orderedKeys]

theorem getElem_orderedKeys (roundKeys : Vector U64 16) (order : DesKeyOrder) (i : Nat)
    (h : i < 16) (hl : i < (orderedKeys roundKeys order).length) :
    (orderedKeys roundKeys order)[i] =
      roundKeys.get ⟨keyIndex order i, keyIndex_lt order h⟩ := by
  cases order <;> simp [orderedKeys, keyIndex, Vector.get]

def halves (p : DesHalfPair) : U32 × U32 := (p.left, p.right)

/-- The network of the cipher: mixing is exclusive or, the round function is `f`. -/
abbrev desNetwork (keys : List U64) (p : U32 × U32) : U32 × U32 :=
  network (· ^^^ ·) desFeistelF keys p

/-- After `n` rounds the loop has run the network on the first `n` keys. -/
theorem process_loop (roundKeys : Vector U64 16) (order : DesKeyOrder) (start : DesHalfPair)
    (n : Nat) (hn : n ≤ 16) :
    halves (Nat.fold n (fun round h next =>
      have := keyIndex_lt order (Nat.lt_of_lt_of_le h hn)
      desRound next.left next.right roundKeys[keyIndex order round]) start) =
    desNetwork ((orderedKeys roundKeys order).take n) (halves start) := by
  induction n with
  | zero => simp
  | succ n ih =>
    have hl : n < (orderedKeys roundKeys order).length := by rw [length_orderedKeys]; omega
    rw [List.take_succ_eq_append_getElem hl]
    refine Eq.trans ?_ (network_append (· ^^^ ·) desFeistelF _ _ _).symm
    refine Eq.trans ?_ (congrArg (desNetwork [(orderedKeys roundKeys order)[n]]) (ih (by omega)))
    rw [getElem_orderedKeys roundKeys order n (by omega) hl, Nat.fold_succ]
    rfl

theorem desProcessBlock_eq (block : U64) (roundKeys : Vector U64 16) (order : DesKeyOrder) :
    desProcessBlock block roundKeys order =
      permute (joinBlock (desNetwork (orderedKeys roundKeys order)
        (splitBlock (permute block desIp))).swap) desIpInv := by
  have h := process_loop roundKeys order
    ⟨(splitBlock (permute block desIp)).1, (splitBlock (permute block desIp)).2⟩ 16 (by decide)
  rw [List.take_of_length_le (by rw [length_orderedKeys])] at h
  have hpair := congrArg (fun q => permute (joinBlock q.swap) desIpInv) h
  exact hpair

/-- Walking the same subkeys the other way undoes the block transform, whatever
the sixteen subkeys are. -/
theorem desProcessBlock_opposite (block : U64) (roundKeys : Vector U64 16)
    (order : DesKeyOrder) :
    desProcessBlock (desProcessBlock block roundKeys order) roundKeys order.opposite = block := by
  have hip := desIp_undoes.1
  have hinv := desIp_undoes.2
  rw [desProcessBlock_eq, desProcessBlock_eq block,
    permute_permute (by decide) hinv (fits_width _), splitBlock_joinBlock, orderedKeys_opposite,
    desNetwork, desNetwork, network_reverse xor_cancel_right, Prod.swap_swap, joinBlock_splitBlock,
    permute_permute (by decide) hip (fits_width _)]

@[simp] theorem desDecryptBlock_encrypt (block key : U64) :
    desDecryptBlock (desEncryptBlock block key) key = block :=
  desProcessBlock_opposite block (desGenerateRoundKeys key) .forward

@[simp] theorem desEncryptBlock_decrypt (block key : U64) :
    desEncryptBlock (desDecryptBlock block key) key = block :=
  desProcessBlock_opposite block (desGenerateRoundKeys key) .reverse

/-- Under a fixed key the block transform is a permutation of the 64-bit words. -/
def desCipher (key : U64) : Equiv.Perm U64 where
  toFun block := desEncryptBlock block key
  invFun block := desDecryptBlock block key
  left_inv block := desDecryptBlock_encrypt block key
  right_inv block := desEncryptBlock_decrypt block key

theorem desEncryptBlock_injective (key : U64) :
    Function.Injective fun block => desEncryptBlock block key := (desCipher key).injective

theorem desDecryptBlock_injective (key : U64) :
    Function.Injective fun block => desDecryptBlock block key := (desCipher key).symm.injective

/-- Encryption and decryption of a block are inverse to each other under every
key, and so are the two key orders under every array of subkeys. -/
theorem block_round_trip :
    (∀ block key : U64, desDecryptBlock (desEncryptBlock block key) key = block ∧
      desEncryptBlock (desDecryptBlock block key) key = block) ∧
    (∀ (block : U64) (roundKeys : Vector U64 16),
      desProcessBlock (desProcessBlock block roundKeys .forward) roundKeys .reverse = block ∧
      desProcessBlock (desProcessBlock block roundKeys .reverse) roundKeys .forward = block) := by
  refine ⟨?_, ?_⟩
  · intro block key
    exact ⟨desDecryptBlock_encrypt block key, desEncryptBlock_decrypt block key⟩
  · intro block roundKeys
    exact ⟨desProcessBlock_opposite block roundKeys .forward,
      desProcessBlock_opposite block roundKeys .reverse⟩

/-- The first vector of the test suite. -/
example : desEncryptBlock 0x0123456789ABCDEF#64 0x133457799BBCDFF1#64 = 0x85E813540F0AB405#64 := by
  decide +kernel

end DesBlock
