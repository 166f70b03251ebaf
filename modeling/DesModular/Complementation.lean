import DesModular.DesBlock

/-!
# Complementation

Complementing a block and its key complements the result. Every register of the
key schedule is complemented with the key, and the two complements that meet in
the round function cancel.
-/
namespace Complementation

open MachineWord DesPermute DesTables DesKeySchedule DesFeistel FeistelNetwork DesBlock

variable {w : Nat}

/-- The low `width` bits flipped, the others kept. -/
def complement (width : Nat) (x : BitVec w) : BitVec w := x ^^^ BitVec.ofNat w (2 ^ width - 1)

theorem getLsbD_complement {width : Nat} (h : width ≤ w) (x : BitVec w) (j : Nat) :
    (complement width x).getLsbD j = (x.getLsbD j ^^ decide (j < width)) := by
  rw [complement, BitVec.getLsbD_xor, getLsbD_mask h]

theorem complement_full (x : BitVec w) : complement w x = ~~~x := by
  apply BitVec.eq_of_getLsbD_eq
  intro j hj
  rw [getLsbD_complement (Nat.le_refl w), BitVec.getLsbD_not, decide_eq_true hj, Bool.xor_true,
    Bool.true_and]

theorem fits_complement {width : Nat} (h : width ≤ w) {x : BitVec w} (hx : Fits width x) :
    Fits width (complement width x) := by
  rw [fits_iff] at *
  intro j hj
  rw [getLsbD_complement h, hx j hj, decide_eq_false (Nat.not_lt.mpr hj)]
  rfl

theorem msbBit_complement {width : Nat} (h : width ≤ w) (x : BitVec w) {i : Nat} (h1 : 1 ≤ i)
    (hi : i ≤ width) : msbBit width (complement width x) i = !msbBit width x i := by
  have hlt : width - i < width := by omega
  rw [msbBit, getLsbD_complement h, decide_eq_true hlt, Bool.xor_true]
  rfl

/-- Two complements cancel in an exclusive or. -/
theorem complement_xor_complement (width : Nat) (x y : BitVec w) :
    complement width x ^^^ complement width y = x ^^^ y := by
  apply BitVec.eq_of_getLsbD_eq
  intro j _
  simp only [complement, BitVec.getLsbD_xor]
  cases x.getLsbD j <;> cases y.getLsbD j <;> simp

/-- Selecting bits of a complement gives the complement of the selected bits. -/
theorem permute_complement {inBits outBits : Nat} (x : U64) (table : BitTable inBits outBits)
    (hin : inBits ≤ 64) (hout : outBits ≤ 64) :
    permute (complement inBits x) table = complement outBits (permute x table) := by
  apply eq_of_msbBit (fits_permute _ _) (fits_complement hout (fits_permute _ _))
  intro k hk
  rw [msbBit_complement hout _ (Nat.succ_pos k) hk, msbBit_permute _ table hin hout k hk,
    msbBit_permute _ table hin hout k hk,
    msbBit_complement hin _ (table.one_le k hk) (table.le_inBits k hk)]

/-! ## The key schedule -/

def complementRegisters (r : KeyRegisters) : KeyRegisters :=
  ⟨complement 28 r.c, complement 28 r.d⟩

theorem rotateLeft28_complement {half : U32} (hf : Fits 28 half) {amount : Nat}
    (ha : amount ≤ 28) :
    rotateLeft28 (complement 28 half) amount = complement 28 (rotateLeft28 half amount) := by
  have hfc := fits_complement (by decide) hf
  apply BitVec.eq_of_getLsbD_eq
  intro j _
  rw [getLsbD_complement (by decide)]
  by_cases hj : j < 28
  · rw [getLsbD_rotateLeft28 hfc ha hj, getLsbD_rotateLeft28 hf ha hj, decide_eq_true hj]
    by_cases hlow : j < amount
    · have hin : 28 - amount + j < 28 := by omega
      rw [if_pos hlow, if_pos hlow, getLsbD_complement (by decide), decide_eq_true hin]
    · have hin : j - amount < 28 := by omega
      rw [if_neg hlow, if_neg hlow, getLsbD_complement (by decide), decide_eq_true hin]
  · have hge : 28 ≤ j := by omega
    rw [getLsbD_of_fits (fits_rotateLeft28 _ _) hge, getLsbD_of_fits (fits_rotateLeft28 _ _) hge,
      decide_eq_false hj]
    rfl

theorem rotate_complement {r : KeyRegisters} (h : r.Fit) {amount : Nat} (ha : amount ≤ 28) :
    (complementRegisters r).rotate amount = complementRegisters (r.rotate amount) := by
  simp only [KeyRegisters.rotate, complementRegisters, rotateLeft28_complement h.c ha,
    rotateLeft28_complement h.d ha]

theorem initialRegisters_complement (key : U64) :
    initialRegisters (~~~key) = complementRegisters (initialRegisters key) := by
  have hpermute : permute (~~~key) desPc1 = complement 56 (permute key desPc1) := by
    rw [← complement_full, permute_complement key desPc1 (by decide) (by decide)]
  have hfits := initialRegisters_fit key
  have hfits' := initialRegisters_fit (~~~key)
  have hc : (initialRegisters (~~~key)).c = complement 28 (initialRegisters key).c := by
    apply BitVec.eq_of_getLsbD_eq
    intro j _
    rw [getLsbD_complement (by decide)]
    by_cases hj : j < 28
    · have hin : 28 + j < 56 := by omega
      rw [getLsbD_initialRegisters_c _ hj, getLsbD_initialRegisters_c _ hj, hpermute,
        getLsbD_complement (by decide), decide_eq_true hin, decide_eq_true hj]
    · rw [getLsbD_of_fits hfits'.c (Nat.le_of_not_lt hj),
        getLsbD_of_fits hfits.c (Nat.le_of_not_lt hj), decide_eq_false hj]
      rfl
  have hd : (initialRegisters (~~~key)).d = complement 28 (initialRegisters key).d := by
    apply BitVec.eq_of_getLsbD_eq
    intro j _
    rw [getLsbD_complement (by decide)]
    by_cases hj : j < 28
    · have hin : j < 56 := by omega
      rw [getLsbD_initialRegisters_d _ hj, getLsbD_initialRegisters_d _ hj, hpermute,
        getLsbD_complement (by decide), decide_eq_true hin, decide_eq_true hj]
    · rw [getLsbD_of_fits hfits'.d (Nat.le_of_not_lt hj),
        getLsbD_of_fits hfits.d (Nat.le_of_not_lt hj), decide_eq_false hj]
      rfl
  rw [complementRegisters, ← hc, ← hd]

/-- Every register is complemented with the key, in every round. -/
theorem registersAfter_complement (key : U64) (n : Nat) (hn : n ≤ 16) :
    registersAfter (~~~key) n hn = complementRegisters (registersAfter key n hn) := by
  induction n with
  | zero => exact initialRegisters_complement key
  | succ n ih =>
    have hfit := registersAfter_fit key n (by omega)
    have ha : desShifts[n] ≤ 28 := by
      have := desShifts_one_or_two n hn
      omega
    rw [registersAfter, ih (by omega), rotate_complement hfit ha, registersAfter]

theorem combined_complement {r : KeyRegisters} (h : r.Fit) :
    (complementRegisters r).combined = complement 56 r.combined := by
  have hfit : (complementRegisters r).Fit :=
    ⟨fits_complement (by decide) h.c, fits_complement (by decide) h.d⟩
  apply BitVec.eq_of_getLsbD_eq
  intro j hj
  rw [getLsbD_complement (by decide), KeyRegisters.combined, KeyRegisters.combined]
  by_cases hd : j < 28
  · have hin : j < 56 := by omega
    rw [getLsbD_shiftOr_low _ _ hd, getLsbD_shiftOr_low _ _ hd, BitVec.getLsbD_setWidth,
      BitVec.getLsbD_setWidth, complementRegisters, getLsbD_complement (by decide),
      decide_eq_true hd, decide_eq_true hin, decide_eq_true hj, Bool.true_and, Bool.true_and]
  · obtain ⟨k, rfl⟩ : ∃ k, j = 28 + k := ⟨j - 28, by omega⟩
    have hk : k < 64 := by omega
    have hiff : 28 + k < 56 ↔ k < 28 := by omega
    rw [getLsbD_shiftOr_high hfit.wide _ hj, getLsbD_shiftOr_high h.wide _ hj,
      BitVec.getLsbD_setWidth, BitVec.getLsbD_setWidth, complementRegisters,
      getLsbD_complement (by decide), decide_eq_true hk, Bool.true_and, Bool.true_and]
    simp only [hiff]

/-- All subkeys of the complemented key are complemented. -/
theorem desGenerateRoundKeys_complement (key : U64) :
    desGenerateRoundKeys (~~~key) = (desGenerateRoundKeys key).map (complement 48) := by
  apply Vector.ext
  intro i hi
  rw [Vector.getElem_map, roundKey_eq, roundKey_eq, registersAfter_complement,
    combined_complement (registersAfter_fit key _ _),
    permute_complement _ desPc2 (by decide) (by decide)]

/-! ## The rounds -/

theorem and_subkeyMask_complement (roundKey : U64) :
    complement 48 roundKey &&& subkeyMask = complement 48 (roundKey &&& subkeyMask) := by
  have hmask : subkeyMask = BitVec.ofNat 64 (2 ^ 48 - 1) := by decide
  apply BitVec.eq_of_getLsbD_eq
  intro j _
  rw [BitVec.getLsbD_and, getLsbD_complement (by decide), getLsbD_complement (by decide),
    BitVec.getLsbD_and, hmask, getLsbD_mask (by decide)]
  cases decide (j < 48) <;> simp

/-- The expansion and the subkey are both complemented, so the round function does
not change. -/
theorem desFeistelF_complement (halfBlock : U32) (roundKey : U64) :
    desFeistelF (~~~halfBlock) (complement 48 roundKey) = desFeistelF halfBlock roundKey := by
  have hwide : (~~~halfBlock).setWidth 64 = complement 32 (halfBlock.setWidth 64) := by
    apply BitVec.eq_of_getLsbD_eq
    intro j hj
    rw [getLsbD_complement (by decide), BitVec.getLsbD_setWidth, BitVec.getLsbD_setWidth,
      BitVec.getLsbD_not, decide_eq_true hj, Bool.true_and, Bool.true_and]
    by_cases hj32 : j < 32
    · rw [decide_eq_true hj32, Bool.true_and, Bool.xor_true]
    · rw [decide_eq_false hj32, BitVec.getLsbD_of_ge _ _ (Nat.le_of_not_lt hj32)]
      rfl
  simp only [desFeistelF]
  rw [hwide, permute_complement _ desE (by decide) (by decide), and_subkeyMask_complement,
    complement_xor_complement]

theorem desNetwork_complement (keys : List U64) (p : U32 × U32) :
    desNetwork (keys.map (complement 48)) (p.map (~~~·) (~~~·)) =
      (desNetwork keys p).map (~~~·) (~~~·) := by
  apply network_map
  intro a b k
  rw [desFeistelF_complement, BitVec.not_xor_left]

theorem splitBlock_not (x : U64) : splitBlock (~~~x) = (splitBlock x).map (~~~·) (~~~·) := by
  apply Prod.ext
  · apply BitVec.eq_of_getLsbD_eq
    intro j hj
    have hj64 : 32 + j < 64 := by omega
    simp [splitBlock, hj, hj64]
  · apply BitVec.eq_of_getLsbD_eq
    intro j hj
    have hj64 : j < 64 := by omega
    simp only [splitBlock, Prod.map, BitVec.getLsbD_setWidth, BitVec.getLsbD_and,
      BitVec.getLsbD_not, getLsbD_lowMask, hj, hj64, decide_true, Bool.true_and, Bool.and_true]

theorem joinBlock_not (p : U32 × U32) : joinBlock (p.map (~~~·) (~~~·)) = ~~~joinBlock p := by
  have hsplit := splitBlock_not (joinBlock p)
  rw [splitBlock_joinBlock] at hsplit
  rw [← hsplit, joinBlock_splitBlock]

/-- The rounds and both permutations, for any sixteen subkeys. -/
theorem desProcessBlock_complement (block : U64) (roundKeys : Vector U64 16)
    (order : DesKeyOrder) :
    desProcessBlock (~~~block) (roundKeys.map (complement 48)) order =
      ~~~desProcessBlock block roundKeys order := by
  have hkeys : orderedKeys (roundKeys.map (complement 48)) order =
      (orderedKeys roundKeys order).map (complement 48) := by
    cases order <;> simp only [orderedKeys, Vector.toList_map, List.map_reverse]
  have hswap : ∀ p : U32 × U32, (p.map (~~~·) (~~~·)).swap = p.swap.map (~~~·) (~~~·) :=
    fun _ => rfl
  rw [desProcessBlock_eq, desProcessBlock_eq, hkeys, ← complement_full,
    permute_complement _ desIp (by decide) (by decide), complement_full, splitBlock_not,
    desNetwork_complement, hswap, joinBlock_not, ← complement_full,
    permute_complement _ desIpInv (by decide) (by decide), complement_full]

theorem desEncryptBlock_complement (block key : U64) :
    desEncryptBlock (~~~block) (~~~key) = ~~~desEncryptBlock block key := by
  rw [desEncryptBlock, desRun, desGenerateRoundKeys_complement, desProcessBlock_complement]
  rfl

/-- Complementing block and key complements the result, in both directions. -/
theorem des_complementation (block key : U64) :
    desEncryptBlock (~~~block) (~~~key) = ~~~desEncryptBlock block key ∧
      desDecryptBlock (~~~block) (~~~key) = ~~~desDecryptBlock block key := by
  constructor
  · exact desEncryptBlock_complement block key
  · rw [desDecryptBlock, desRun, desGenerateRoundKeys_complement, desProcessBlock_complement]
    rfl

end Complementation
