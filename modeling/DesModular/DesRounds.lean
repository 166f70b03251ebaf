import DesModular.SemiWeakKeys
import DesModular.Complementation
import DesModular.FixedBits

/-!
# Between the rounds

The two registers of the loop in `des_process_block` after any number of rounds.
Decryption passes through the registers of encryption in reverse, and a key whose
schedule mirrors itself has its fixed blocks decided half way.
-/
namespace DesRounds

open MachineWord DesPermute DesTables DesKeySchedule DesFeistel FeistelNetwork DesBlock
open Complementation WeakKeys SemiWeakKeys FixedBits

/-- The state of the loop past its first `n` rounds. -/
def roundState (block : U64) (roundKeys : Vector U64 16) (order : DesKeyOrder) (n : Nat)
    (hn : n ≤ 16) : DesHalfPair :=
  let permuted := permute block desIp
  let left : U32 := (permuted >>> 32).setWidth 32
  let right : U32 := (permuted &&& 0xFFFFFFFF#64).setWidth 32
  Nat.fold n (fun round h next =>
    have := keyIndex_lt order (Nat.lt_of_lt_of_le h hn)
    desRound next.left next.right roundKeys[keyIndex order round]) ⟨left, right⟩

/-- The block transform ends with the state past all rounds. -/
theorem desProcessBlock_roundState (block : U64) (roundKeys : Vector U64 16)
    (order : DesKeyOrder) : desProcessBlock block roundKeys order =
      let last := roundState block roundKeys order 16 (by decide)
      permute ((last.right.setWidth 64 <<< 32) ||| last.left.setWidth 64) desIpInv := rfl

/-- The halves the rounds begin with; every pair is the start of one block. -/
def startHalves : U64 ≃ U32 × U32 where
  toFun block := splitBlock (permute block desIp)
  invFun p := permute (joinBlock p) desIpInv
  left_inv block := by
    simp only [joinBlock_splitBlock]
    exact permute_permute (by decide) desIp_undoes.1 (fits_width _)
  right_inv p := by
    simp only [permute_permute (by decide) desIp_undoes.2 (fits_width _), splitBlock_joinBlock]

/-- The rounds with a list of subkeys as a permutation of the halves. -/
def roundsPerm (keys : List U64) : Equiv.Perm (U32 × U32) :=
  networkPerm xor_cancel_right desFeistelF keys

@[simp] theorem roundsPerm_apply (keys : List U64) (p : U32 × U32) :
    roundsPerm keys p = desNetwork keys p := rfl

theorem halves_roundState (block : U64) (roundKeys : Vector U64 16) (order : DesKeyOrder)
    (n : Nat) (hn : n ≤ 16) : halves (roundState block roundKeys order n hn) =
      desNetwork ((orderedKeys roundKeys order).take n) (startHalves block) :=
  process_loop roundKeys order ⟨(startHalves block).1, (startHalves block).2⟩ n hn

theorem startHalves_desProcessBlock (block : U64) (roundKeys : Vector U64 16)
    (order : DesKeyOrder) : startHalves (desProcessBlock block roundKeys order) =
      (desNetwork (orderedKeys roundKeys order) (startHalves block)).swap := by
  rw [desProcessBlock_eq]
  exact startHalves.apply_symm_apply _

/-- Undoing a block retraces its rounds: whatever the sixteen subkeys and the direction,
`n` rounds of the way back end in the registers of the way forth `n` rounds before its
end, with the halves exchanged. -/
theorem rounds_retraced (block : U64) (roundKeys : Vector U64 16) (order : DesKeyOrder) (n : Nat)
    (hn : n ≤ 16) :
    let back := roundState (desProcessBlock block roundKeys order) roundKeys order.opposite n hn
    let forth := roundState block roundKeys order (16 - n) (Nat.sub_le _ _)
    back.left = forth.right ∧ back.right = forth.left := by
  intro back forth
  have hkeys : (orderedKeys roundKeys order.opposite).take n =
      ((orderedKeys roundKeys order).drop (16 - n)).reverse := by
    rw [orderedKeys_opposite, List.take_reverse, length_orderedKeys]
  have hforth := halves_roundState block roundKeys order (16 - n) (Nat.sub_le _ _)
  have hlast : desNetwork (orderedKeys roundKeys order) (startHalves block) =
      desNetwork ((orderedKeys roundKeys order).drop (16 - n)) (halves forth) := by
    rw [hforth, desNetwork, desNetwork, ← network_append, List.take_append_drop]
  have hback : halves back = (halves forth).swap := by
    rw [halves_roundState, startHalves_desProcessBlock, hkeys, hlast]
    exact network_reverse xor_cancel_right desFeistelF _ _
  exact ⟨congrArg Prod.fst hback, congrArg Prod.snd hback⟩

/-- The middle of an encryption and the end of its decryption after eight rounds. -/
theorem rounds_retraced_middle :
    let roundKeys := Vector.replicate 16 0x123456789ABC#64
    (roundState (desProcessBlock 1#64 roundKeys .forward) roundKeys .reverse 8 (by decide)).left =
      (roundState 1#64 roundKeys .forward 8 (by decide)).right :=
  (rounds_retraced 1#64 (Vector.replicate 16 0x123456789ABC#64) .forward 8 (by decide)).1

/-! ## Schedules that mirror themselves -/

/-- The registers of an encryption after eight rounds. -/
def middle (key block : U64) : DesHalfPair :=
  roundState block (desGenerateRoundKeys key) .forward 8 (by decide)

/-- The first eight subkeys. -/
def firstKeys (key : U64) : List U64 := (desGenerateRoundKeys key).toList.take 8

/-- The registers in the middle take every value, each for one block. -/
def middleHalves (key : U64) : U64 ≃ U32 × U32 :=
  startHalves.trans (roundsPerm (firstKeys key))

theorem middleHalves_apply (key block : U64) :
    middleHalves key block = halves (middle key block) := by
  rw [middle, halves_roundState, middleHalves, Equiv.trans_apply, roundsPerm_apply, firstKeys,
    orderedKeys]

/-- Subkeys `K9..K16` are `K8..K1`, each mapped by `h`. -/
theorem toList_mirrored {key : U64} {h : U64 → U64}
    (hkeys : ∀ i (hi : i < 16) (hrev : 15 - i < 16),
      h (desGenerateRoundKeys key)[i] = (desGenerateRoundKeys key)[15 - i]) :
    (desGenerateRoundKeys key).toList = firstKeys key ++ (firstKeys key).reverse.map h := by
  apply List.ext_getElem (by simp [firstKeys])
  intro i h1 h2
  have hi : i < 16 := by simpa using h1
  by_cases hfirst : i < 8
  · rw [List.getElem_append_left (by simpa [firstKeys] using hfirst)]
    simp [firstKeys]
  · rw [List.getElem_append_right (by simpa [firstKeys] using hfirst)]
    have hindex : 15 - (15 - i) = i := by omega
    have hplace : 7 - (i - 8) = 15 - i := by omega
    simp [firstKeys, hplace, hkeys (15 - i) (by omega) (by omega), hindex]

/-- Under a symmetry of the rounds that mirrors the schedule, a block goes to its image
when the halves in the middle are images of each other. -/
theorem startHalves_mirrored {key : U64} {g : U32 → U32} {h : U64 → U64}
    (commutes : ∀ a b k, g (a ^^^ desFeistelF b k) = g a ^^^ desFeistelF (g b) (h k))
    (hkeys : ∀ i (hi : i < 16) (hrev : 15 - i < 16),
      h (desGenerateRoundKeys key)[i] = (desGenerateRoundKeys key)[15 - i])
    (hinv : Function.Involutive g) (block : U64) :
    startHalves (desEncryptBlock block key) = (startHalves block).map g g ↔
      (middle key block).left = g (middle key block).right := by
  have hend : startHalves (desEncryptBlock block key) =
      (desNetwork (firstKeys key ++ (firstKeys key).reverse.map h) (startHalves block)).swap := by
    rw [← toList_mirrored hkeys, desEncryptBlock, desRun, startHalves_desProcessBlock, orderedKeys]
  have hmiddle : desNetwork (firstKeys key) (startHalves block) = halves (middle key block) := by
    rw [← middleHalves_apply, middleHalves, Equiv.trans_apply, roundsPerm_apply]
  rw [desNetwork] at hmiddle
  rw [hend, desNetwork, network_mirrored_iff xor_cancel_right desFeistelF g h commutes, hmiddle]
  constructor
  · intro he
    exact congrArg Prod.fst he
  · intro he
    apply Prod.ext he
    simp only [halves, Prod.swap_prod_mk, Prod.map_apply, he, hinv (middle key block).right]

theorem middle_symm (key : U64) (p : U32 × U32) :
    halves (middle key ((middleHalves key).symm p)) = p := by
  rw [← middleHalves_apply, Equiv.apply_symm_apply]

theorem card_middle (key : U64) (g : U32 → U32) :
    Nat.card {block : U64 // (middle key block).left = g (middle key block).right} = 2 ^ 32 := by
  rw [← card_word (w := 32)]
  apply Nat.card_congr
  exact {
    toFun := fun block => (middle key block).right
    invFun := fun right => ⟨(middleHalves key).symm (g right, right), by
      have h := middle_symm key (g right, right)
      exact (congrArg Prod.fst h).trans (congrArg g (congrArg Prod.snd h).symm)⟩
    left_inv := by
      rintro ⟨block, h⟩
      apply Subtype.ext
      rw [Equiv.symm_apply_eq, middleHalves_apply]
      exact Prod.ext h.symm rfl
    right_inv := fun right => congrArg Prod.snd (middle_symm key (g right, right)) }

theorem startHalves_not (block : U64) :
    startHalves (~~~block) = (startHalves block).map (~~~·) (~~~·) := by
  simp only [startHalves, Equiv.coe_fn_mk]
  rw [← complement_full, permute_complement _ desIp (by decide) (by decide), complement_full,
    splitBlock_not]

theorem WeakKey.fixed_iff {key : U64} (h : WeakKey key) (block : U64) :
    desEncryptBlock block key = block ↔ (middle key block).left = (middle key block).right := by
  have hkeys : ∀ i (hi : i < 16) (hrev : 15 - i < 16),
      id (desGenerateRoundKeys key)[i] = (desGenerateRoundKeys key)[15 - i] := fun i hi _ =>
    h.reverses i hi
  have hmirrored := startHalves_mirrored (g := id) (h := id) (fun _ _ _ => rfl) hkeys
    (fun _ => rfl) block
  rwa [Prod.map_id, id, startHalves.injective.eq_iff] at hmirrored

theorem Opposed.complemented_iff {key : U64} (h : Opposed key) (block : U64) :
    desEncryptBlock block key = ~~~block ↔
      (middle key block).left = ~~~(middle key block).right := by
  have hkeys : ∀ i (hi : i < 16) (hrev : 15 - i < 16),
      complement 48 (desGenerateRoundKeys key)[i] = (desGenerateRoundKeys key)[15 - i] := by
    intro i hi _
    have hreversed := (reverses_not_iff key).mpr h i hi
    rw [← hreversed]
    simp only [desGenerateRoundKeys_complement, Vector.getElem_map]
  have hcommutes : ∀ (a b : U32) (k : U64), ~~~(a ^^^ desFeistelF b k) =
      ~~~a ^^^ desFeistelF (~~~b) (complement 48 k) := by
    intro a b k
    rw [desFeistelF_complement, BitVec.not_xor_left]
  have hmirrored := startHalves_mirrored (g := (~~~·)) hcommutes hkeys
    (fun _ => BitVec.not_not) block
  rwa [← startHalves_not, startHalves.injective.eq_iff] at hmirrored

/-- A weak key leaves a block as it is exactly when the two registers are equal after
eight rounds, and a key with opposed halves complements it exactly when they are
complements of each other. Either happens for 2^32 of the blocks. -/
theorem mirrored_blocks (key : U64) :
    (WeakKey key →
      (∀ block, desEncryptBlock block key = block ↔
        (middle key block).left = (middle key block).right) ∧
      Nat.card {block : U64 // desEncryptBlock block key = block} = 2 ^ 32) ∧
    (Opposed key →
      (∀ block, desEncryptBlock block key = ~~~block ↔
        (middle key block).left = ~~~(middle key block).right) ∧
      Nat.card {block : U64 // desEncryptBlock block key = ~~~block} = 2 ^ 32) := by
  constructor
  · intro h
    refine ⟨WeakKey.fixed_iff h, ?_⟩
    simp only [WeakKey.fixed_iff h]
    exact card_middle key id
  · intro h
    refine ⟨Opposed.complemented_iff h, ?_⟩
    simp only [Opposed.complemented_iff h]
    exact card_middle key (~~~·)

/-- A weak key and a key with opposed halves. -/
theorem mirrored_blocks_keys :
    Nat.card {block : U64 // desEncryptBlock block 0x0101010101010101#64 = block} = 2 ^ 32 ∧
      Nat.card {block : U64 // desEncryptBlock block 0x01FE01FE01FE01FE#64 = ~~~block} =
        2 ^ 32 := by
  have hweak : WeakKey 0x0101010101010101#64 := ⟨by decide +kernel, by decide +kernel⟩
  exact ⟨((mirrored_blocks _).1 hweak).2, ((mirrored_blocks _).2 (by decide +kernel)).2⟩

end DesRounds
