import DesModular.DesRounds
import DesModular.FeistelSign

/-!
# The block transform is even

As a permutation of the blocks, the transform under any subkeys is even, and so is every
sequence of them.
-/
namespace DesEvenness

open MachineWord DesFeistel DesBlock FeistelNetwork FeistelSign DesRounds

theorem card_U32 : Fintype.card U32 = 4 * 2 ^ 30 := by
  rw [Fintype.card_congr BitVec.equivFin.toEquiv, Fintype.card_fin]
  decide

/-- Exclusive or with a half block moves no half block or all of them. -/
theorem sign_xor (c : U32) : Equiv.Perm.sign (mixPerm xor_cancel_right c) = 1 := by
  by_cases hc : c = 0#32
  · have hone : mixPerm xor_cancel_right c = 1 := by
      apply Equiv.ext
      intro a
      subst hc
      exact BitVec.xor_zero
    rw [hone, Equiv.Perm.sign_one]
  · apply sign_of_free (fun a => xor_cancel_right a c) _ ⟨2 ^ 30, card_U32⟩
    intro a ha
    exact hc (xor_left_eq_self_iff.mp ha)

/-- The block transform as a permutation of the blocks. -/
def blockPerm (roundKeys : Vector U64 16) (order : DesKeyOrder) : Equiv.Perm U64 :=
  (startHalves.trans ((roundsPerm (orderedKeys roundKeys order)).trans
    (Equiv.prodComm U32 U32))).trans startHalves.symm

theorem blockPerm_apply (roundKeys : Vector U64 16) (order : DesKeyOrder) (block : U64) :
    blockPerm roundKeys order block = desProcessBlock block roundKeys order := by
  rw [← startHalves.symm_apply_apply (desProcessBlock block roundKeys order),
    startHalves_desProcessBlock]
  rfl

theorem sign_blockPerm (roundKeys : Vector U64 16) (order : DesKeyOrder) :
    Equiv.Perm.sign (blockPerm roundKeys order) = 1 := by
  rw [blockPerm, Equiv.Perm.sign_trans_trans_symm, Equiv.Perm.sign_trans,
    roundsPerm, sign_networkPerm desFeistelF sign_xor ⟨2 ^ 30, card_U32⟩,
    sign_prodComm ⟨2 ^ 30, card_U32⟩, one_mul]

/-- One block transform after the other. -/
def processAll (calls : List (Vector U64 16 × DesKeyOrder)) (block : U64) : U64 :=
  calls.foldl (fun block call => desProcessBlock block call.1 call.2) block

theorem exists_even (calls : List (Vector U64 16 × DesKeyOrder)) : ∃ σ : Equiv.Perm U64,
    (∀ block, σ block = processAll calls block) ∧ Equiv.Perm.sign σ = 1 := by
  induction calls with
  | nil => exact ⟨1, fun _ => rfl, Equiv.Perm.sign_one⟩
  | cons call calls ih =>
    obtain ⟨σ, hσ, hsign⟩ := ih
    refine ⟨(blockPerm call.1 call.2).trans σ, ?_, ?_⟩
    · intro block
      rw [Equiv.trans_apply, hσ, blockPerm_apply]
      rfl
    · rw [Equiv.Perm.sign_trans, hsign, sign_blockPerm, one_mul]

/-- Every sequence of encryptions and decryptions, under any subkeys, is an even
permutation of the blocks. None of them exchanges two blocks and keeps all others. -/
theorem even_permutation (calls : List (Vector U64 16 × DesKeyOrder)) : ∃ σ : Equiv.Perm U64,
    (∀ block, σ block = processAll calls block) ∧ Equiv.Perm.sign σ = 1 ∧
    ∀ x y, x ≠ y → ∃ block, processAll calls block ≠ Equiv.swap x y block := by
  obtain ⟨σ, hσ, hsign⟩ := exists_even calls
  refine ⟨σ, hσ, hsign, ?_⟩
  intro x y hne
  by_contra hall
  push Not at hall
  have hswap : σ = Equiv.swap x y := Equiv.ext fun block => (hσ block).trans (hall block)
  rw [hswap, Equiv.Perm.sign_swap hne] at hsign
  exact absurd hsign (by decide)

end DesEvenness
