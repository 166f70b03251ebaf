import DesModular.MachineWord
import Mathlib.Data.BitVec
import Mathlib.Data.FinEnum
import Mathlib.Logic.Equiv.Basic
import Mathlib.Data.Fintype.BigOperators
import Mathlib.SetTheory.Cardinal.Finite

/-!
# Words with given bits

A word is the tuple of its numbered bits. Of the words of `w` bits, those with given
values at `m` different places are `2 ^ (w - m)`.
-/
namespace FixedBits

open MachineWord

variable {w m : Nat}

/-- A word as the tuple of its bits, numbered from the most significant end. -/
def bitsOf (x : BitVec w) : Fin w → Bool := fun i => msbBit w x (i + 1)

theorem bitsOf_injective : Function.Injective (bitsOf (w := w)) := by
  intro x y h
  exact eq_of_msbBit (fits_width x) (fits_width y) fun i hi => congrFun h ⟨i, hi⟩

theorem card_word : Nat.card (BitVec w) = 2 ^ w := by
  rw [Nat.card_congr BitVec.equivFin.toEquiv, Nat.card_eq_fintype_card, Fintype.card_fin]

theorem bitsOf_bijective : Function.Bijective (bitsOf (w := w)) := by
  apply bitsOf_injective.bijective_of_nat_card_le
  rw [card_word, Nat.card_fun]
  simp

/-- Tuples of bits with given values at different places. -/
theorem card_tuples {place : Fin m → Fin w} (h : Function.Injective place)
    (value : Fin m → Bool) :
    Nat.card {f : Fin w → Bool // ∀ j, f (place j) = value j} = 2 ^ (w - m) := by
  classical
  let chosen : Fin w → Prop := fun i => i ∈ Set.range place
  let given : {i // chosen i} → Bool := fun i => value ((Equiv.ofInjective place h).symm i)
  have hgiven : ∀ f : Fin w → Bool,
      (∀ j, f (place j) = value j) ↔ f ∘ Subtype.val = given := by
    intro f
    constructor
    · intro hf
      funext ⟨i, j, hj⟩
      subst hj
      simp only [Function.comp_apply, given, hf j]
      exact congrArg value (Equiv.ofInjective_symm_apply h j).symm
    · intro hf j
      have hj := congrFun hf ⟨place j, j, rfl⟩
      simp only [Function.comp_apply, given] at hj
      rw [hj]
      exact congrArg value (Equiv.ofInjective_symm_apply h j)
  have hothers : Nat.card {i // ¬chosen i} = w - m := by
    have hchosen : Fintype.card {i // chosen i} = m := by
      rw [← Fintype.card_congr (Equiv.ofInjective place h), Fintype.card_fin]
    rw [Nat.card_eq_fintype_card, Fintype.card_subtype_compl, hchosen, Fintype.card_fin]
  rw [Nat.card_congr (Equiv.subtypeEquivRight hgiven),
    Nat.card_congr (Equiv.subtypePreimage chosen given), Nat.card_fun, hothers]
  simp

/-- Words with given bits at different places. -/
theorem card_words {place : Fin m → Fin w} (h : Function.Injective place) (value : Fin m → Bool) :
    Nat.card {x : BitVec w // ∀ j, msbBit w x (place j + 1) = value j} = 2 ^ (w - m) := by
  rw [← card_tuples h value]
  exact Nat.card_congr ((Equiv.ofBijective bitsOf bitsOf_bijective).subtypeEquiv fun x => Iff.rfl)

/-- Counting by the values of a map that takes each of them equally often. -/
theorem card_of_fibers {α β : Type} [Finite α] [Finite β] (f : α → β) {n : Nat}
    (h : ∀ b, Nat.card {a // f a = b} = n) : Nat.card α = Nat.card β * n := by
  have : Fintype β := Fintype.ofFinite β
  rw [← Nat.card_congr (Equiv.sigmaFiberEquiv f), Nat.card_sigma]
  simp only [h, Finset.sum_const, Finset.card_univ, Nat.nsmul_eq_mul,
    Nat.card_eq_fintype_card]

end FixedBits
