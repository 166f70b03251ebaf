import DesModular.FeistelNetwork
import Mathlib.GroupTheory.Perm.Cycle.Type

/-!
# Evenness of Feistel networks

Over half-blocks whose number is a multiple of four, a network is an even permutation of
the pairs whenever mixing with one half-block is even, whatever the round function.
-/
namespace FeistelSign

open FeistelNetwork

variable {α κ : Type}

section Round

variable {mix : α → α → α} (cancel : ∀ a b, mix (mix a b) b = a) (f : α → κ → α)

/-- Mixing with one half-block. -/
def mixPerm (b : α) : Equiv.Perm α := Function.Involutive.toPerm (mix · b) fun a => cancel a b

/-- A round mixes into the left half, depending on the right one, and exchanges them. -/
def roundPerm (k : κ) : Equiv.Perm (α × α) :=
  (Equiv.prodCongrLeft fun b => mixPerm cancel (f b k)).trans (Equiv.prodComm α α)

theorem networkPerm_cons (k : κ) (keys : List κ) : networkPerm cancel f (k :: keys) =
    (roundPerm cancel f k).trans (networkPerm cancel f keys) := Equiv.ext fun _ => rfl

end Round

theorem sq_of_involutive {σ : Equiv.Perm α} (h : Function.Involutive σ) : σ ^ 2 = 1 := by
  apply Equiv.ext
  intro a
  rw [pow_two, Equiv.Perm.mul_apply, h a, Equiv.Perm.one_apply]

variable [Fintype α] [DecidableEq α]

/-- An involution without fixed points moves its points two by two. -/
theorem sign_of_free {σ : Equiv.Perm α} (h : Function.Involutive σ) (free : ∀ a, σ a ≠ a)
    (hcard : 4 ∣ Fintype.card α) : Equiv.Perm.sign σ = 1 := by
  have hempty : Fintype.card (Function.fixedPoints σ) = 0 :=
    Fintype.card_eq_zero_iff.mpr ⟨fun a => free a.1 a.2⟩
  obtain ⟨c, hc⟩ := hcard
  have hhalf : (4 * c - 0) / 2 = 2 * c := by omega
  rw [Equiv.Perm.sign_of_pow_two_eq_one (sq_of_involutive h), hempty, hc, hhalf, pow_mul,
    neg_one_sq, one_pow]

/-- Exchanging the halves leaves the pairs of equal halves alone. -/
theorem sign_prodComm (hcard : 4 ∣ Fintype.card α) :
    Equiv.Perm.sign (Equiv.prodComm α α) = 1 := by
  have hfixed : Fintype.card (Function.fixedPoints (Equiv.prodComm α α)) = Fintype.card α := by
    apply Fintype.card_congr
    exact {
      toFun := fun p => p.1.1
      invFun := fun a => ⟨(a, a), rfl⟩
      left_inv := by
        rintro ⟨⟨a, b⟩, h⟩
        have hsame : b = a := congrArg Prod.fst h
        subst hsame
        rfl
      right_inv := fun _ => rfl }
  obtain ⟨c, hc⟩ := hcard
  have hhalf : (4 * c * (4 * c) - 4 * c) / 2 = 2 * (4 * c * c - c) := by
    have hfactor : 4 * c * (4 * c) - 4 * c = 2 * (2 * (4 * c * c - c)) := by
      have hprod : 4 * c * (4 * c) = 4 * (4 * c * c) := by ring
      omega
    rw [hfactor, Nat.mul_div_cancel_left _ (by decide)]
  rw [Equiv.Perm.sign_of_pow_two_eq_one (sq_of_involutive fun p => Prod.swap_swap p), hfixed,
    Fintype.card_prod, hc, hhalf, pow_mul, neg_one_sq, one_pow]

variable {mix : α → α → α} {cancel : ∀ a b, mix (mix a b) b = a} (f : α → κ → α)
  (even : ∀ b, Equiv.Perm.sign (mixPerm cancel b) = 1) (hcard : 4 ∣ Fintype.card α)

include even hcard

theorem sign_roundPerm (k : κ) : Equiv.Perm.sign (roundPerm cancel f k) = 1 := by
  rw [roundPerm, Equiv.Perm.sign_trans, sign_prodComm hcard, one_mul,
    Equiv.Perm.sign_prodCongrLeft]
  exact Finset.prod_eq_one fun b _ => even (f b k)

theorem sign_networkPerm (keys : List κ) :
    Equiv.Perm.sign (networkPerm cancel f keys) = 1 := by
  induction keys with
  | nil =>
    have hrefl : networkPerm cancel f [] = 1 := Equiv.ext fun _ => rfl
    rw [hrefl, Equiv.Perm.sign_one]
  | cons k keys ih =>
    rw [networkPerm_cons, Equiv.Perm.sign_trans, ih, sign_roundPerm f even hcard, one_mul]

end FeistelSign
