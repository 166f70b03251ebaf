import DesModular.MachineWord
import Mathlib.Logic.Equiv.Basic
import Mathlib.Data.Fintype.BigOperators
import Mathlib.SetTheory.Cardinal.Finite

/-!
# Registers as tuples of chunks

A register of `n` chunks of `d` bits is the tuple of its chunks, most significant one
first, and words whose chunks lie in given sets are counted chunk by chunk.
-/
namespace WordChunks

open MachineWord

variable {w : Nat}

/-- Chunk `i` of `n`, the first one at the most significant end. -/
def chunkOf (d n : Nat) (x : BitVec w) (i : Nat) : BitVec w :=
  (x >>> ((n - 1 - i) * d)) &&& BitVec.ofNat w (2 ^ d - 1)

theorem fits_mask (d : Nat) : Fits d (BitVec.ofNat w (2 ^ d - 1)) := by
  have hpos := Nat.two_pow_pos d
  have hle := Nat.mod_le (2 ^ d - 1) (2 ^ w)
  rw [Fits, BitVec.toNat_ofNat]
  omega

theorem fits_chunkOf (d n : Nat) (x : BitVec w) (i : Nat) : Fits d (chunkOf d n x i) :=
  fits_and _ (fits_mask d)

theorem getLsbD_chunkOf {d : Nat} (hd : d ≤ w) (n : Nat) (x : BitVec w) (i : Nat) {r : Nat}
    (hr : r < d) : (chunkOf d n x i).getLsbD r = x.getLsbD ((n - 1 - i) * d + r) := by
  rw [chunkOf, BitVec.getLsbD_and, getLsbD_mask hd, decide_eq_true hr, Bool.and_true,
    BitVec.getLsbD_ushiftRight]

theorem le_of_chunk {d n i : Nat} (hw : n * d ≤ w) (hi : i < n) : d ≤ w := by
  have h := Nat.mul_le_mul_right d (show 1 ≤ n by omega)
  omega

theorem chunkOf_accumulate {d n : Nat} (hw : n * d ≤ w) {chunk : (i : Nat) → i < n → BitVec w}
    (h : ∀ i hi, Fits d (chunk i hi)) (i : Nat) (hi : i < n) :
    chunkOf d n (accumulate d n chunk) i = chunk i hi := by
  have hd : d ≤ w := le_of_chunk hw hi
  apply BitVec.eq_of_getLsbD_eq
  intro r _
  by_cases hr : r < d
  · rw [getLsbD_chunkOf hd n _ i hr, getLsbD_accumulate d n chunk h hw i hi r hr]
  · rw [getLsbD_of_fits (fits_chunkOf d n _ i) (Nat.le_of_not_lt hr),
      getLsbD_of_fits (h i hi) (Nat.le_of_not_lt hr)]

/-- A register is put together from its chunks. -/
theorem accumulate_chunkOf {d n : Nat} (hw : n * d ≤ w) {x : BitVec w} (hx : Fits (n * d) x) :
    accumulate d n (fun i _ => chunkOf d n x i) = x := by
  have hfits : ∀ i (_ : i < n), Fits d (chunkOf d n x i) := fun i _ => fits_chunkOf d n x i
  apply BitVec.eq_of_getLsbD_eq
  intro j _
  by_cases hj : j < n * d
  · have hd : 0 < d := Nat.pos_of_ne_zero fun h => by simp [h] at hj
    have hn : j / d < n := Nat.div_lt_of_lt_mul (by rwa [Nat.mul_comm] at hj)
    have hr : j % d < d := Nat.mod_lt j hd
    have hi : n - 1 - j / d < n :=
      Nat.lt_of_le_of_lt (Nat.sub_le _ _) (Nat.sub_one_lt_of_lt hn)
    have hback : n - 1 - (n - 1 - j / d) = j / d := Nat.sub_sub_self (Nat.le_sub_one_of_lt hn)
    have hbit := getLsbD_accumulate d n _ hfits hw (n - 1 - j / d) hi (j % d) hr
    rw [getLsbD_chunkOf (le_of_chunk hw hi) n x _ hr, hback, Nat.mul_comm, Nat.div_add_mod] at hbit
    exact hbit
  · rw [getLsbD_of_fits (fits_accumulate d n _ hfits) (Nat.le_of_not_lt hj),
      getLsbD_of_fits hx (Nat.le_of_not_lt hj)]

/-- Accumulated chunks give a register exactly when they are its chunks. -/
theorem accumulate_eq_iff {d n : Nat} (hw : n * d ≤ w) {chunk : (i : Nat) → i < n → BitVec w}
    (h : ∀ i hi, Fits d (chunk i hi)) {x : BitVec w} (hx : Fits (n * d) x) :
    accumulate d n chunk = x ↔ ∀ i (hi : i < n), chunk i hi = chunkOf d n x i := by
  constructor
  · rintro rfl i hi
    exact (chunkOf_accumulate hw h i hi).symm
  · intro hchunks
    rw [← accumulate_chunkOf hw hx]
    congr 1
    funext i hi
    exact hchunks i hi

/-- A register as the tuple of the values of its chunks. -/
def chunksEquiv (d n : Nat) (hw : n * d ≤ w) :
    {x : BitVec w // Fits (n * d) x} ≃ (Fin n → Fin (2 ^ d)) where
  toFun x i := ⟨(chunkOf d n x.1 i).toNat, fits_chunkOf d n x.1 i⟩
  invFun f := ⟨accumulate d n (fun i hi => BitVec.ofNat w (f ⟨i, hi⟩)),
    fits_accumulate d n _ fun i hi => by
      rw [Fits, BitVec.toNat_ofNat]
      exact Nat.lt_of_le_of_lt (Nat.mod_le _ _) (f ⟨i, hi⟩).isLt⟩
  left_inv := by
    rintro ⟨x, hx⟩
    apply Subtype.ext
    simp only [BitVec.ofNat_toNat, BitVec.setWidth_eq]
    exact accumulate_chunkOf hw hx
  right_inv f := by
    funext i
    have hd : d ≤ w := le_of_chunk hw i.isLt
    have hvalue : ∀ v : Fin (2 ^ d), (BitVec.ofNat w v).toNat = v := by
      intro v
      rw [BitVec.toNat_ofNat]
      exact Nat.mod_eq_of_lt (Nat.lt_of_lt_of_le v.isLt (Nat.pow_le_pow_right (by decide) hd))
    have hfits : ∀ j (hj : j < n), Fits d (BitVec.ofNat w (f ⟨j, hj⟩)) := by
      intro j hj
      rw [Fits, hvalue]
      exact (f ⟨j, hj⟩).isLt
    apply Fin.ext
    simp only [chunkOf_accumulate hw hfits i i.isLt, hvalue]

/-- As many registers as there are tuples of admissible chunks. -/
theorem card_chunks {d n m : Nat} (hw : n * d ≤ w) (p : Fin n → Fin (2 ^ d) → Prop)
    (hp : ∀ i, Nat.card {c // p i c} = m) :
    Nat.card {x : {x : BitVec w // Fits (n * d) x} // ∀ i, p i (chunksEquiv d n hw x i)} =
      m ^ n := by
  have hequiv := Nat.card_congr ((chunksEquiv (w := w) d n hw).subtypeEquiv
    (p := fun x => ∀ i, p i (chunksEquiv d n hw x i)) (q := fun f => ∀ i, p i (f i))
    fun _ => Iff.rfl)
  rw [hequiv, Nat.card_congr (Equiv.subtypePiEquivPi (p := p)), Nat.card_pi]
  simp only [hp, Finset.prod_const, Finset.card_univ, Fintype.card_fin]

end WordChunks
