import DesModular.MachineWord
import Mathlib.InformationTheory.Hamming
import Mathlib.Algebra.BigOperators.Fin

/-!
# Distance of registers

The number of bits in which two registers of a word differ. The distance is kept by
reordering the bits and by a common exclusive or, and it adds up over the chunks of
an accumulated word.
-/
namespace BitDistance

open MachineWord

variable {w : Nat}

/-- In how many of their `width` bits two registers differ. -/
def bitDistance (width : Nat) (x y : BitVec w) : Nat :=
  hammingDist (fun i : Fin width => msbBit width x (i + 1)) (fun i => msbBit width y (i + 1))

theorem hammingDist_eq_sum {ι α : Type} [Fintype ι] [DecidableEq α] (x y : ι → α) :
    hammingDist x y = ∑ i, if x i ≠ y i then 1 else 0 := by
  rw [hammingDist, Finset.card_filter]

/-- Reading both words through the same bijection keeps the distance. -/
theorem hammingDist_comp_equiv {ι κ α : Type} [Fintype ι] [Fintype κ] [DecidableEq α]
    (e : ι ≃ κ) (x y : κ → α) :
    hammingDist (fun i => x (e i)) (fun i => y (e i)) = hammingDist x y := by
  rw [hammingDist_eq_sum, hammingDist_eq_sum]
  exact Equiv.sum_comp e (fun k => if x k ≠ y k then 1 else 0)

theorem bitDistance_setWidth {width v : Nat} (x y : BitVec w) (h : width ≤ v) :
    bitDistance width (x.setWidth v) (y.setWidth v) = bitDistance width x y := by
  have hbit : ∀ (z : BitVec w) (i : Fin width),
      msbBit width (z.setWidth v) (i + 1) = msbBit width z (i + 1) := by
    intro z i
    have hv : width - (i.val + 1) < v := by omega
    simp [msbBit, hv]
  simp only [bitDistance, hbit]

theorem bitDistance_xor_left (width : Nat) (a x y : BitVec w) :
    bitDistance width (a ^^^ x) (a ^^^ y) = bitDistance width x y := by
  simp [bitDistance, hammingDist, msbBit_xor]

/-- Bit `r` of chunk `i`, counted from the most significant end and from the least. -/
theorem chunk_place {n d i r : Nat} (hi : i < n) (hr : r < d) :
    n * d - (r + d * i + 1) = (n - 1 - i) * d + (d - (r + 1)) := by
  obtain ⟨k, rfl⟩ : ∃ k, n = i + (k + 1) := ⟨n - 1 - i, by omega⟩
  have hleft : i + (k + 1) - 1 - i = k := by omega
  have hsum : (i + (k + 1)) * d = d * i + k * d + d := by ring
  rw [hleft]
  omega

/-- The distance of accumulated words is the sum over their chunks. -/
theorem bitDistance_accumulate {d n : Nat} {chunk chunk' : (i : Nat) → i < n → BitVec w}
    (h : ∀ i hi, Fits d (chunk i hi)) (h' : ∀ i hi, Fits d (chunk' i hi)) (hw : n * d ≤ w) :
    bitDistance (n * d) (accumulate d n chunk) (accumulate d n chunk') =
      ∑ i : Fin n, bitDistance d (chunk i i.isLt) (chunk' i i.isLt) := by
  have hbit : ∀ (c : (i : Nat) → i < n → BitVec w) (_ : ∀ i hi, Fits d (c i hi)) (i : Fin n)
      (r : Fin d), msbBit (n * d) (accumulate d n c) (finProdFinEquiv (i, r) + 1) =
        msbBit d (c i i.isLt) (r + 1) := by
    intro c hc i r
    have hplace := chunk_place i.isLt r.isLt
    simp only [msbBit, finProdFinEquiv_apply_val, hplace]
    exact getLsbD_accumulate d n c hc hw i i.isLt _ (by omega)
  rw [bitDistance, ← hammingDist_comp_equiv finProdFinEquiv, hammingDist_eq_sum,
    Fintype.sum_prod_type]
  apply Finset.sum_congr rfl
  intro i _
  simp only [hbit chunk h, hbit chunk' h', bitDistance, hammingDist_eq_sum]

end BitDistance
