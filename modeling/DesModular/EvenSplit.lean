import Mathlib.Order.Basic
import Mathlib.Algebra.Order.Group.Nat

/-!
# Splitting a range into near-equal parts

`n` items in `k` consecutive parts: the first `n % k` parts get one item more than
the others.
-/
namespace EvenSplit

/-- The number of items in part `i`. -/
def size (n k i : Nat) : Nat := n / k + if i < n % k then 1 else 0

/-- The number of items before part `i`. -/
def offset (n k : Nat) : Nat → Nat
  | 0 => 0
  | i + 1 => offset n k i + size n k i

@[simp] theorem offset_zero (n k : Nat) : offset n k 0 = 0 := rfl
theorem offset_succ (n k i : Nat) : offset n k (i + 1) = offset n k i + size n k i := rfl

theorem offset_eq (n k i : Nat) : offset n k i = i * (n / k) + min i (n % k) := by
  induction i with
  | zero => simp
  | succ i ih =>
    rw [offset_succ, ih, size, Nat.succ_mul]
    split <;> omega

/-- The parts use up all items. -/
theorem offset_last (n : Nat) {k : Nat} (h : 0 < k) : offset n k k = n := by
  have hlt := Nat.mod_lt n h
  have hdiv := Nat.div_add_mod n k
  rw [offset_eq, Nat.min_eq_right (by omega)]
  exact hdiv

theorem offset_mono (n k : Nat) {i j : Nat} (h : i ≤ j) : offset n k i ≤ offset n k j := by
  induction h with
  | refl => exact Nat.le_refl _
  | step _ ih => exact Nat.le_trans ih (Nat.le_add_right _ _)

theorem offset_le (n : Nat) {k i : Nat} (hk : 0 < k) (h : i ≤ k) : offset n k i ≤ n := by
  have := offset_mono n k h
  rwa [offset_last n hk] at this

/-- Two parts differ by at most one item. -/
theorem size_le (n k i j : Nat) : size n k i ≤ size n k j + 1 := by
  rw [size, size]
  split <;> split <;> omega

/-- Every item below the end of part `k - 1` lies in one of the parts. -/
theorem exists_part (n k : Nat) {x m : Nat} (h : x < offset n k m) :
    ∃ i < m, offset n k i ≤ x ∧ x < offset n k (i + 1) := by
  induction m with
  | zero => exact absurd h (Nat.not_lt_zero x)
  | succ m ih =>
    by_cases hm : x < offset n k m
    · obtain ⟨i, hi, hpart⟩ := ih hm
      exact ⟨i, by omega, hpart⟩
    · exact ⟨m, Nat.lt_succ_self m, Nat.le_of_not_lt hm, h⟩

/-- No item lies in two parts. -/
theorem part_unique (n k : Nat) {x i j : Nat} (hi : offset n k i ≤ x ∧ x < offset n k (i + 1))
    (hj : offset n k j ≤ x ∧ x < offset n k (j + 1)) : i = j := by
  rcases Nat.lt_trichotomy i j with h | h | h
  · have hij : offset n k (i + 1) ≤ offset n k j := offset_mono n k h
    omega
  · exact h
  · have hji : offset n k (j + 1) ≤ offset n k i := offset_mono n k h
    omega

end EvenSplit
