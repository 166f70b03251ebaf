import Mathlib.Algebra.Group.Defs

/-!
# Looking for the first hit

Items numbered in order are tried one after the other until one is a hit. What comes
out of it is the number of items tried and the hit. Such outcomes form a monoid:
trying one range and, without a hit, the next one, is trying both together.
-/
namespace FirstHit

variable {α : Type}

/-- How many items were tried, and what the last of them gave if it was a hit. -/
@[ext] structure Outcome (α : Type) where
  tried : Nat
  hit : Option α

instance : One (Outcome α) := ⟨⟨0, none⟩⟩

/-- Trying goes on with the second part only without a hit in the first. -/
instance : Mul (Outcome α) :=
  ⟨fun s t => if s.hit.isSome then s else ⟨s.tried + t.tried, t.hit⟩⟩

@[simp] theorem tried_one : (1 : Outcome α).tried = 0 := rfl
@[simp] theorem hit_one : (1 : Outcome α).hit = none := rfl

theorem mul_of_hit {s : Outcome α} (h : s.hit.isSome = true) (t : Outcome α) : s * t = s := if_pos h

theorem mul_of_none {s : Outcome α} (h : s.hit = none) (t : Outcome α) :
    s * t = ⟨s.tried + t.tried, t.hit⟩ := by
  have hnot : ¬s.hit.isSome = true := by simp [h]
  exact if_neg hnot

instance : Monoid (Outcome α) where
  one_mul s := by
    rw [mul_of_none hit_one]
    ext1
    · exact Nat.zero_add _
    · rfl
  mul_one s := by
    cases h : s.hit with
    | none =>
      rw [mul_of_none h]
      ext1
      · rfl
      · exact h.symm
    | some a => exact mul_of_hit (by rw [h]; rfl) 1
  mul_assoc s t u := by
    cases hs : s.hit with
    | some a =>
      have hsome : s.hit.isSome = true := by rw [hs]; rfl
      rw [mul_of_hit hsome, mul_of_hit hsome, mul_of_hit hsome]
    | none =>
      cases ht : t.hit with
      | some b =>
        have hsome : t.hit.isSome = true := by rw [ht]; rfl
        have hboth : (s * t).hit.isSome = true := by rw [mul_of_none hs, ht]; rfl
        rw [mul_of_hit hboth, mul_of_hit hsome]
      | none =>
        have hboth : (s * t).hit = none := by rw [mul_of_none hs, ht]
        rw [mul_of_none hboth, mul_of_none hs, mul_of_none hs, mul_of_none ht]
        ext1
        · exact Nat.add_assoc _ _ _
        · rfl

/-- Trying `count` items from `start` on; `attempt` tells which are hits. -/
def sweep (attempt : Nat → Option α) : (start count : Nat) → Outcome α
  | _, 0 => 1
  | start, count + 1 => ⟨1, attempt start⟩ * sweep attempt (start + 1) count

variable {attempt : Nat → Option α}

@[simp] theorem sweep_zero (start : Nat) : sweep attempt start 0 = 1 := rfl

theorem sweep_succ (start count : Nat) : sweep attempt start (count + 1) =
    ⟨1, attempt start⟩ * sweep attempt (start + 1) count := rfl

/-- Two adjacent ranges, one after the other. -/
theorem sweep_add (start m n : Nat) :
    sweep attempt start (m + n) = sweep attempt start m * sweep attempt (start + m) n := by
  induction m generalizing start with
  | zero => rw [Nat.zero_add, sweep_zero, one_mul, Nat.add_zero]
  | succ m ih =>
    rw [Nat.succ_add, sweep_succ, sweep_succ, ih, mul_assoc, Nat.add_assoc, Nat.add_comm 1 m]

/-- Without a hit all items are tried. -/
theorem sweep_none {start count : Nat} (h : ∀ i < count, attempt (start + i) = none) :
    sweep attempt start count = ⟨count, none⟩ := by
  induction count generalizing start with
  | zero => rfl
  | succ count ih =>
    have hfirst := h 0 (Nat.succ_pos count)
    have hlater : ∀ i < count, attempt (start + 1 + i) = none := by
      intro i hi
      rw [Nat.add_assoc, Nat.add_comm 1 i]
      exact h (i + 1) (by omega)
    have hrest := ih hlater
    rw [sweep_succ, mul_of_none hfirst, hrest, Nat.add_comm]

/-- Trying ends with the first hit. -/
theorem sweep_hit {start count k : Nat} {a : α} (hk : k < count)
    (hbefore : ∀ i < k, attempt (start + i) = none) (hit : attempt (start + k) = some a) :
    sweep attempt start count = ⟨k + 1, some a⟩ := by
  obtain ⟨rest, rfl⟩ : ∃ rest, count = k + (rest + 1) := ⟨count - k - 1, by omega⟩
  have hsome : (⟨1, attempt (start + k)⟩ : Outcome α).hit.isSome = true := by rw [hit]; rfl
  rw [sweep_add, sweep_none hbefore, mul_of_none rfl, sweep_succ, mul_of_hit hsome, hit]

/-- A sweep tries no more than its range. -/
theorem tried_sweep_le (attempt : Nat → Option α) (start count : Nat) :
    (sweep attempt start count).tried ≤ count := by
  induction count generalizing start with
  | zero => exact Nat.le_refl 0
  | succ count ih =>
    have hrest := ih (start + 1)
    rw [sweep_succ]
    cases h : attempt start with
    | some a =>
      rw [mul_of_hit rfl]
      exact Nat.succ_le_succ (Nat.zero_le count)
    | none =>
      rw [mul_of_none rfl]
      simp only
      omega

end FirstHit
