import Mathlib.Data.List.Basic

/-!
# Transducers on lists

A machine with a carried value that reads one letter and writes one letter at
each step. Block cipher modes are transducers on lists of blocks. If one step
undoes another from every carried value, the machines undo each other on every
list. Two runs are compared by a relation on the carried values, or by how far
their lists agree.
-/
namespace Transducer

variable {τ α β : Type}

/-- The letters written while reading a list. -/
def output (step : τ → α → τ × β) : τ → List α → List β
  | _, [] => []
  | carry, x :: xs => (step carry x).2 :: output step (step carry x).1 xs

/-- The carried value after reading a list. -/
def final (step : τ → α → τ × β) : τ → List α → τ
  | carry, [] => carry
  | carry, x :: xs => final step (step carry x).1 xs

section Step

variable (step : τ → α → τ × β)

@[simp] theorem output_nil (carry : τ) : output step carry [] = [] := rfl
@[simp] theorem output_cons (carry : τ) (x : α) (xs : List α) :
    output step carry (x :: xs) = (step carry x).2 :: output step (step carry x).1 xs := rfl
@[simp] theorem final_nil (carry : τ) : final step carry [] = carry := rfl
@[simp] theorem final_cons (carry : τ) (x : α) (xs : List α) :
    final step carry (x :: xs) = final step (step carry x).1 xs := rfl

@[simp] theorem length_output (carry : τ) (xs : List α) :
    (output step carry xs).length = xs.length := by
  induction xs generalizing carry with
  | nil => rfl
  | cons x xs ih => simp [ih]

/-- Letter `i` is written by one step from the value carried past the first `i`. -/
theorem getElem_output (carry : τ) (xs : List α) (i : Nat) (h : i < xs.length)
    (ho : i < (output step carry xs).length) :
    (output step carry xs)[i] = (step (final step carry (xs.take i)) xs[i]).2 := by
  induction xs generalizing carry i with
  | nil => simp at h
  | cons x xs ih =>
    cases i with
    | zero => rfl
    | succ i =>
      simp only [output_cons, List.getElem_cons_succ, List.take_succ_cons, final_cons]
      exact ih _ i (by simpa using h) _

/-- A list is read part by part, the second from the value carried past the first. -/
theorem output_append (carry : τ) (xs ys : List α) :
    output step carry (xs ++ ys) =
      output step carry xs ++ output step (final step carry xs) ys := by
  induction xs generalizing carry with
  | nil => rfl
  | cons x xs ih =>
    rw [List.cons_append, output_cons, ih, output_cons, final_cons, List.cons_append]

end Step

/-- When the letter written is also carried on, it is the value carried past its place. -/
theorem final_eq_getElem_output {step : τ → α → τ × τ}
    (h : ∀ carry x, (step carry x).1 = (step carry x).2) (carry : τ) (xs : List α) (i : Nat)
    (ho : i < (output step carry xs).length) :
    final step carry (xs.take (i + 1)) = (output step carry xs)[i] := by
  induction xs generalizing carry i with
  | nil => simp at ho
  | cons x xs ih =>
    cases i with
    | zero => exact h carry x
    | succ i =>
      simp only [List.take_succ_cons, final_cons, output_cons, List.getElem_cons_succ]
      exact ih _ i (by simpa using ho)

/-- When the letter read is carried on, it is the value carried past its place. -/
theorem final_eq_getElem {step : α → α → α × β} (h : ∀ carry x, (step carry x).1 = x) (carry : α)
    (xs : List α) (i : Nat) (hi : i < xs.length) :
    final step carry (xs.take (i + 1)) = xs[i] := by
  induction xs generalizing carry i with
  | nil => cases hi
  | cons x xs ih =>
    cases i with
    | zero => exact h carry x
    | succ i =>
      rw [List.take_succ_cons, final_cons, List.getElem_cons_succ]
      exact ih _ i (Nat.lt_of_succ_lt_succ hi)

/-! ## Two runs -/

/-- Runs on one list from related values write related letters, if every step keeps the
values related. -/
theorem output_related {step : τ → α → τ × β} {R : τ → τ → Prop} {Q : β → β → Prop}
    (hstep : ∀ c c' x, R c c' → R (step c x).1 (step c' x).1 ∧ Q (step c x).2 (step c' x).2)
    {c c' : τ} (hrelated : R c c') (xs : List α) (i : Nat) (h : i < (output step c xs).length)
    (h' : i < (output step c' xs).length) :
    Q (output step c xs)[i] (output step c' xs)[i] := by
  induction xs generalizing c c' i with
  | nil => cases h
  | cons x xs ih =>
    obtain ⟨hcarry, hletter⟩ := hstep c c' x hrelated
    cases i with
    | zero => exact hletter
    | succ i =>
      simp only [output_cons, List.getElem_cons_succ]
      exact ih hcarry i (Nat.lt_of_succ_lt_succ h) (Nat.lt_of_succ_lt_succ h')

section Agreement

variable [DecidableEq α] [DecidableEq β]

/-- The number of leading positions on which two lists agree. -/
def agreement : List α → List α → Nat
  | x :: xs, y :: ys => if x = y then agreement xs ys + 1 else 0
  | _, _ => 0

theorem agreement_map {f : α → β} (h : Function.Injective f) (xs ys : List α) :
    agreement (xs.map f) (ys.map f) = agreement xs ys := by
  induction xs generalizing ys with
  | nil => rfl
  | cons x xs ih =>
    cases ys with
    | nil => rfl
    | cons y ys => simp only [List.map_cons, agreement, h.eq_iff, ih]

/-- Runs on two lists from one value agree as far as the lists do, if a step writes
different letters for different letters read. -/
theorem agreement_output {step : τ → α → τ × β}
    (h : ∀ carry, Function.Injective fun x => (step carry x).2) (carry : τ) (xs ys : List α) :
    agreement (output step carry xs) (output step carry ys) = agreement xs ys := by
  induction xs generalizing carry ys with
  | nil => rfl
  | cons x xs ih =>
    cases ys with
    | nil => rfl
    | cons y ys =>
      simp only [output_cons, agreement]
      by_cases hxy : x = y
      · subst hxy
        rw [if_pos rfl, if_pos rfl, ih]
      · rw [if_neg fun he => hxy (h carry he), if_neg hxy]

end Agreement

/-- From every carried value, `back` recovers the letter `forth` read and carries on
with the same value. -/
def Undoes (back : τ → β → τ × α) (forth : τ → α → τ × β) : Prop :=
  ∀ carry x, back carry (forth carry x).2 = ((forth carry x).1, x)

/-- Steps that undo each other make machines that undo each other. -/
theorem output_output {back : τ → β → τ × α} {forth : τ → α → τ × β}
    (h : Undoes back forth) (carry : τ) (xs : List α) :
    output back carry (output forth carry xs) = xs := by
  induction xs generalizing carry with
  | nil => rfl
  | cons x xs ih =>
    simp only [output_cons, h carry x]
    rw [ih]

/-- A step that is undone writes different letters for different letters read. -/
theorem Undoes.injective {back : τ → β → τ × α} {forth : τ → α → τ × β} (h : Undoes back forth)
    (carry : τ) : Function.Injective fun x => (forth carry x).2 := by
  intro x y he
  have hback := congrArg (back carry) he
  rw [h carry x, h carry y] at hback
  exact congrArg Prod.snd hback

end Transducer
