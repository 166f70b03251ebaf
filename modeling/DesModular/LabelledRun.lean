import Mathlib.Logic.Basic
import Mathlib.Order.Basic

/-!
# Runs of a labelled transition relation

Finite runs with the labels of their steps, the invariant rule, and what a rank
that falls with every step says about the length of runs and about their ends.
-/
namespace LabelledRun

variable {σ ε : Type}

/-- Runs from a start state, extended at their end. -/
inductive Run (step : σ → ε → σ → Prop) (start : σ) : List ε → σ → Prop
  | nil : Run step start [] start
  | snoc {trace : List ε} {s t : σ} {e : ε} (run : Run step start trace s) (next : step s e t) :
    Run step start (trace ++ [e]) t

variable {step : σ → ε → σ → Prop} {start : σ}

/-- What holds at the start and is kept by every step, of the labels so far and the
state, holds of every run. -/
theorem Run.invariant (inv : List ε → σ → Prop) (hstart : inv [] start)
    (hstep : ∀ trace s e t, inv trace s → step s e t → inv (trace ++ [e]) t)
    {trace : List ε} {s : σ} (run : Run step start trace s) : inv trace s := by
  induction run with
  | nil => exact hstart
  | snoc run next ih => exact hstep _ _ _ _ ih next

theorem Run.invariant_state {inv : σ → Prop} (hstart : inv start)
    (hstep : ∀ s e t, inv s → step s e t → inv t)
    {trace : List ε} {s : σ} (run : Run step start trace s) : inv s :=
  Run.invariant (fun _ s => inv s) hstart (fun _ => hstep) run

/-- Runs of fewer steps are runs. -/
theorem Run.mono {fewer : σ → ε → σ → Prop} (h : ∀ s e t, fewer s e t → step s e t)
    {trace : List ε} {s : σ} (run : Run fewer start trace s) : Run step start trace s := by
  induction run with
  | nil => exact .nil
  | snoc run next ih => exact ih.snoc (h _ _ _ next)

section Rank

variable {inv : σ → Prop} {rank : σ → Nat} (hstart : inv start)
  (hstep : ∀ s e t, inv s → step s e t → inv t)
  (hrank : ∀ s e t, inv s → step s e t → rank t < rank s)

include hstart hstep hrank

/-- A rank bounds the length of every run. -/
theorem Run.length_add_rank_le {trace : List ε} {s : σ} (run : Run step start trace s) :
    trace.length + rank s ≤ rank start := by
  induction run with
  | nil => exact Nat.le_of_eq (Nat.zero_add _)
  | snoc run next ih =>
    have hfall := hrank _ _ _ (Run.invariant_state hstart hstep run) next
    rw [List.length_append, List.length_singleton]
    omega

/-- If only final states have no step, every run can be continued to a final state. -/
theorem Run.extend {final : σ → Prop} (hprogress : ∀ s, inv s → ¬final s → ∃ e t, step s e t)
    {trace : List ε} {s : σ} (run : Run step start trace s) :
    ∃ more t, Run step start (trace ++ more) t ∧ final t := by
  induction h : rank s using Nat.strongRecOn generalizing trace s with
  | ind r ih =>
    have hinv := Run.invariant_state hstart hstep run
    by_cases hfinal : final s
    · exact ⟨[], s, by rwa [List.append_nil], hfinal⟩
    · obtain ⟨e, t, next⟩ := hprogress s hinv hfinal
      have hfall := hrank s e t hinv next
      obtain ⟨more, u, hrun, hu⟩ := ih (rank t) (by omega) (run.snoc next) rfl
      exact ⟨e :: more, u, by rwa [List.append_assoc] at hrun, hu⟩

end Rank

end LabelledRun
