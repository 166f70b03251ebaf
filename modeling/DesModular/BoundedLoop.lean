import Mathlib.Logic.Basic

/-!
# Loops with a bound on their iterations

A `while` loop whose body may fail, run for at most a given number of
iterations. A loop that is still going at its bound has no result.
-/
namespace BoundedLoop

variable {σ : Type}

def whileLoop (cond : σ → Bool) (body : σ → Option σ) : Nat → σ → Option σ
  | 0, s => if cond s then none else some s
  | fuel + 1, s => if cond s then (body s).bind (whileLoop cond body fuel) else some s

variable {cond : σ → Bool} {body : σ → Option σ}

theorem whileLoop_done {s : σ} (h : cond s = false) (fuel : Nat) :
    whileLoop cond body fuel s = some s := by
  cases fuel <;> simp [whileLoop, h]

theorem whileLoop_next {s t : σ} (h : cond s = true) (hb : body s = some t) (fuel : Nat) :
    whileLoop cond body (fuel + 1) s = whileLoop cond body fuel t := by
  simp [whileLoop, h, hb]

/-- A body that keeps an invariant and lowers a rank ends within as many iterations as
the rank, in a state where the condition fails. -/
theorem whileLoop_terminates {inv : σ → Prop} {rank : σ → Nat}
    (hbody : ∀ s, inv s → cond s = true → ∃ t, body s = some t ∧ inv t ∧ rank t < rank s)
    {s : σ} (hs : inv s) {fuel : Nat} (hfuel : rank s ≤ fuel) :
    ∃ t, whileLoop cond body fuel s = some t ∧ inv t ∧ cond t = false := by
  induction fuel generalizing s with
  | zero =>
    cases h : cond s with
    | false => exact ⟨s, whileLoop_done h 0, hs, h⟩
    | true =>
      obtain ⟨t, -, -, hlt⟩ := hbody s hs h
      omega
  | succ fuel ih =>
    cases h : cond s with
    | false => exact ⟨s, whileLoop_done h _, hs, h⟩
    | true =>
      obtain ⟨t, ht, hinv, hlt⟩ := hbody s hs h
      rw [whileLoop_next h ht]
      exact ih hinv (by omega)

/-! ## Iterations one by one -/

/-- The states in which an iteration begins, first one first. -/
def iterations (cond : σ → Bool) (body : σ → Option σ) : Nat → σ → List σ
  | 0, _ => []
  | fuel + 1, s => if cond s then s :: (body s).elim [] (iterations cond body fuel) else []

theorem iterations_done {s : σ} (h : cond s = false) (fuel : Nat) :
    iterations cond body fuel s = [] := by
  cases fuel <;> simp [iterations, h]

theorem iterations_next {s t : σ} (h : cond s = true) (hb : body s = some t) (fuel : Nat) :
    iterations cond body (fuel + 1) s = s :: iterations cond body fuel t := by
  simp [iterations, h, hb]

/-- What the body keeps holds whenever an iteration begins. -/
theorem iterations_inv {inv : σ → Prop}
    (hbody : ∀ s t, inv s → cond s = true → body s = some t → inv t) {s : σ} (hs : inv s)
    (fuel : Nat) : ∀ t ∈ iterations cond body fuel s, inv t ∧ cond t = true := by
  induction fuel generalizing s with
  | zero => simp [iterations]
  | succ fuel ih =>
    cases hcond : cond s with
    | false => simp [iterations_done hcond]
    | true =>
      cases hb : body s with
      | none => simp [iterations, hcond, hb, hs]
      | some t =>
        rw [iterations_next hcond hb]
        intro u hu
        obtain rfl | hu := List.mem_cons.mp hu
        · exact ⟨hs, hcond⟩
        · exact ih (hbody s t hs hcond hb) u hu

/-! ## Loops over a list -/

/-- A loop whose body never fails on the entries of the list is a fold. -/
theorem foldlM_eq_some {ι τ : Type} {body : τ → ι → Option τ} (next : τ → ι → τ) {list : List ι}
    (h : ∀ x ∈ list, ∀ s, body s x = some (next s x)) (s : τ) :
    list.foldlM body s = some (list.foldl next s) := by
  induction list generalizing s with
  | nil => rfl
  | cons x rest ih =>
    obtain ⟨hx, hrest⟩ := List.forall_mem_cons.mp h
    rw [List.foldlM_cons, hx, List.foldl_cons]
    exact ih hrest _

/-- A fold that counts. -/
theorem foldl_count {ι : Type} (p : ι → Bool) (list : List ι) (n : Nat) :
    list.foldl (fun n x => if p x then n + 1 else n) n = n + list.countP p := by
  induction list generalizing n with
  | nil => rfl
  | cons x rest ih =>
    rw [List.foldl_cons, ih, List.countP_cons]
    split <;> omega

end BoundedLoop
