import DesModular.DesParallelSafety
import Mathlib.Algebra.Order.BigOperators.Group.Finset

/-!
# Every call returns

Each step lowers a rank, and only a returned call has no step. So no schedule can keep
a call from returning, and what it returns is right for the whole range.
-/
namespace DesParallelProgress

open MachineWord DesBlock Keyspace DesBruteForce LabelledRun DesParallel DesParallelSafety

variable {job : Job}

/-- The steps left to the calling thread itself. -/
def mainRank (job : Job) (s : System) : Nat :=
  match s.main with
  | .entry => 3 * job.workerCount + 3
  | .creating i => 2 * (job.workerCount - i) + job.workerCount + 2
  | .sweeping i => 2 * (job.workerCount - i) + job.workerCount + 1
  | .joining j => s.threads.length - j + 1
  | .returned _ => 0

def workRank (job : Job) (s : System) : Nat :=
  ∑ i ∈ Finset.range job.workerCount, searchRank (job.arg i) (s.search i)

def rank (job : Job) (s : System) : Nat := mainRank job s + workRank job s

/-- A step of a worker lowers the work that is left. -/
theorem advance_workRank {s : System} (h : SearchesInv job s) {i : Nat}
    (hi : i < job.workerCount) (hbusy : (s.search i).pc ≠ .done) (seen : Bool) :
    workRank job (s.advance job i seen) < workRank job s := by
  have hfall : searchRank (job.arg i) ((s.advance job i seen).search i) <
      searchRank (job.arg i) (s.search i) := by
    rw [advance_search_same]
    exact searchStep_rank seen (h.searches i hi) hbusy
  apply Finset.sum_lt_sum
  · intro j _
    by_cases hji : j = i
    · subst hji
      exact Nat.le_of_lt hfall
    · rw [advance_search_other s seen hji]
  · exact ⟨i, Finset.mem_range.mpr hi, hfall⟩

theorem advance_rank {s : System} (h : SearchesInv job s) {i : Nat} (hi : i < job.workerCount)
    (hbusy : (s.search i).pc ≠ .done) (seen : Bool) :
    rank job (s.advance job i seen) < rank job s :=
  Nat.add_lt_add_left (advance_workRank h hi hbusy seen) _

/-- A step of the calling thread leaves the work as it is. -/
theorem main_rank {s : System} {main : MainPc} {threads : List Nat}
    (h : mainRank job { s with main := main, threads := threads } < mainRank job s) :
    rank job { s with main := main, threads := threads } < rank job s :=
  Nat.add_lt_add_right h _

theorem step_rank {s t : System} {e : Event} (h : Inv job s) (step : Step job s e t) :
    rank job t < rank job s := by
  have hmain := h.main
  cases step with
  | sequential hpc hsequential hr =>
    refine main_rank ?_
    simp only [mainRank, hpc]
    omega
  | split hpc hsplit =>
    refine main_rank ?_
    simp only [mainRank, hpc]
    omega
  | create hpc hi =>
    refine main_rank ?_
    simp only [mainRank, hpc]
    omega
  | createFails hpc hi =>
    refine main_rank ?_
    simp only [mainRank, hpc]
    omega
  | sweep hpc hbusy hseen => exact advance_rank h.workers (hmain.sweeping_lt hpc) hbusy _
  | swept hpc hdone =>
    have hlt := hmain.sweeping_lt hpc
    refine main_rank ?_
    simp only [mainRank, hpc]
    omega
  | allCreated hpc hi =>
    rw [MainInv, hpc] at hmain
    obtain ⟨-, hlen, hle, -⟩ := hmain
    refine main_rank ?_
    simp only [mainRank, hpc]
    omega
  | join hpc hj hdone =>
    refine main_rank ?_
    simp only [mainRank, hpc]
    omega
  | allJoined hpc hj =>
    refine main_rank ?_
    simp only [mainRank, hpc]
    omega
  | work hi hbusy hseen => exact advance_rank h.workers (h.threads _ hi) hbusy _

/-- The call has returned. -/
def Returned (s : System) : Prop := ∃ r, s.main = .returned r

/-- A call that has not returned has a step: a worker that is waited for can always go on. -/
theorem exists_step (s : System) (hnot : ¬Returned s) : ∃ e t, Step job s e t := by
  cases hpc : s.main with
  | entry =>
    by_cases h : job.Sequential
    · obtain ⟨r, hr, -⟩ := desBruteForce_solves job.space job.plaintext job.ciphertext job.start
        job.finish
      exact ⟨_, _, .sequential hpc h hr⟩
    · exact ⟨_, _, .split hpc h⟩
  | creating i =>
    by_cases hi : i < job.workerCount
    · exact ⟨_, _, .create hpc hi⟩
    · exact ⟨_, _, .allCreated hpc (Nat.le_of_not_lt hi)⟩
  | sweeping i =>
    by_cases hdone : (s.search i).pc = .done
    · exact ⟨_, _, .swept hpc hdone⟩
    · exact ⟨_, _, .sweep hpc hdone fun h : false = true => nomatch h⟩
  | joining j =>
    by_cases hj : j < s.threads.length
    · by_cases hdone : (s.search (s.threads.get ⟨j, hj⟩)).pc = .done
      · exact ⟨_, _, .join hpc hj hdone⟩
      · exact ⟨_, _, .work (List.get_mem _ _) hdone fun h : false = true => nomatch h⟩
    · exact ⟨_, _, .allJoined hpc (Nat.le_of_not_lt hj)⟩
  | returned r => exact absurd ⟨r, hpc⟩ hnot

/-- No schedule takes more steps than the rank of the call. -/
theorem run_length_le {trace : List Event} {s : System} (run : DesBruteForceParallel job trace s) :
    trace.length ≤ rank job (initial job) :=
  Nat.le_of_add_right_le (Run.length_add_rank_le (initial_inv job) (fun _ _ _ => step_inv)
    (fun _ _ _ => step_rank) run)

/-- Every run can be continued until the call returns. -/
theorem run_returns {trace : List Event} {s : System} (run : DesBruteForceParallel job trace s) :
    ∃ more t, DesBruteForceParallel job (trace ++ more) t ∧ Returned t :=
  Run.extend (initial_inv job) (fun _ _ _ => step_inv) (fun _ _ _ => step_rank)
    (fun s _ => exists_step s) run

/-! ## The result of a call -/

/-- Every returned result says whether the range has a match, and gives one if so. -/
theorem parallel_search_correct (job : Job) (trace : List Event) (s : System) (r : AttackResult)
    (run : DesBruteForceParallel job trace s) (hreturned : s.main = .returned r) :
    (r.found = true ↔ ∃ c, job.start ≤ c ∧ c < job.finish ∧
      desEncryptBlock job.plaintext (desKeyspaceKey job.space c) = job.ciphertext) ∧
    (r.found = true → job.start ≤ r.candidate ∧ r.candidate < job.finish ∧
      r.key = desKeyspaceKey job.space r.candidate ∧
      desEncryptBlock job.plaintext r.key = job.ciphertext) := by
  have h := returned_solves run hreturned
  exact ⟨h.found_iff, fun hf => ⟨h.lower hf, h.upper hf, h.key hf, h.recovers hf⟩⟩

/-- Two workers on three candidates. -/
def smallJob : Job := ⟨⟨1, 0#64, by decide, by decide⟩, 0#64, 0#64, 0#64, 3#64, 2#32⟩

theorem parallel_search_correct_two_workers : ∃ trace s r,
    DesBruteForceParallel smallJob trace s ∧ s.main = .returned r ∧
      (r.found = true ↔ ∃ c, smallJob.start ≤ c ∧ c < smallJob.finish ∧
        desEncryptBlock smallJob.plaintext (desKeyspaceKey smallJob.space c) =
          smallJob.ciphertext) := by
  obtain ⟨trace, s, run, r, hreturned⟩ := run_returns
    (Run.nil : DesBruteForceParallel smallJob [] (initial smallJob))
  exact ⟨_, s, r, run, hreturned, (parallel_search_correct smallJob _ s r run hreturned).1⟩

end DesParallelProgress
