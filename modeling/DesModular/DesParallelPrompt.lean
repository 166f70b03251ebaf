import DesModular.DesParallelSchedule
import Mathlib.Algebra.Group.Action.Defs

/-!
# Prompt stop

When reads of the flag return its value, a worker tests no more candidates after the
flag was raised than are left before its next poll.
-/
namespace DesParallelPrompt

open MachineWord DesBlock Keyspace DesBruteForce LabelledRun DesParallel DesParallelSafety
open DesParallelProgress DesParallelWork DesParallelSchedule

variable {job : Job}

/-! ## One worker -/

/-- The candidates a worker can still test before it polls. -/
def beforePoll (s : SearchState) : Nat :=
  match s.pc with
  | .head => (4096 - s.result.candidatesTested.toNat % 4096) % 4096
  | .test => 4096 - s.result.candidatesTested.toNat % 4096
  | .publish => 0
  | .done => 0

theorem beforePoll_le (s : SearchState) : beforePoll s ≤ 4096 := by
  rw [beforePoll]
  split <;> omega

@[simp] theorem beforePoll_initial (arg : WorkerArg) : beforePoll (initialSearch arg) = 0 := by
  simp [beforePoll, initialSearch, noResult]

theorem poll_eq (tested : U64) :
    (tested % stopCheckInterval == 0#64) = decide (tested.toNat % 4096 = 0) := by
  have hmod : (tested % stopCheckInterval).toNat = tested.toNat % 4096 := BitVec.toNat_umod
  rw [Bool.eq_iff_iff, beq_iff_eq, decide_eq_true_iff, ← BitVec.toNat_inj, hmod]
  rfl

/-- With the flag raised, every test uses up one of the candidates before the poll, and the
poll ends the loop. -/
theorem searchStep_beforePoll {arg : WorkerArg} (hs : arg.shared = true) (s : SearchState) :
    (if s.pc = .test then 1 else 0) + beforePoll (searchStep arg true s) ≤ beforePoll s := by
  obtain ⟨pc, candidate, result⟩ := s
  cases pc with
  | head =>
    have hpoll := poll_eq result.candidatesTested
    by_cases hlt : candidate < arg.finish
    · by_cases hzero : result.candidatesTested.toNat % 4096 = 0
      · simp [searchStep, beforePoll, hs, hlt, hpoll, hzero]
      · simp [searchStep, beforePoll, hs, hlt, hpoll, hzero]
        omega
    · simp [searchStep, beforePoll, hlt]
  | test =>
    have hmod := Nat.mod_lt result.candidatesTested.toNat (by decide : 0 < 4096)
    by_cases hmatch : desEncryptBlock arg.plaintext (desKeyspaceKey arg.space candidate) =
        arg.ciphertext
    · simp [searchStep, beforePoll, hs, hmatch]
      omega
    · simp [searchStep, beforePoll, hmatch, BitVec.toNat_add]
      omega
  | publish => simp [searchStep, beforePoll]
  | done => simp [searchStep, beforePoll]

/-- A worker that is not done moves. -/
theorem searchStep_ne (arg : WorkerArg) (seen : Bool) {s : SearchState} (h : s.pc ≠ .done) :
    searchStep arg seen s ≠ s := by
  intro he
  have hpc := congrArg SearchState.pc he
  obtain ⟨pc, candidate, result⟩ := s
  cases pc with
  | head =>
    simp only [searchStep] at hpc
    split at hpc
    · split at hpc
      · cases hpc
      · cases hpc
    · cases hpc
  | test =>
    simp only [searchStep] at hpc
    split at hpc
    · split at hpc
      · cases hpc
      · cases hpc
    · cases hpc
  | publish => cases hpc
  | done => exact h rfl

/-! ## Steps that read the flag -/

/-- A worker's step is the one in which it reads the value of the flag. -/
theorem advance_reads {s : System} {i : Nat} {seen : Bool} (hbusy : (s.search i).pc ≠ .done)
    (hread : (s.advance job i seen).search = s.search ∨
      ∃ k, s.advance job i seen = s.advance job k s.stop) :
    s.advance job i seen = s.advance job i s.stop := by
  have hmoves : (s.advance job i seen).search i ≠ s.search i := by
    rw [advance_search_same]
    exact searchStep_ne _ seen hbusy
  obtain hsame | ⟨k, hk⟩ := hread
  · exact absurd (congrFun hsame i) hmoves
  · by_cases hik : i = k
    · rw [hk, hik]
    · rw [hk, advance_search_other s s.stop hik] at hmoves
      exact absurd rfl hmoves

/-- What an immediate step does: nothing to the workers, or it lets one of them move. -/
theorem immediateStep_cases {s t : System} {e : Event} (hinv : Inv job s)
    (next : ImmediateStep job s e t) :
    (e = .quiet ∧ t.search = s.search ∧ t.stop = s.stop) ∨
      ∃ i < job.workerCount, e = s.event i ∧ t = s.advance job i s.stop := by
  obtain ⟨step, hread⟩ := next
  cases step with
  | sequential hpc hsequential hr => exact .inl ⟨rfl, rfl, rfl⟩
  | split hpc hsplit => exact .inl ⟨rfl, rfl, rfl⟩
  | create hpc hi => exact .inl ⟨rfl, rfl, rfl⟩
  | createFails hpc hi => exact .inl ⟨rfl, rfl, rfl⟩
  | @sweep i seen hpc hbusy hseen =>
    exact .inr ⟨i, hinv.main.sweeping_lt hpc, rfl, advance_reads hbusy hread⟩
  | swept hpc hdone => exact .inl ⟨rfl, rfl, rfl⟩
  | allCreated hpc hi => exact .inl ⟨rfl, rfl, rfl⟩
  | join hpc hj hdone => exact .inl ⟨rfl, rfl, rfl⟩
  | allJoined hpc hj => exact .inl ⟨rfl, rfl, rfl⟩
  | @work i seen hi hbusy hseen =>
    exact .inr ⟨i, hinv.threads i hi, rfl, advance_reads hbusy hread⟩

/-- The number of candidates worker `i` tests in a trace. -/
def testsBy (i : Nat) (trace : List Event) : Nat := ((tests trace).map Prod.fst).count i

@[simp] theorem testsBy_nil (i : Nat) : testsBy i [] = 0 := rfl

theorem testsBy_append (i : Nat) (trace more : List Event) :
    testsBy i (trace ++ more) = testsBy i trace + testsBy i more := by
  rw [testsBy, tests_append, List.map_append, List.count_append]
  rfl

theorem testsBy_quiet (i : Nat) : testsBy i [.quiet] = 0 := rfl

theorem testsBy_event (s : System) (i k : Nat) :
    testsBy i [s.event k] = if i = k ∧ (s.search k).pc = .test then 1 else 0 := by
  by_cases hpc : (s.search k).pc = .test
  · by_cases hik : i = k
    · simp [System.event, hpc, hik, testsBy, tests]
    · have hki : k ≠ i := Ne.symm hik
      simp [System.event, hpc, hik, hki, testsBy, tests]
  · simp [System.event, hpc, testsBy, tests]

/-- After the flag was raised, what worker `i` tested and what it can still test add up to
what it could test then. -/
structure PromptInv (s : System) (more : List Event) (t : System) : Prop where
  stop : t.stop = true
  budget : ∀ i, testsBy i more + beforePoll (t.search i) ≤ beforePoll (s.search i)
  counted : ∀ i, testCount t i = testCount s i + testsBy i more

theorem PromptInv.step {s t u : System} {more : List Event} {e : Event}
    (h : PromptInv s more t) (hinv : Inv job t) (next : ImmediateStep job t e u) :
    PromptInv s (more ++ [e]) u := by
  obtain ⟨rfl, hsearch, hstop⟩ | ⟨k, hk, rfl, rfl⟩ := immediateStep_cases hinv next
  · refine ⟨hstop.trans h.stop, ?_, ?_⟩
    · intro i
      rw [testsBy_append, testsBy_quiet, hsearch]
      exact h.budget i
    · intro i
      rw [testsBy_append, testsBy_quiet, testCount, hsearch]
      exact h.counted i
  · have hbudget := h.budget
    have hcounted := h.counted
    rw [h.stop]
    refine ⟨?_, ?_, ?_⟩
    · rw [advance_stop, h.stop]
      rfl
    · intro i
      rw [testsBy_append, testsBy_event]
      by_cases hik : i = k
      · subst hik
        have hshared : (job.arg i).shared = true := rfl
        have hpoll := searchStep_beforePoll hshared (t.search i)
        have hold := hbudget i
        rw [advance_search_same]
        by_cases hpc : (t.search i).pc = .test
        · simp only [hpc, if_true, and_self] at hpoll ⊢
          omega
        · simp only [hpc, if_false, and_false] at hpoll ⊢
          omega
      · rw [advance_search_other t true hik, if_neg fun hc => hik hc.1]
        exact hbudget i
    · intro i
      rw [testsBy_append, testsBy_event, ← Nat.add_assoc, ← hcounted i]
      by_cases hpc : (t.search k).pc = .test
      · by_cases hik : i = k
        · subst hik
          rw [if_pos ⟨rfl, hpc⟩]
          exact (testCount_test hinv.workers hk true hpc).2
        · rw [if_neg fun hc => hik hc.1, testCount_other true hik]
          rfl
      · rw [if_neg fun hc => hpc hc.2, testCount_quiet true hpc]
        rfl

theorem run_promptInv {s t : System} {more : List Event} (hinv : Inv job s) (hstop : s.stop = true)
    (rest : Run (ImmediateStep job) s more t) : Inv job t ∧ PromptInv s more t := by
  refine Run.invariant (fun more t => Inv job t ∧ PromptInv s more t) ⟨hinv, ?_⟩ ?_ rest
  · exact ⟨hstop, fun i => by simp, fun i => by simp⟩
  · rintro more t e u ⟨hinv, h⟩ next
    exact ⟨step_inv hinv next.1, h.step hinv next⟩

/-! ## The bound -/

/-- A call that is handed to the sequential search moves no worker. -/
structure SequentialInv (s : System) : Prop where
  threads : s.threads = []
  stop : s.stop = false
  main : s.main = .entry ∨ Returned s

theorem SequentialInv.step (hsequential : job.Sequential) {s t : System} {e : Event}
    (h : SequentialInv s) (step : Step job s e t) : SequentialInv t := by
  have hmain := h.main
  cases step with
  | sequential hpc _ hr => exact ⟨h.threads, h.stop, .inr ⟨_, rfl⟩⟩
  | split hpc hsplit => exact absurd hsequential hsplit
  | work hi hbusy hseen =>
    rw [h.threads] at hi
    cases hi
  | create hpc hi => simp [hpc, Returned] at hmain
  | createFails hpc hi => simp [hpc, Returned] at hmain
  | sweep hpc hbusy hseen => simp [hpc, Returned] at hmain
  | swept hpc hdone => simp [hpc, Returned] at hmain
  | allCreated hpc hi => simp [hpc, Returned] at hmain
  | join hpc hj hdone => simp [hpc, Returned] at hmain
  | allJoined hpc hj => simp [hpc, Returned] at hmain

theorem raised_not_sequential {trace : List Event} {s : System}
    (run : DesBruteForceParallel job trace s) (hstop : s.stop = true) : ¬job.Sequential := by
  intro hsequential
  have hstart : SequentialInv (initial job) := ⟨rfl, rfl, .inl rfl⟩
  have hinv := Run.invariant_state hstart (fun _ _ _ h next => h.step hsequential next) run
  rw [hinv.stop] at hstop
  cases hstop

/-- The worker that raised the flag tests nothing more. -/
theorem found_beforePoll {arg : WorkerArg} {raised : Bool} {s : SearchState}
    (h : SearchInv arg raised s) (hf : s.result.found = true) : beforePoll s = 0 := by
  obtain hpc | hpc := h.found_pc hf
  · rw [beforePoll, hpc]
  · rw [beforePoll, hpc]

theorem workerCount_le_workers (job : Job) : job.workerCount ≤ job.workers.toNat := by
  have hmax : (64#32 : U32).toNat = 64 := rfl
  rw [Job.workerCount]
  split
  next h =>
    rw [BitVec.lt_def, hmax] at h
    exact Nat.le_of_lt h
  next => exact Nat.le_refl _

/-- A bounded sum with one term that is zero. -/
theorem sum_le_of_zero {n bound : Nat} {f : Nat → Nat} (h : ∀ i, f i ≤ bound) {k : Nat}
    (hk : k < n) (hzero : f k = 0) : ∑ i ∈ Finset.range n, f i ≤ bound * (n - 1) := by
  have hmem : k ∈ Finset.range n := Finset.mem_range.mpr hk
  have hcard : ((Finset.range n).erase k).card = n - 1 := by
    rw [Finset.card_erase_of_mem hmem, Finset.card_range]
  have hothers := Finset.sum_le_card_nsmul ((Finset.range n).erase k) f bound fun i _ => h i
  rw [hcard, smul_eq_mul, Nat.mul_comm] at hothers
  rw [← Finset.add_sum_erase _ _ hmem, hzero, Nat.zero_add]
  exact hothers

/-! ## Orders of the workers -/

/-- The threads take one step each in the given order. -/
def inOrder (job : Job) : System → List Nat → System
  | s, [] => s
  | s, i :: order => inOrder job (s.advance job i s.stop) order

def orderEvents (job : Job) : System → List Nat → List Event
  | _, [] => []
  | s, i :: order => s.event i :: orderEvents job (s.advance job i s.stop) order

/-- Each of them has a step to take. -/
def Legal (job : Job) : System → List Nat → Prop
  | _, [] => True
  | s, i :: order =>
    (i ∈ s.threads ∧ (s.search i).pc ≠ .done) ∧ Legal job (s.advance job i s.stop) order

instance Legal.decide (job : Job) : (s : System) → (order : List Nat) →
    Decidable (Legal job s order)
  | _, [] => .isTrue trivial
  | s, i :: order =>
    have := Legal.decide job (s.advance job i s.stop) order
    inferInstanceAs (Decidable (_ ∧ _))

theorem run_inOrder {start s : System} {trace : List Event}
    (run : Run (ImmediateStep job) start trace s) {order : List Nat} (h : Legal job s order) :
    Run (ImmediateStep job) start (trace ++ orderEvents job s order) (inOrder job s order) := by
  induction order generalizing s trace with
  | nil =>
    rw [orderEvents, List.append_nil]
    exact run
  | cons i order ih =>
    obtain ⟨⟨hi, hbusy⟩, hrest⟩ := h
    have next : ImmediateStep job s (s.event i) (s.advance job i s.stop) :=
      ⟨.work hi hbusy id, .inr ⟨i, rfl⟩⟩
    have hloop := ih (run.snoc next) hrest
    rwa [List.append_assoc, List.singleton_append] at hloop

/-- Two threads that are through with their intervals are joined. -/
theorem run_joins (hcount : job.workerCount ≤ 2) {start s : System} {trace : List Event}
    (run : Run (ImmediateStep job) start trace s) (hmain : s.main = .creating 2)
    (hthreads : s.threads = [0, 1]) (hfirst : (s.search 0).pc = .done)
    (hsecond : (s.search 1).pc = .done) :
    Run (ImmediateStep job) start (trace ++ [.quiet] ++ [.quiet] ++ [.quiet] ++ [.quiet])
      { s with main := .returned (collect s.search job.workerCount) } := by
  obtain ⟨main, threads, stop, search⟩ := s
  obtain rfl := hmain
  obtain rfl := hthreads
  have joining := run.snoc ⟨.allCreated rfl hcount, .inl rfl⟩
  have joined := (joining.snoc ⟨.join rfl Nat.zero_lt_two hfirst, .inl rfl⟩).snoc
    ⟨.join rfl Nat.one_lt_two hsecond, .inl rfl⟩
  exact joined.snoc ⟨.allJoined rfl (Nat.le_refl 2), .inl rfl⟩

/-! ## The bound -/

/-- Once the flag is raised, every worker tests at most 4096 more candidates, one that has
not started tests none, and the reported number of tests exceeds those made so far by at
most 4096 for each of the other workers. -/
theorem prompt_stop (job : Job) {trace more : List Event} {s t : System}
    (run : Run (ImmediateStep job) (initial job) trace s) (hstop : s.stop = true)
    (rest : Run (ImmediateStep job) s more t) :
    (∀ i, testsBy i more ≤ 4096) ∧
    (∀ i, s.search i = initialSearch (job.arg i) → testsBy i more = 0) ∧
    ∀ r, t.main = .returned r →
      r.candidatesTested.toNat ≤ (tests trace).length + 4096 * (job.workers.toNat - 1) := by
  have hsplit := raised_not_sequential (immediate_run run) hstop
  obtain ⟨hinv, hwork⟩ := run_workInv hsplit (immediate_run run)
  obtain ⟨hinv', hprompt⟩ := run_promptInv hinv hstop rest
  have hbound : ∀ i, testsBy i more ≤ 4096 :=
    fun i => Nat.le_trans (Nat.le_of_add_right_le (hprompt.budget i)) (beforePoll_le _)
  refine ⟨hbound, ?_, ?_⟩
  · intro i hstart
    have hbudget := hprompt.budget i
    rw [hstart, beforePoll_initial] at hbudget
    omega
  · intro r hreturned
    obtain ⟨rfl, -⟩ := hinv'.returned hsplit hreturned
    have hle := sum_testCount_le hsplit hinv'.workers
    have htotal := start_add_total hsplit
    have hfits := job.finish.isLt
    obtain ⟨k, hk, hf⟩ := hinv.workers.raised hstop
    have hzero : testsBy k more = 0 := by
      have hbudget := hprompt.budget k
      rw [found_beforePoll (hinv.workers.searches k hk) hf] at hbudget
      omega
    have hsum := sum_le_of_zero hbound hk hzero
    have hworkers := workerCount_le_workers job
    have hlimit : 4096 * (job.workerCount - 1) ≤ 4096 * (job.workers.toNat - 1) :=
      Nat.mul_le_mul_left 4096 (Nat.sub_le_sub_right hworkers 1)
    rw [collect_tested t job.workerCount (by omega), Finset.sum_congr rfl fun i _ =>
      hprompt.counted i, Finset.sum_add_distrib, ← hwork.counted]
    omega

/-- Two workers that have been started. -/
def bothStarted : System := { initial twoMatches with main := .creating 2, threads := [0, 1] }

/-- The first one has raised the flag, the second one has polled before. -/
def flagRaised : System := inOrder twoMatches bothStarted [1, 0, 0, 0]

/-- The second one has tested its first candidate, which is a match too. -/
def bothDone : System := inOrder twoMatches flagRaised [1, 1]

/-- A worker that still tests a candidate after the flag was raised, and what the call
returns then. -/
theorem prompt_stop_two_workers : ∃ trace more s t r,
    Run (ImmediateStep twoMatches) (initial twoMatches) trace s ∧ s.stop = true ∧
      Run (ImmediateStep twoMatches) s more t ∧ t.main = .returned r ∧
      testsBy 1 trace = 0 ∧ testsBy 1 more = 1 ∧ (∀ i, testsBy i more ≤ 4096) ∧
      r.candidatesTested.toNat ≤ (tests trace).length + 4096 := by
  have called : Run (ImmediateStep twoMatches) (initial twoMatches) _ _ :=
    Run.nil.snoc ⟨.split rfl (by decide), .inl rfl⟩
  have created := (called.snoc ⟨.create rfl (by decide : 0 < twoMatches.workerCount),
    .inl rfl⟩).snoc ⟨.create rfl (by decide : 1 < twoMatches.workerCount), .inl rfl⟩
  have started : Run (ImmediateStep twoMatches) (initial twoMatches) [.quiet, .quiet, .quiet]
      bothStarted := created
  obtain ⟨hlegal, hevents, hstop, hlegal', hevents', hcreated, hthreads, hfirst, hsecond⟩ :
      Legal twoMatches bothStarted [1, 0, 0, 0] ∧
        orderEvents twoMatches bothStarted [1, 0, 0, 0] =
          [.quiet, .quiet, .tested 0 0#64, .quiet] ∧ flagRaised.stop = true ∧
        Legal twoMatches flagRaised [1, 1] ∧
        orderEvents twoMatches flagRaised [1, 1] = [.tested 1 2#64, .quiet] ∧
        bothDone.main = .creating 2 ∧ bothDone.threads = [0, 1] ∧
        (bothDone.search 0).pc = .done ∧ (bothDone.search 1).pc = .done := by decide +kernel
  have run : Run (ImmediateStep twoMatches) (initial twoMatches) _ flagRaised :=
    run_inOrder started hlegal
  have done : Run (ImmediateStep twoMatches) flagRaised _ bothDone := run_inOrder Run.nil hlegal'
  rw [hevents] at run
  rw [hevents'] at done
  have rest := run_joins (by decide) done hcreated hthreads hfirst hsecond
  obtain ⟨hbound, -, hreturned⟩ := prompt_stop twoMatches run hstop rest
  have htested := hreturned _ rfl
  have hothers : 4096 * (twoMatches.workers.toNat - 1) = 4096 := by decide
  rw [hothers] at htested
  exact ⟨_, _, _, _, _, run, hstop, rest, rfl, by decide, by decide, hbound, htested⟩

end DesParallelPrompt
