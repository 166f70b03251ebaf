import DesModular.DesParallel

/-!
# Safety of the parallel search

The invariant that ties the stop flag to a match recorded by some worker, and what
follows for the returned result.
-/
namespace DesParallelSafety

open MachineWord Keyspace DesBruteForce LabelledRun DesParallel

variable {job : Job}

/-! ## Workers -/

/-- Every worker keeps its own invariant, and a raised flag has a worker behind it that
recorded a match. -/
structure SearchesInv (job : Job) (s : System) : Prop where
  searches : ∀ i < job.workerCount, SearchInv (job.arg i) s.stop (s.search i)
  raised : s.stop = true → ∃ i < job.workerCount, (s.search i).result.found = true

@[simp] theorem advance_main (job : Job) (s : System) (i : Nat) (seen : Bool) :
    (s.advance job i seen).main = s.main := rfl
@[simp] theorem advance_threads (job : Job) (s : System) (i : Nat) (seen : Bool) :
    (s.advance job i seen).threads = s.threads := rfl
@[simp] theorem advance_stop (job : Job) (s : System) (i : Nat) (seen : Bool) :
    (s.advance job i seen).stop = (s.stop || (s.search i).pc == .publish) := rfl
@[simp] theorem advance_search_same (job : Job) (s : System) (i : Nat) (seen : Bool) :
    (s.advance job i seen).search i = searchStep (job.arg i) seen (s.search i) :=
  Function.update_self _ _ _

theorem advance_search_other (s : System) {i j : Nat} (seen : Bool) (h : j ≠ i) :
    (s.advance job i seen).search j = s.search j := Function.update_of_ne h _ _

/-- A match once recorded stays recorded. -/
theorem searchStep_found {arg : WorkerArg} {raised : Bool} (seen : Bool) {s : SearchState}
    (h : SearchInv arg raised s) (hf : s.result.found = true) :
    (searchStep arg seen s).result.found = true := by
  obtain hpc | hpc := h.found_pc hf
  · simp only [searchStep, hpc]
    exact hf
  · simp only [searchStep, hpc]
    exact hf

theorem SearchesInv.advance {s : System} (h : SearchesInv job s) {i : Nat}
    (hi : i < job.workerCount) {seen : Bool} (hseen : seen = true → s.stop = true) :
    SearchesInv job (s.advance job i seen) where
  searches := by
    intro j hj
    by_cases hji : j = i
    · subst hji
      rw [advance_search_same]
      exact searchStep_inv (h.searches j hj) hseen
    · rw [advance_search_other s seen hji]
      exact (h.searches j hj).mono fun hr => by rw [advance_stop, hr]; rfl
  raised := by
    intro hstop
    obtain hold | hpublish := Bool.or_eq_true_iff.mp hstop
    · obtain ⟨j, hj, hf⟩ := h.raised hold
      refine ⟨j, hj, ?_⟩
      by_cases hji : j = i
      · subst hji
        rw [advance_search_same]
        exact searchStep_found seen (h.searches j hj) hf
      · rw [advance_search_other s seen hji]
        exact hf
    · -- the flag is raised only by a worker that recorded its match before
      have hpc : (s.search i).pc = .publish := eq_of_beq hpublish
      have hinv := h.searches i hi
      refine ⟨i, hi, ?_⟩
      rw [advance_search_same]
      refine searchStep_found seen hinv ?_
      rw [SearchInv, hpc] at hinv
      exact hinv.1.found

/-! ## The calling thread -/

def Finished (s : System) (i : Nat) : Prop := (s.search i).pc = .done

/-- Worker `i` has a thread or is finished. -/
def Launched (s : System) (i : Nat) : Prop := i ∈ s.threads ∨ Finished s i

def MainInv (job : Job) (s : System) : Prop :=
  match s.main with
  | .entry => s.threads = []
  | .creating i => ¬job.Sequential ∧ s.threads.length ≤ i ∧ i ≤ job.workerCount ∧
      ∀ j < i, Launched s j
  | .sweeping i => ¬job.Sequential ∧ s.threads.length ≤ i ∧ i < job.workerCount ∧
      ∀ j < i, Launched s j
  | .joining j => ¬job.Sequential ∧ s.threads.length ≤ job.workerCount ∧
      (∀ i < job.workerCount, Launched s i) ∧ ∀ i ∈ s.threads.take j, Finished s i
  | .returned r =>
      job.Sequential ∧
        desBruteForce job.space job.plaintext job.ciphertext job.start job.finish = some r ∨
      ¬job.Sequential ∧ r = collect s.search job.workerCount ∧
        ∀ i < job.workerCount, Finished s i

structure Inv (job : Job) (s : System) : Prop where
  workers : SearchesInv job s
  threads : ∀ i ∈ s.threads, i < job.workerCount
  main : MainInv job s

theorem initial_inv (job : Job) : Inv job (initial job) where
  workers := ⟨fun i _ => initialSearch_inv (job.arg i) false, fun h => by cases h⟩
  threads := fun i hi => by cases hi
  main := rfl

theorem Finished.advance {s : System} {i j : Nat} (h : Finished s j)
    (hbusy : (s.search i).pc ≠ .done) (seen : Bool) : Finished (s.advance job i seen) j := by
  have hne : j ≠ i := by
    rintro rfl
    exact hbusy h
  rw [Finished, advance_search_other s seen hne]
  exact h

theorem Launched.advance {s : System} {i j : Nat} (h : Launched s j)
    (hbusy : (s.search i).pc ≠ .done) (seen : Bool) : Launched (s.advance job i seen) j :=
  h.imp id fun hf => hf.advance hbusy seen

/-- A step of a worker leaves the calling thread's knowledge intact. -/
theorem MainInv.advance {s : System} (h : MainInv job s) {i : Nat} (hi : i < job.workerCount)
    (hbusy : (s.search i).pc ≠ .done) (seen : Bool) : MainInv job (s.advance job i seen) := by
  simp only [MainInv, advance_main, advance_threads] at h ⊢
  cases hmain : s.main with
  | entry =>
    rw [hmain] at h
    exact h
  | creating n =>
    rw [hmain] at h
    exact ⟨h.1, h.2.1, h.2.2.1, fun j hj => (h.2.2.2 j hj).advance hbusy seen⟩
  | sweeping n =>
    rw [hmain] at h
    exact ⟨h.1, h.2.1, h.2.2.1, fun j hj => (h.2.2.2 j hj).advance hbusy seen⟩
  | joining n =>
    rw [hmain] at h
    exact ⟨h.1, h.2.1, fun j hj => (h.2.2.1 j hj).advance hbusy seen,
      fun j hj => (h.2.2.2 j hj).advance hbusy seen⟩
  | returned r =>
    rw [hmain] at h
    obtain hsequential | ⟨-, -, hfinished⟩ := h
    · exact .inl hsequential
    · exact absurd (hfinished i hi) hbusy

theorem Inv.advance {s : System} (h : Inv job s) {i : Nat} (hi : i < job.workerCount)
    (hbusy : (s.search i).pc ≠ .done) {seen : Bool} (hseen : seen = true → s.stop = true) :
    Inv job (s.advance job i seen) :=
  ⟨h.workers.advance hi hseen, h.threads, h.main.advance hi hbusy seen⟩

theorem MainInv.sweeping_lt {s : System} (h : MainInv job s) {i : Nat}
    (hpc : s.main = .sweeping i) : i < job.workerCount := by
  rw [MainInv, hpc] at h
  exact h.2.2.1

/-- A step of the calling thread that changes no worker. -/
theorem Inv.withMain {s : System} (h : Inv job s) {main : MainPc} {threads : List Nat}
    (hthreads : ∀ i ∈ threads, i < job.workerCount)
    (hmain : MainInv job { s with main := main, threads := threads }) :
    Inv job { s with main := main, threads := threads } :=
  ⟨⟨h.workers.searches, h.workers.raised⟩, hthreads, hmain⟩

/-- Every step keeps the invariant. -/
theorem step_inv {s t : System} {e : Event} (h : Inv job s) (step : Step job s e t) :
    Inv job t := by
  have hmain := h.main
  cases step with
  | sequential hpc hsequential hr => exact h.withMain h.threads (.inl ⟨hsequential, hr⟩)
  | split hpc hsplit =>
    rw [MainInv, hpc] at hmain
    refine h.withMain h.threads
      ⟨hsplit, ?_, Nat.zero_le _, fun j hj => absurd hj (Nat.not_lt_zero j)⟩
    exact Nat.le_of_eq (congrArg List.length hmain)
  | @create i hpc hi =>
    rw [MainInv, hpc] at hmain
    obtain ⟨hsplit, hlen, -, hlaunched⟩ := hmain
    refine h.withMain ?_ ⟨hsplit, ?_, hi, ?_⟩
    · intro j hj
      obtain hj | hj := List.mem_append.mp hj
      · exact h.threads j hj
      · rw [List.mem_singleton.mp hj]
        exact hi
    · rw [List.length_append, List.length_singleton]
      exact Nat.succ_le_succ hlen
    · intro j hj
      by_cases hji : j = i
      · exact .inl (List.mem_append.mpr (.inr (List.mem_singleton.mpr hji)))
      · exact (hlaunched j (by omega)).imp (fun hmem => List.mem_append.mpr (.inl hmem)) id
  | createFails hpc hi =>
    rw [MainInv, hpc] at hmain
    exact h.withMain h.threads ⟨hmain.1, hmain.2.1, hi, hmain.2.2.2⟩
  | sweep hpc hbusy hseen => exact h.advance (hmain.sweeping_lt hpc) hbusy hseen
  | @swept i hpc hdone =>
    rw [MainInv, hpc] at hmain
    obtain ⟨hsplit, hlen, hi, hlaunched⟩ := hmain
    refine h.withMain h.threads ⟨hsplit, Nat.le_succ_of_le hlen, hi, ?_⟩
    intro j hj
    by_cases hji : j = i
    · rw [hji]
      exact .inr hdone
    · exact hlaunched j (by omega)
  | allCreated hpc hi =>
    rw [MainInv, hpc] at hmain
    obtain ⟨hsplit, hlen, hle, hlaunched⟩ := hmain
    exact h.withMain h.threads ⟨hsplit, Nat.le_trans hlen hle,
      fun j hj => hlaunched j (Nat.lt_of_lt_of_le hj hi), fun j hj => by cases hj⟩
  | @join j hpc hj hdone =>
    rw [MainInv, hpc] at hmain
    obtain ⟨hsplit, hlen, hlaunched, hjoined⟩ := hmain
    refine h.withMain h.threads ⟨hsplit, hlen, hlaunched, ?_⟩
    intro i hi
    rw [List.take_succ_eq_append_getElem hj] at hi
    obtain hi | hi := List.mem_append.mp hi
    · exact hjoined i hi
    · rw [List.mem_singleton.mp hi]
      exact hdone
  | allJoined hpc hj =>
    rw [MainInv, hpc] at hmain
    obtain ⟨hsplit, -, hlaunched, hjoined⟩ := hmain
    refine h.withMain h.threads (.inr ⟨hsplit, rfl, ?_⟩)
    intro i hi
    obtain hmem | hfinished := hlaunched i hi
    · refine hjoined i ?_
      rwa [List.take_of_length_le hj]
    · exact hfinished
  | work hi hbusy hseen => exact h.advance (h.threads _ hi) hbusy hseen

theorem run_inv {trace : List Event} {s : System} (run : DesBruteForceParallel job trace s) :
    Inv job s :=
  Run.invariant_state (initial_inv job) (fun _ _ _ => step_inv) run

/-- A call that was split returns the total of workers that have finished. -/
theorem Inv.returned {s : System} {r : AttackResult} (h : Inv job s) (hsplit : ¬job.Sequential)
    (hreturned : s.main = .returned r) :
    r = collect s.search job.workerCount ∧ ∀ i < job.workerCount, Finished s i := by
  have hmain := h.main
  rw [MainInv, hreturned] at hmain
  obtain ⟨hsequential, -⟩ | ⟨-, hr, hfinished⟩ := hmain
  · exact absurd hsequential hsplit
  · exact ⟨hr, hfinished⟩

/-! ## The returned result -/

theorem addResult_found (total r : AttackResult) :
    (addResult total r).found = true ↔ total.found = true ∨ r.found = true := by
  rw [addResult]
  cases total.found <;> cases r.found <;> simp

/-- The total found a match exactly if some worker did. -/
theorem collect_found (search : Nat → SearchState) (n : Nat) :
    (collect search n).found = true ↔ ∃ i < n, (search i).result.found = true := by
  induction n with
  | zero => simp [collect, noResult]
  | succ n ih =>
    rw [collect, addResult_found, ih]
    constructor
    · rintro (⟨i, hi, hf⟩ | hf)
      · exact ⟨i, Nat.lt_succ_of_lt hi, hf⟩
      · exact ⟨n, Nat.lt_succ_self n, hf⟩
    · rintro ⟨i, hi, hf⟩
      obtain hlt | rfl := Nat.lt_succ_iff_lt_or_eq.mp hi
      · exact .inl ⟨i, hlt, hf⟩
      · exact .inr hf

/-- The match of the total is the one of a worker. -/
theorem collect_match (search : Nat → SearchState) (n : Nat) (h : (collect search n).found = true) :
    ∃ i < n, (search i).result.found = true ∧
      (collect search n).candidate = (search i).result.candidate ∧
      (collect search n).key = (search i).result.key := by
  induction n with
  | zero => simp [collect, noResult] at h
  | succ n ih =>
    cases htotal : (collect search n).found with
    | true =>
      obtain ⟨i, hi, hf, hcandidate, hkey⟩ := ih htotal
      refine ⟨i, Nat.lt_succ_of_lt hi, hf, ?_, ?_⟩
      · simpa [collect, addResult, htotal] using hcandidate
      · simpa [collect, addResult, htotal] using hkey
    | false =>
      have hf : (search n).result.found = true := by
        simpa [htotal] using (addResult_found (collect search n) (search n).result).mp h
      exact ⟨n, Nat.lt_succ_self n, hf, by simp [collect, addResult, htotal, hf],
        by simp [collect, addResult, htotal, hf]⟩

theorem finished_cases {arg : WorkerArg} {raised : Bool} {s : SearchState}
    (h : SearchInv arg raised s) (hdone : s.pc = .done) :
    Hit arg s ∨ Swept arg s ∧ (s.candidate < arg.finish → raised = true) := by
  rw [SearchInv, hdone] at h
  exact h.imp And.left fun hswept => ⟨hswept.1, fun hlt => (hswept.2 hlt).2⟩

/-- If no worker recorded a match, the flag was never raised. -/
theorem SearchesInv.not_raised {s : System} (h : SearchesInv job s)
    (hnone : ∀ i < job.workerCount, (s.search i).result.found ≠ true) : s.stop ≠ true := by
  intro hstop
  obtain ⟨i, hi, hf⟩ := h.raised hstop
  exact hnone i hi hf

/-- Then every interval was swept to its end. -/
theorem interval_solves {s : System} (h : SearchesInv job s)
    (hnone : ∀ i < job.workerCount, (s.search i).result.found ≠ true) {i : Nat}
    (hi : i < job.workerCount) (hdone : Finished s i) :
    Solves (job.arg i) (s.search i).result := by
  obtain hhit | ⟨hswept, hraised⟩ := finished_cases (h.searches i hi) hdone
  · exact hhit.solves
  · exact hswept.solves fun hlt => h.not_raised hnone (hraised hlt)

theorem found_hit {s : System} (h : SearchesInv job s) {i : Nat} (hi : i < job.workerCount)
    (hdone : Finished s i) (hf : (s.search i).result.found = true) :
    Hit (job.arg i) (s.search i) := by
  obtain hhit | ⟨hswept, -⟩ := finished_cases (h.searches i hi) hdone
  · exact hhit
  · exact absurd hf hswept.not_found

/-- The total of finished workers is a result for the whole range. -/
theorem collect_solves {s : System} (hsplit : ¬job.Sequential) (h : SearchesInv job s)
    (hfinished : ∀ i < job.workerCount, Finished s i) :
    Solves job.whole (collect s.search job.workerCount) := by
  cases htotal : (collect s.search job.workerCount).found with
  | true =>
    obtain ⟨i, hi, hf, hcandidate, hkey⟩ := collect_match s.search job.workerCount htotal
    have hhit := found_hit h hi (hfinished i hi) hf
    obtain ⟨hl, hu⟩ := (mem_range_iff hsplit (s.search i).candidate).mpr
      ⟨i, hi, hhit.lower, hhit.upper⟩
    rw [hhit.candidate] at hcandidate
    rw [hhit.key] at hkey
    refine ⟨⟨fun _ => ⟨_, hl, hu, hhit.isMatch⟩, fun _ => htotal⟩, ?_, ?_, ?_, ?_⟩
    · intro _
      rw [hcandidate]
      exact hl
    · intro _
      rw [hcandidate]
      exact hu
    · intro _
      rw [hcandidate, hkey]
      rfl
    · intro _
      rw [hkey]
      exact hhit.isMatch
  | false =>
    have hnot : (collect s.search job.workerCount).found ≠ true := by
      rw [htotal]
      exact Bool.false_ne_true
    have hnone : ∀ i < job.workerCount, (s.search i).result.found ≠ true :=
      fun i hi hf => hnot ((collect_found s.search job.workerCount).mpr ⟨i, hi, hf⟩)
    refine ⟨⟨fun hf => absurd hf hnot, ?_⟩, fun hf => absurd hf hnot, fun hf => absurd hf hnot,
      fun hf => absurd hf hnot, fun hf => absurd hf hnot⟩
    rintro ⟨c, hl, hu, hmatch⟩
    obtain ⟨i, hi, hin⟩ := (mem_range_iff hsplit c).mp ⟨hl, hu⟩
    have hsolves := interval_solves h hnone hi (hfinished i hi)
    exact absurd (hsolves.found_iff.mpr ⟨c, hin.1, hin.2, hmatch⟩) (hnone i hi)

/-- Whatever the schedule, a returned result is right for the whole range. -/
theorem returned_solves {trace : List Event} {s : System} {r : AttackResult}
    (run : DesBruteForceParallel job trace s) (hreturned : s.main = .returned r) :
    Solves job.whole r := by
  have hinv := run_inv run
  have hmain := hinv.main
  rw [MainInv, hreturned] at hmain
  obtain ⟨-, hr⟩ | ⟨hsplit, rfl, hfinished⟩ := hmain
  · obtain ⟨r', hr', hsolves⟩ := desBruteForce_solves job.space job.plaintext job.ciphertext
      job.start job.finish
    obtain rfl := Option.some.inj (hr.symm.trans hr')
    exact hsolves
  · exact collect_solves hsplit hinv.workers hfinished

end DesParallelSafety
