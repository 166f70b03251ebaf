import DesModular.DesParallelProgress

/-!
# Work of the parallel search

The intervals partition the range, and every run accounts for the candidates it
tests: none twice, all of them if none matches, and as many as are reported.
-/
namespace DesParallelWork

open MachineWord DesBlock Keyspace DesBruteForce LabelledRun DesParallel DesParallelSafety
open DesParallelProgress

variable {job : Job}

/-! ## The intervals -/

def InInterval (job : Job) (i : Nat) (c : U64) : Prop :=
  (job.arg i).start ≤ c ∧ c < (job.arg i).finish

/-- The intervals are consecutive, near-equal parts of the range, and no computation of
their bounds wraps. -/
structure IntervalPartition (job : Job) : Prop where
  first : (job.arg 0).start = job.start
  consecutive : ∀ i, i + 1 < job.workerCount → (job.arg (i + 1)).start = (job.arg i).finish
  last : (job.arg (job.workerCount - 1)).finish = job.finish
  ordered : ∀ i < job.workerCount, (job.arg i).start ≤ (job.arg i).finish
  disjoint : ∀ i < job.workerCount, ∀ j < job.workerCount, i ≠ j →
    ∀ c, ¬(InInterval job i c ∧ InInterval job j c)
  union : ∀ c, job.start ≤ c ∧ c < job.finish ↔ ∃ i < job.workerCount, InInterval job i c
  balanced : ∀ i < job.workerCount, ∀ j < job.workerCount,
    (job.intervalSize i).toNat ≤ (job.intervalSize j).toNat + 1
  span : job.span.toNat = job.finish.toNat - job.start.toNat
  size : ∀ i < job.workerCount, (job.intervalSize i).toNat =
    job.span.toNat / job.workerCount + if i < job.span.toNat % job.workerCount then 1 else 0
  noWrap : ∀ i < job.workerCount,
    (job.arg i).start.toNat + (job.intervalSize i).toNat = (job.arg i).finish.toNat

theorem start_add_intervalSize (h : ¬job.Sequential) {i : Nat} (hi : i < job.workerCount) :
    (job.arg i).start.toNat + (job.intervalSize i).toNat = (job.arg i).finish.toNat := by
  rw [toNat_argStart h hi, toNat_argFinish h hi, toNat_intervalSize h hi, EvenSplit.offset_succ,
    Nat.add_assoc]

theorem intervalPartition (h : ¬job.Sequential) : IntervalPartition job where
  first := rfl
  consecutive _ _ := rfl
  last := by
    have hmany := one_lt_workerCount h
    have hcount : job.workerCount - 1 + 1 = job.workerCount := by omega
    apply BitVec.eq_of_toNat_eq
    rw [toNat_argFinish h (by omega), hcount, EvenSplit.offset_last _ (by omega), start_add_total h]
  ordered i hi := by
    have hsize := start_add_intervalSize h hi
    rw [BitVec.le_def]
    omega
  disjoint i hi j hj hne c hc := hne (interval_unique h hi hj hc.1 hc.2)
  union c := mem_range_iff h c
  balanced i hi j hj := by
    rw [toNat_intervalSize h hi, toNat_intervalSize h hj]
    exact EvenSplit.size_le _ _ i j
  span := toNat_span h
  size i hi := by
    rw [toNat_intervalSize h hi, toNat_span h]
    rfl
  noWrap _ hi := start_add_intervalSize h hi

/-! ## The tests of a run -/

/-- The candidates tested in a run, with the worker that tested them, in order. -/
def tests (trace : List Event) : List (Nat × U64) :=
  trace.filterMap fun e => match e with
    | .quiet => none
    | .tested i c => some (i, c)

theorem tests_append (trace more : List Event) :
    tests (trace ++ more) = tests trace ++ tests more := List.filterMap_append

theorem tests_quiet (trace : List Event) : tests (trace ++ [.quiet]) = tests trace := by
  rw [tests_append]
  exact List.append_nil _

theorem tests_tested (trace : List Event) (i : Nat) (c : U64) :
    tests (trace ++ [.tested i c]) = tests trace ++ [(i, c)] := tests_append trace [.tested i c]

/-- The number of candidates a worker has tested. -/
def testCount (s : System) (i : Nat) : Nat := (s.search i).result.candidatesTested.toNat

/-- Worker `i` has tested `c`. -/
def HasTested (job : Job) (s : System) (i : Nat) (c : U64) : Prop :=
  i < job.workerCount ∧ (job.arg i).start ≤ c ∧
    c.toNat < (job.arg i).start.toNat + testCount s i

structure WorkInv (job : Job) (trace : List Event) (s : System) : Prop where
  tested : ∀ i c, (i, c) ∈ tests trace ↔ HasTested job s i c
  counted : (tests trace).length = ∑ i ∈ Finset.range job.workerCount, testCount s i
  once : ((tests trace).map Prod.snd).Nodup

theorem initial_workInv (job : Job) : WorkInv job [] (initial job) where
  tested i c := by
    constructor
    · intro h
      cases h
    · rintro ⟨-, hl, hu⟩
      rw [BitVec.le_def] at hl
      exact absurd hu (Nat.not_lt.mpr hl)
  counted := (Finset.sum_eq_zero fun _ _ => rfl).symm
  once := List.nodup_nil

/-- The tests of a search stay inside its range. -/
theorem start_add_tested_le {arg : WorkerArg} {raised : Bool} {s : SearchState}
    (h : SearchInv arg raised s) (hrange : arg.start ≤ arg.finish) :
    arg.start.toNat + s.result.candidatesTested.toNat ≤ arg.finish.toNat := by
  have hswept : Swept arg s → arg.start.toNat + s.result.candidatesTested.toNat ≤
      arg.finish.toNat := by
    intro hs
    rw [hs.tested]
    obtain hstart | hle := hs.upper
    · rw [hstart]
      exact hrange
    · exact hle
  have hhit : Hit arg s → arg.start.toNat + s.result.candidatesTested.toNat ≤
      arg.finish.toNat := by
    intro hs
    rw [hs.tested]
    exact hs.upper
  rw [SearchInv] at h
  cases hpc : s.pc with
  | head =>
    rw [hpc] at h
    exact hswept h
  | test =>
    rw [hpc] at h
    exact hswept h.1
  | publish =>
    rw [hpc] at h
    exact hhit h.1
  | done =>
    rw [hpc] at h
    exact h.elim (fun hs => hhit hs.1) fun hs => hswept hs.1

theorem searchStep_test_counts (arg : WorkerArg) (seen : Bool) {s : SearchState}
    (h : s.pc = .test) : (searchStep arg seen s).result.candidatesTested =
      s.result.candidatesTested + 1#64 := by
  simp only [searchStep, h]
  split <;> rfl

theorem searchStep_other_counts (arg : WorkerArg) (seen : Bool) {s : SearchState}
    (h : s.pc ≠ .test) : (searchStep arg seen s).result.candidatesTested =
      s.result.candidatesTested := by
  obtain ⟨pc, candidate, result⟩ := s
  cases pc with
  | head =>
    simp only [searchStep]
    split
    next => split <;> rfl
    next => rfl
  | test => exact absurd rfl h
  | publish => rfl
  | done => rfl

theorem testCount_other {s : System} {i j : Nat} (seen : Bool) (h : j ≠ i) :
    testCount (s.advance job i seen) j = testCount s j := by
  rw [testCount, advance_search_other s seen h]
  rfl

/-- A step that tests no candidate changes no count. -/
theorem testCount_quiet {s : System} {i : Nat} (seen : Bool) (h : (s.search i).pc ≠ .test)
    (j : Nat) : testCount (s.advance job i seen) j = testCount s j := by
  by_cases hji : j = i
  · subst hji
    rw [testCount, advance_search_same, searchStep_other_counts _ _ h]
    rfl
  · exact testCount_other seen hji

/-- A test is of the candidate after the ones tested before, and counts one more. -/
theorem testCount_test {s : System} (h : SearchesInv job s) {i : Nat} (hi : i < job.workerCount)
    (seen : Bool) (hpc : (s.search i).pc = .test) :
    (s.search i).candidate.toNat = (job.arg i).start.toNat + testCount s i ∧
      testCount (s.advance job i seen) i = testCount s i + 1 := by
  have hinv := h.searches i hi
  rw [SearchInv, hpc] at hinv
  obtain ⟨hswept, hlt⟩ := hinv
  have htested := hswept.tested
  have hsucc := toNat_tested_succ htested hlt
  refine ⟨htested.symm, ?_⟩
  rw [testCount, advance_search_same, searchStep_test_counts _ _ hpc, testCount]
  omega

theorem sum_testCount_test {s : System} (h : SearchesInv job s) {i : Nat}
    (hi : i < job.workerCount) (seen : Bool) (hpc : (s.search i).pc = .test) :
    ∑ j ∈ Finset.range job.workerCount, testCount (s.advance job i seen) j =
      ∑ j ∈ Finset.range job.workerCount, testCount s j + 1 := by
  have hmem : i ∈ Finset.range job.workerCount := Finset.mem_range.mpr hi
  have hothers : ∑ j ∈ (Finset.range job.workerCount).erase i,
        testCount (s.advance job i seen) j =
      ∑ j ∈ (Finset.range job.workerCount).erase i, testCount s j :=
    Finset.sum_congr rfl fun j hj => testCount_other seen (Finset.ne_of_mem_erase hj)
  rw [← Finset.add_sum_erase _ _ hmem, ← Finset.add_sum_erase _ (testCount s) hmem, hothers,
    (testCount_test h hi seen hpc).2]
  omega

/-- After a test, worker `i` has tested what it had before and its candidate. -/
theorem hasTested_test {s : System} (h : SearchesInv job s) {i : Nat} (hi : i < job.workerCount)
    (seen : Bool) (hpc : (s.search i).pc = .test) (j : Nat) (c : U64) :
    HasTested job (s.advance job i seen) j c ↔
      HasTested job s j c ∨ (j, c) = (i, (s.search i).candidate) := by
  obtain ⟨hcandidate, hcount⟩ := testCount_test h hi seen hpc
  by_cases hji : j = i
  · subst hji
    rw [HasTested, HasTested, hcount]
    constructor
    · rintro ⟨-, hl, hu⟩
      by_cases hc : c = (s.search j).candidate
      · exact .inr (by rw [hc])
      · have hne : c.toNat ≠ (s.search j).candidate.toNat := fun he => hc (BitVec.eq_of_toNat_eq he)
        exact .inl ⟨hi, hl, by omega⟩
    · rintro (⟨-, hl, hu⟩ | heq)
      · exact ⟨hi, hl, by omega⟩
      · cases heq
        exact ⟨hi, BitVec.le_def.mpr (by omega), by omega⟩
  · rw [HasTested, HasTested, testCount_other seen hji]
    refine ⟨.inl, ?_⟩
    rintro (htested | heq)
    · exact htested
    · cases heq
      exact absurd rfl hji

/-- What was tested lies in the interval of the worker that tested it. -/
theorem HasTested.inInterval (hsplit : ¬job.Sequential) {s : System} (h : SearchesInv job s)
    {i : Nat} {c : U64} (htested : HasTested job s i c) : InInterval job i c := by
  obtain ⟨hi, hl, hu⟩ := htested
  have hle := start_add_tested_le (h.searches i hi) ((intervalPartition hsplit).ordered i hi)
  exact ⟨hl, BitVec.lt_def.mpr (Nat.lt_of_lt_of_le hu hle)⟩

/-- The next candidate of a worker was not tested before by any worker. -/
theorem candidate_fresh (hsplit : ¬job.Sequential) {s : System} (h : SearchesInv job s) {i : Nat}
    (hi : i < job.workerCount) (hpc : (s.search i).pc = .test) (j : Nat) :
    ¬HasTested job s j (s.search i).candidate := by
  intro htested
  have hcandidate := (testCount_test h hi false hpc).1
  by_cases hji : j = i
  · subst hji
    have hu := htested.2.2
    omega
  · have hinv := h.searches i hi
    rw [SearchInv, hpc] at hinv
    exact hji (interval_unique hsplit htested.1 hi (htested.inInterval hsplit h)
      ⟨hinv.1.lower, hinv.2⟩)

theorem WorkInv.advance (hsplit : ¬job.Sequential) {trace : List Event} {s : System}
    (h : WorkInv job trace s) (hsearches : SearchesInv job s) {i : Nat}
    (hi : i < job.workerCount) (seen : Bool) :
    WorkInv job (trace ++ [s.event i]) (s.advance job i seen) := by
  by_cases hpc : (s.search i).pc = .test
  · rw [System.event, if_pos hpc]
    refine ⟨?_, ?_, ?_⟩
    · intro j c
      rw [tests_tested, List.mem_append, h.tested, List.mem_singleton,
        hasTested_test hsearches hi seen hpc]
    · rw [tests_tested, List.length_append, h.counted, List.length_singleton,
        sum_testCount_test hsearches hi seen hpc]
    · rw [tests_tested, List.map_append, List.nodup_append]
      refine ⟨h.once, List.nodup_singleton _, ?_⟩
      intro c hc c' hc' heq
      obtain ⟨⟨j, d⟩, hmem, rfl⟩ := List.mem_map.mp hc
      obtain rfl : d = (s.search i).candidate := heq.trans (List.mem_singleton.mp hc')
      exact candidate_fresh hsplit hsearches hi hpc j ((h.tested j _).mp hmem)
  · rw [System.event, if_neg hpc]
    refine ⟨?_, ?_, ?_⟩
    · intro j c
      rw [tests_quiet, h.tested, HasTested, HasTested, testCount_quiet seen hpc]
    · rw [tests_quiet, h.counted]
      exact Finset.sum_congr rfl fun j _ => (testCount_quiet seen hpc j).symm
    · rw [tests_quiet]
      exact h.once

/-- A step of the calling thread tests nothing. -/
theorem WorkInv.quiet {trace : List Event} {s : System} (h : WorkInv job trace s)
    (main : MainPc) (threads : List Nat) :
    WorkInv job (trace ++ [.quiet]) { s with main := main, threads := threads } where
  tested i c := by
    rw [tests_quiet]
    exact h.tested i c
  counted := by
    rw [tests_quiet]
    exact h.counted
  once := by
    rw [tests_quiet]
    exact h.once

theorem step_workInv (hsplit : ¬job.Sequential) {trace : List Event} {s t : System} {e : Event}
    (h : WorkInv job trace s) (hinv : Inv job s) (step : Step job s e t) :
    WorkInv job (trace ++ [e]) t := by
  cases step with
  | sequential hpc hsequential hr => exact h.quiet _ _
  | split hpc hsplit => exact h.quiet _ _
  | create hpc hi => exact h.quiet _ _
  | createFails hpc hi => exact h.quiet _ _
  | sweep hpc hbusy hseen => exact h.advance hsplit hinv.workers (hinv.main.sweeping_lt hpc) _
  | swept hpc hdone => exact h.quiet _ _
  | allCreated hpc hi => exact h.quiet _ _
  | join hpc hj hdone => exact h.quiet _ _
  | allJoined hpc hj => exact h.quiet _ _
  | work hi hbusy hseen => exact h.advance hsplit hinv.workers (hinv.threads _ hi) _

theorem run_workInv (hsplit : ¬job.Sequential) {trace : List Event} {s : System}
    (run : DesBruteForceParallel job trace s) : Inv job s ∧ WorkInv job trace s := by
  refine Run.invariant (fun trace s => Inv job s ∧ WorkInv job trace s)
    ⟨initial_inv job, initial_workInv job⟩ ?_ run
  rintro trace s e t ⟨hinv, hwork⟩ step
  exact ⟨step_inv hinv step, step_workInv hsplit hwork hinv step⟩

/-! ## The reported number of tests -/

theorem addResult_tested (total r : AttackResult) :
    (addResult total r).candidatesTested = total.candidatesTested + r.candidatesTested := by
  rw [addResult]
  split <;> rfl

/-- The total does not wrap, since the tests fit in the range. -/
theorem collect_tested (s : System) (n : Nat) (h : ∑ i ∈ Finset.range n, testCount s i < 2 ^ 64) :
    (collect s.search n).candidatesTested.toNat = ∑ i ∈ Finset.range n, testCount s i := by
  induction n with
  | zero => rfl
  | succ n ih =>
    rw [Finset.sum_range_succ] at h ⊢
    rw [collect, addResult_tested, BitVec.toNat_add, ih (by omega)]
    exact Nat.mod_eq_of_lt h

theorem sum_intervalSize (h : ¬job.Sequential) :
    ∑ i ∈ Finset.range job.workerCount, (job.intervalSize i).toNat = job.total := by
  have hparts : ∀ n, ∑ i ∈ Finset.range n, EvenSplit.size job.total job.workerCount i =
      EvenSplit.offset job.total job.workerCount n := by
    intro n
    induction n with
    | zero => rfl
    | succ n ih => rw [Finset.sum_range_succ, ih, EvenSplit.offset_succ]
  rw [Finset.sum_congr rfl fun i hi => toNat_intervalSize h (Finset.mem_range.mp hi), hparts,
    EvenSplit.offset_last _ (Nat.lt_trans Nat.one_pos (one_lt_workerCount h))]

theorem testCount_le (hsplit : ¬job.Sequential) {s : System} (h : SearchesInv job s) {i : Nat}
    (hi : i < job.workerCount) : testCount s i ≤ (job.intervalSize i).toNat := by
  have hle := start_add_tested_le (h.searches i hi) ((intervalPartition hsplit).ordered i hi)
  rw [← start_add_intervalSize hsplit hi] at hle
  exact Nat.le_of_add_le_add_left hle

theorem sum_testCount_le (hsplit : ¬job.Sequential) {s : System} (h : SearchesInv job s) :
    ∑ i ∈ Finset.range job.workerCount, testCount s i ≤ job.total := by
  rw [← sum_intervalSize hsplit]
  exact Finset.sum_le_sum fun i hi => testCount_le hsplit h (Finset.mem_range.mp hi)

/-- Without a match, a finished worker has tested its whole interval. -/
theorem testCount_full (hsplit : ¬job.Sequential) {s : System} (h : SearchesInv job s)
    (hnone : ∀ i < job.workerCount, (s.search i).result.found ≠ true) {i : Nat}
    (hi : i < job.workerCount) (hdone : Finished s i) :
    testCount s i = (job.intervalSize i).toNat := by
  obtain hhit | ⟨hswept, hraised⟩ := finished_cases (h.searches i hi) hdone
  · exact absurd hhit.found (hnone i hi)
  · have hend : (job.arg i).finish.toNat ≤ (s.search i).candidate.toNat :=
      BitVec.not_lt.mp fun hlt => h.not_raised hnone (hraised hlt)
    have hle := testCount_le hsplit h hi
    have hsize := start_add_intervalSize hsplit hi
    have htested := hswept.tested
    rw [testCount] at *
    omega

/-- A call for at least two workers and a range that is not empty is split. -/
theorem not_sequential (hworkers : 2 ≤ job.workers.toNat) (hrange : job.start < job.finish) :
    ¬job.Sequential := by
  have hcount : 2 ≤ job.workerCount := by
    rw [Job.workerCount]
    split
    · decide
    · exact hworkers
  rintro (hfew | hempty)
  · omega
  · exact absurd hrange (BitVec.not_lt.mpr hempty)

/-- The whole accounting: the intervals are a near-equal partition, no run tests a
candidate twice, a returned result reports the tests that were made, and without a match
these are one for each candidate. -/
theorem parallel_work_accounting (job : Job) (hworkers : 2 ≤ job.workers.toNat)
    (hrange : job.start < job.finish) :
    IntervalPartition job ∧ ∀ trace s, DesBruteForceParallel job trace s →
      ((tests trace).map Prod.snd).Nodup ∧
      ∀ r, s.main = .returned r →
        r.candidatesTested.toNat = (tests trace).length ∧
        r.candidatesTested.toNat ≤ job.finish.toNat - job.start.toNat ∧
        ((∀ c, job.start ≤ c → c < job.finish →
            desEncryptBlock job.plaintext (desKeyspaceKey job.space c) ≠ job.ciphertext) →
          (∀ c, job.start ≤ c → c < job.finish → ((tests trace).map Prod.snd).count c = 1) ∧
          r.candidatesTested.toNat = job.finish.toNat - job.start.toNat) := by
  have hsplit := not_sequential hworkers hrange
  refine ⟨intervalPartition hsplit, ?_⟩
  intro trace s run
  obtain ⟨hinv, hwork⟩ := run_workInv hsplit run
  refine ⟨hwork.once, ?_⟩
  intro r hreturned
  obtain ⟨rfl, hfinished⟩ := hinv.returned hsplit hreturned
  have hle := sum_testCount_le hsplit hinv.workers
  have htotal := start_add_total hsplit
  have hfits := job.finish.isLt
  have hcount := collect_tested s job.workerCount (by omega)
  refine ⟨hcount.trans hwork.counted.symm, by rw [hcount]; exact hle, ?_⟩
  intro hmatch
  have hnone : ∀ i < job.workerCount, (s.search i).result.found ≠ true := by
    intro i hi hf
    have hhit := found_hit hinv.workers hi (hfinished i hi) hf
    obtain ⟨hl, hu⟩ := (mem_range_iff hsplit (s.search i).candidate).mpr
      ⟨i, hi, hhit.lower, hhit.upper⟩
    exact hmatch _ hl hu hhit.isMatch
  have hfull : ∀ i < job.workerCount, testCount s i = (job.intervalSize i).toNat :=
    fun i hi => testCount_full hsplit hinv.workers hnone hi (hfinished i hi)
  refine ⟨?_, ?_⟩
  · intro c hl hu
    obtain ⟨i, hi, hlower, hupper⟩ := (mem_range_iff hsplit c).mp ⟨hl, hu⟩
    have htested : HasTested job s i c := by
      refine ⟨hi, hlower, ?_⟩
      rw [hfull i hi, start_add_intervalSize hsplit hi]
      exact hupper
    exact List.count_eq_one_of_mem hwork.once
      (List.mem_map.mpr ⟨(i, c), (hwork.tested i c).mpr htested, rfl⟩)
  · rw [hcount, Finset.sum_congr rfl fun i hi => hfull i (Finset.mem_range.mp hi),
      sum_intervalSize hsplit]
    rfl

theorem parallel_work_accounting_two_workers : IntervalPartition smallJob ∧
    ∃ trace s r, DesBruteForceParallel smallJob trace s ∧ s.main = .returned r ∧
      r.candidatesTested.toNat = (tests trace).length := by
  obtain ⟨hpartition, hruns⟩ := parallel_work_accounting smallJob (by decide) (by decide)
  obtain ⟨trace, s, run, r, hreturned⟩ := run_returns
    (Run.nil : DesBruteForceParallel smallJob [] (initial smallJob))
  exact ⟨hpartition, _, s, r, run, hreturned, ((hruns _ s run).2 r hreturned).1⟩

end DesParallelWork
