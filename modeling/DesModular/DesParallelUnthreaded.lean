import DesModular.DesParallelSchedule
import DesModular.DesSearchRanges

/-!
# The parallel search without threads

If no thread can be created, the calling thread sweeps one interval after the other.
It sees its own stop flag, so that it leaves the intervals behind the first match
alone, and the result is the one of the sequential search.
-/
namespace DesParallelUnthreaded

open MachineWord DesBlock Keyspace DesBruteForce LabelledRun DesParallel DesParallelSafety
open DesParallelProgress DesParallelWork DesParallelSchedule FirstHit DesSearchRanges

variable {job : Job}

/-- A step after which there is still no thread. Only the calling thread stores to the
flag then, and a read in its sweep returns what it stored. -/
structure UnthreadedStep (job : Job) (s : System) (e : Event) (t : System) : Prop where
  step : Step job s e t
  noThread : t.threads = []
  ownFlag : ∀ i, s.main = .sweeping i → t.main = .sweeping i → t = s.advance job i s.stop

/-! ## Intervals as parts of one sweep -/

/-- What the sequential search says of the first `i` intervals. -/
def sweptBefore (job : Job) (i : Nat) : Outcome (U64 × U64) :=
  sweep (attempt job.space job.plaintext job.ciphertext) job.start.toNat
    (EvenSplit.offset job.total job.workerCount i)

/-- What it says of interval `i`. -/
def intervalOutcome (job : Job) (i : Nat) : Outcome (U64 × U64) :=
  sweep (attemptOf (job.arg i)) (job.arg i).start.toNat
    ((job.arg i).finish.toNat - (job.arg i).start.toNat)

theorem sweptBefore_succ (h : ¬job.Sequential) {i : Nat} (hi : i < job.workerCount) :
    sweptBefore job (i + 1) = sweptBefore job i * intervalOutcome job i := by
  have hlength : (job.arg i).finish.toNat - (job.arg i).start.toNat =
      EvenSplit.size job.total job.workerCount i := by
    rw [toNat_argFinish h hi, toNat_argStart h hi, EvenSplit.offset_succ]
    omega
  rw [sweptBefore, EvenSplit.offset_succ, sweep_add, intervalOutcome, hlength, toNat_argStart h hi]
  rfl

theorem sweptBefore_last (h : ¬job.Sequential) : sweptBefore job job.workerCount =
    sweep (attempt job.space job.plaintext job.ciphertext) job.start.toNat
      (job.finish.toNat - job.start.toNat) := by
  rw [sweptBefore, EvenSplit.offset_last _ (Nat.lt_trans Nat.one_pos (one_lt_workerCount h))]
  rfl

/-- The total depends on the workers before it alone. -/
theorem collect_congr {search search' : Nat → SearchState} {n : Nat}
    (h : ∀ i < n, search i = search' i) : collect search n = collect search' n := by
  induction n with
  | zero => rfl
  | succ n ih =>
    rw [collect, collect, ih fun i hi => h i (Nat.lt_succ_of_lt hi), h n (Nat.lt_succ_self n)]

theorem clean_collect (search : Nat → SearchState) (n : Nat) : Clean (collect search n) :=
  collect_unset search n

/-- A worker behind a match that did nothing adds nothing. -/
theorem addResult_noResult (total : AttackResult) : addResult total noResult = total := by
  simp [addResult, noResult]

/-- Without a match before it, a worker's result goes on from the total. -/
theorem addResult_eq_resume {total r : AttackResult} (htotal : Clean total) (hr : Clean r)
    (hnot : total.found = false) : addResult total r = resume total r := by
  obtain ⟨hcandidate, hkey⟩ := htotal hnot
  obtain ⟨found, candidate, key, tested⟩ := r
  cases found with
  | true => simp [addResult, resume, hnot]
  | false =>
    obtain ⟨hcandidate', hkey'⟩ := hr rfl
    simp_all [addResult, resume]

/-! ## What the calling thread knows -/

/-- The first `i` intervals are done with, and the others are not begun. -/
structure SweptTo (job : Job) (s : System) (i : Nat) : Prop where
  swept : outcome (collect s.search i) = sweptBefore job i
  flag : s.stop = (collect s.search i).found
  fresh : ∀ j, i ≤ j → s.search j = initialSearch (job.arg j)

/-- In interval `i`: behind a match it is left at once, else it is searched as by the
sequential search. -/
structure SweepingAt (job : Job) (s : System) (i : Nat) : Prop where
  swept : outcome (collect s.search i) = sweptBefore job i
  fresh : ∀ j, i < j → s.search j = initialSearch (job.arg j)
  behind : (collect s.search i).found = true → s.stop = true ∧
    (s.search i = initialSearch (job.arg i) ∨
      s.search i = { initialSearch (job.arg i) with pc := .done })
  ahead : (collect s.search i).found = false → SearchInv (job.arg i) s.stop (s.search i) ∧
    (s.stop = true → (s.search i).result.found = true)

def UnthreadedMain (job : Job) (s : System) : Prop :=
  match s.main with
  | .entry => SweptTo job s 0
  | .creating i => ¬job.Sequential ∧ i ≤ job.workerCount ∧ SweptTo job s i
  | .sweeping i => ¬job.Sequential ∧ i < job.workerCount ∧ SweepingAt job s i
  | .joining _ => ¬job.Sequential ∧ SweptTo job s job.workerCount
  | .returned r =>
      desBruteForce job.space job.plaintext job.ciphertext job.start job.finish = some r

structure UnthreadedInv (job : Job) (s : System) : Prop where
  noThread : s.threads = []
  main : UnthreadedMain job s

theorem initial_unthreaded (job : Job) : UnthreadedInv job (initial job) :=
  ⟨rfl, rfl, rfl, fun _ _ => rfl⟩

theorem SweptTo.sweeping {s : System} {i : Nat} (h : SweptTo job s i) (main : MainPc) :
    SweepingAt job { s with main := main } i where
  swept := h.swept
  fresh j hj := h.fresh j (Nat.le_of_lt hj)
  behind hfound := ⟨h.flag.trans hfound, .inl (h.fresh i (Nat.le_refl i))⟩
  ahead hnot := by
    have hstop : s.stop = false := h.flag.trans hnot
    refine ⟨?_, fun hraised => absurd (hstop.symm.trans hraised) Bool.false_ne_true⟩
    simp only [h.fresh i (Nat.le_refl i)]
    exact initialSearch_inv _ _

/-- One step of the sweep. -/
theorem SweepingAt.advance {s : System} {i : Nat} (h : SweepingAt job s i)
    (hbusy : (s.search i).pc ≠ .done) : SweepingAt job (s.advance job i s.stop) i := by
  have hcollect : collect (s.advance job i s.stop).search i = collect s.search i :=
    collect_congr fun j hj => advance_search_other s s.stop (Nat.ne_of_lt hj)
  refine ⟨?_, ?_, ?_, ?_⟩
  · rw [hcollect]
    exact h.swept
  · intro j hj
    rw [advance_search_other s s.stop (Nat.ne_of_gt hj)]
    exact h.fresh j hj
  · intro hfound
    rw [hcollect] at hfound
    obtain ⟨hstop, hstart | hleft⟩ := h.behind hfound
    · refine ⟨by rw [advance_stop, hstop]; rfl, .inr ?_⟩
      rw [advance_search_same, hstart, hstop, searchStep_initial]
    · exact absurd (by rw [hleft]) hbusy
  · intro hnot
    rw [hcollect] at hnot
    obtain ⟨hinv, hraised⟩ := h.ahead hnot
    refine ⟨?_, ?_⟩
    · rw [advance_search_same]
      exact searchStep_inv hinv id
    · intro hstop
      rw [advance_search_same]
      refine searchStep_found s.stop hinv ?_
      obtain hold | hpublish := Bool.or_eq_true_iff.mp hstop
      · exact hraised hold
      · rw [SearchInv, eq_of_beq hpublish] at hinv
        exact hinv.1.found

/-- A search that has ended without a stop flag from before has swept its interval or
found its first match. -/
theorem finished_outcome {s : System} {i : Nat}
    (h : SearchInv (job.arg i) s.stop (s.search i))
    (hraised : s.stop = true → (s.search i).result.found = true)
    (hdone : (s.search i).pc = .done) :
    outcome (s.search i).result = intervalOutcome job i ∧ Clean (s.search i).result ∧
      s.stop = (s.search i).result.found := by
  rw [SearchInv, hdone] at h
  obtain ⟨hhit, hflag⟩ | ⟨hswept, hflag⟩ := h
  · exact ⟨outcome_hit hhit, clean_hit hhit, (hflag rfl).trans hhit.found.symm⟩
  · have hstop : s.stop = false := by
      cases hs : s.stop with
      | false => rfl
      | true => exact absurd (hraised hs) hswept.not_found
    have hend : ¬(s.search i).candidate < (job.arg i).finish := by
      intro hlt
      rw [(hflag hlt).2] at hstop
      cases hstop
    exact ⟨outcome_swept hswept hend, clean_swept hswept, hstop.trans hswept.notFound.symm⟩

/-- The worker's result goes on from the total. -/
theorem outcome_addResult {total r : AttackResult} (htotal : Clean total) (hr : Clean r)
    (hnot : total.found = false) (hfits : (outcome total).tried + (outcome r).tried < 2 ^ 64) :
    outcome (addResult total r) = outcome total * outcome r := by
  rw [addResult_eq_resume htotal hr hnot, outcome_resume hfits]

/-- The candidates of the intervals up to `i` are counted without wrapping. -/
theorem tried_lt (hsplit : ¬job.Sequential) {i : Nat} (hi : i < job.workerCount) :
    (sweptBefore job i).tried + (intervalOutcome job i).tried < 2 ^ 64 := by
  have hbefore := tried_sweep_le (attempt job.space job.plaintext job.ciphertext) job.start.toNat
    (EvenSplit.offset job.total job.workerCount i)
  have hinterval := tried_sweep_le (attemptOf (job.arg i)) (job.arg i).start.toNat
    ((job.arg i).finish.toNat - (job.arg i).start.toNat)
  have hfinish := (job.arg i).finish.isLt
  have hstart := toNat_argStart hsplit hi
  have hsize := start_add_intervalSize hsplit hi
  rw [sweptBefore, intervalOutcome]
  omega

/-- The interval is done with. -/
theorem SweepingAt.swept_to (hsplit : ¬job.Sequential) {s : System} {i : Nat}
    (h : SweepingAt job s i) (hi : i < job.workerCount) (hdone : (s.search i).pc = .done)
    (main : MainPc) : SweptTo job { s with main := main } (i + 1) := by
  have hswept := h.swept
  cases htotal : (collect s.search i).found with
  | true =>
    -- the interval lies behind a match and was left untouched
    obtain ⟨hstop, hidle⟩ := h.behind htotal
    have hnothing : (s.search i).result = noResult := by
      obtain hstart | hleft := hidle
      · rw [hstart]
        rfl
      · rw [hleft]
        rfl
    have hcollect : collect s.search (i + 1) = collect s.search i := by
      rw [collect, hnothing, addResult_noResult]
    have hsome : (sweptBefore job i).hit.isSome = true := by
      rw [← hswept, isSome_hit_outcome, htotal]
    refine ⟨?_, ?_, fun j hj => h.fresh j hj⟩
    · rw [hcollect, hswept, sweptBefore_succ hsplit hi, mul_of_hit hsome]
    · rw [hcollect, htotal]
      exact hstop
  | false =>
    obtain ⟨hinv, hraised⟩ := h.ahead htotal
    obtain ⟨houtcome, hclean, hflag⟩ := finished_outcome hinv hraised hdone
    have hfits : (outcome (collect s.search i)).tried + (outcome (s.search i).result).tried <
        2 ^ 64 := by
      rw [hswept, houtcome]
      exact tried_lt hsplit hi
    have hfound : (collect s.search (i + 1)).found = (s.search i).result.found := by
      rw [Bool.eq_iff_iff, collect, addResult_found, htotal]
      simp
    refine ⟨?_, ?_, fun j hj => h.fresh j hj⟩
    · rw [collect, outcome_addResult (clean_collect _ _) hclean htotal hfits, hswept, houtcome,
        sweptBefore_succ hsplit hi]
    · rw [hfound]
      exact hflag

/-- Once all intervals are done with, the total is the sequential result. -/
theorem SweptTo.returns (hsplit : ¬job.Sequential) {s : System}
    (h : SweptTo job s job.workerCount) :
    desBruteForce job.space job.plaintext job.ciphertext job.start job.finish =
      some (collect s.search job.workerCount) := by
  obtain ⟨r, hr, hclean, houtcome⟩ := desBruteForce_outcome job.space job.plaintext job.ciphertext
    job.start job.finish
  have hsame : outcome r = outcome (collect s.search job.workerCount) := by
    rw [houtcome, h.swept, sweptBefore_last hsplit]
  rw [hr, eq_of_outcome hclean (clean_collect _ _) hsame]

/-! ## Runs without threads -/

theorem step_unthreaded {s t : System} {e : Event} (h : UnthreadedInv job s)
    (next : UnthreadedStep job s e t) : UnthreadedInv job t := by
  have hmain := h.main
  have hnone := h.noThread
  refine ⟨next.noThread, ?_⟩
  cases next.step with
  | sequential hpc hsequential hr => exact hr
  | split hpc hsplit =>
    rw [UnthreadedMain, hpc] at hmain
    exact ⟨hsplit, Nat.zero_le _, hmain.swept, hmain.flag, hmain.fresh⟩
  | @create i hpc hi =>
    have hthreads := next.noThread
    simp at hthreads
  | createFails hpc hi =>
    rw [UnthreadedMain, hpc] at hmain
    exact ⟨hmain.1, hi, hmain.2.2.sweeping _⟩
  | @sweep i seen hpc hbusy hseen =>
    rw [UnthreadedMain, hpc] at hmain
    have hown := next.ownFlag i hpc hpc
    rw [hown]
    simp only [UnthreadedMain, advance_main, hpc]
    exact ⟨hmain.1, hmain.2.1, hmain.2.2.advance hbusy⟩
  | @swept i hpc hdone =>
    rw [UnthreadedMain, hpc] at hmain
    exact ⟨hmain.1, hmain.2.1, hmain.2.2.swept_to hmain.1 hmain.2.1 hdone _⟩
  | @allCreated i hpc hi =>
    rw [UnthreadedMain, hpc] at hmain
    obtain ⟨hsplit, hle, hswept⟩ := hmain
    obtain rfl : i = job.workerCount := Nat.le_antisymm hle hi
    exact ⟨hsplit, hswept.swept, hswept.flag, hswept.fresh⟩
  | join hpc hj hdone =>
    rw [hnone] at hj
    exact absurd hj (Nat.not_lt_zero _)
  | allJoined hpc hj =>
    rw [UnthreadedMain, hpc] at hmain
    exact hmain.2.returns hmain.1
  | work hi hbusy hseen =>
    rw [hnone] at hi
    cases hi

/-- A call that creates no thread has a step until it returns. -/
theorem exists_unthreadedStep {s : System} (h : UnthreadedInv job s) (hnot : ¬Returned s) :
    ∃ e t, UnthreadedStep job s e t := by
  have hnone := h.noThread
  cases hpc : s.main with
  | entry =>
    by_cases hsequential : job.Sequential
    · obtain ⟨r, hr, -⟩ := desBruteForce_outcome job.space job.plaintext job.ciphertext job.start
        job.finish
      exact ⟨_, _, .sequential hpc hsequential hr, hnone, nofun⟩
    · exact ⟨_, _, .split hpc hsequential, hnone, nofun⟩
  | creating i =>
    by_cases hi : i < job.workerCount
    · exact ⟨_, _, .createFails hpc hi, hnone, fun j hj => by rw [hpc] at hj; cases hj⟩
    · exact ⟨_, _, .allCreated hpc (Nat.le_of_not_lt hi), hnone, nofun⟩
  | sweeping i =>
    by_cases hdone : (s.search i).pc = .done
    · exact ⟨_, _, .swept hpc hdone, hnone, nofun⟩
    · refine ⟨_, s.advance job i s.stop, .sweep hpc hdone id, hnone, ?_⟩
      intro j hj _
      rw [hpc] at hj
      cases hj
      rfl
  | joining j =>
    have hj : s.threads.length ≤ j := by
      rw [hnone]
      exact Nat.zero_le j
    exact ⟨_, _, .allJoined hpc hj, hnone, nofun⟩
  | returned r => exact absurd ⟨r, hpc⟩ hnot

/-- The invariant of the runs without threads. -/
def UnthreadedRunInv (job : Job) (s : System) : Prop := Inv job s ∧ UnthreadedInv job s

/-- If no thread can be created, the call still returns, and with exactly the result of the
sequential search: the lowest match, its key, and the number of tests up to it. -/
theorem unthreaded_is_sequential (job : Job) :
    ∃ r, desBruteForce job.space job.plaintext job.ciphertext job.start job.finish = some r ∧
      ∀ trace s, Run (UnthreadedStep job) (initial job) trace s →
        DesBruteForceParallel job trace s ∧
        (∃ more t, Run (UnthreadedStep job) (initial job) (trace ++ more) t ∧
          t.main = .returned r) ∧
        ∀ r', s.main = .returned r' → r' = r := by
  obtain ⟨r, hr, -⟩ := desBruteForce_outcome job.space job.plaintext job.ciphertext job.start
    job.finish
  have hstart : UnthreadedRunInv job (initial job) :=
    ⟨initial_inv job, initial_unthreaded job⟩
  have hstep : ∀ s e t, UnthreadedRunInv job s → UnthreadedStep job s e t →
      UnthreadedRunInv job t :=
    fun s e t h next => ⟨step_inv h.1 next.step, step_unthreaded h.2 next⟩
  have hresult : ∀ trace s, Run (UnthreadedStep job) (initial job) trace s →
      ∀ r', s.main = .returned r' → r' = r := by
    intro trace s run r' hreturned
    have hmain := (Run.invariant_state hstart hstep run).2.main
    rw [UnthreadedMain, hreturned] at hmain
    exact Option.some.inj (hmain.symm.trans hr)
  refine ⟨r, hr, ?_⟩
  intro trace s run
  refine ⟨run.mono fun _ _ _ next => next.step, ?_, hresult trace s run⟩
  obtain ⟨more, t, hmore, r', hreturned⟩ := Run.extend hstart hstep
    (fun s e t h next => step_rank h.1 next.step)
    (fun s h hnot => exists_unthreadedStep h.2 hnot) run
  obtain rfl := hresult _ t hmore r' hreturned
  exact ⟨more, t, hmore, hreturned⟩

end DesParallelUnthreaded
