import DesModular.DesParallelSchedule

/-!
# The results that a call can return

Which candidates `des_brute_force_parallel` can return, over all schedules, and how many
tests it can report.
-/
namespace DesParallelResults

open MachineWord DesBlock Keyspace DesBruteForce LabelledRun DesParallel DesParallelSafety
open DesParallelProgress DesParallelWork DesParallelSchedule

/-- Some run of the call returns `r`. -/
def Returns (job : Job) (r : AttackResult) : Prop :=
  ∃ trace s, DesBruteForceParallel job trace s ∧ s.main = .returned r

def Unmatched (job : Job) : Prop :=
  ∀ c, job.start ≤ c → c < job.finish → ¬job.whole.Matches c

/-- `c` is the first match of the range. -/
structure Lowest (job : Job) (c : U64) : Prop where
  lower : job.start ≤ c
  upper : c < job.finish
  isMatch : job.whole.Matches c
  first : ∀ c', job.start ≤ c' → c' < c → ¬job.whole.Matches c'

/-- `c` is the first match of interval `i`. -/
structure FirstIn (job : Job) (i : Nat) (c : U64) : Prop where
  mem : InInterval job i c
  isMatch : job.whole.Matches c
  first : ∀ c', (job.arg i).start ≤ c' → c' < c → ¬job.whole.Matches c'

/-- All matches lie in the interval of one worker, or there is only one worker. -/
def OneInterval (job : Job) : Prop :=
  job.Sequential ∨ ∃ i < job.workerCount, ∀ c, job.start ≤ c → c < job.finish →
    job.whole.Matches c → InInterval job i c

variable {job : Job}

theorem exists_returns (job : Job) : ∃ r, Returns job r := by
  obtain ⟨trace, s, run, r, hreturned⟩ :=
    run_returns (Run.nil : DesBruteForceParallel job [] (initial job))
  exact ⟨r, trace, s, run, hreturned⟩

theorem Returns.solves {r : AttackResult} (h : Returns job r) : Solves job.whole r := by
  obtain ⟨trace, s, run, hreturned⟩ := h
  exact returned_solves run hreturned

theorem Returns.found_false_iff {r : AttackResult} (h : Returns job r) :
    r.found = false ↔ Unmatched job := by
  rw [← Bool.not_eq_true, h.solves.found_iff]
  simp only [not_exists, not_and]
  rfl

theorem Lowest.unique {c c' : U64} (h : Lowest job c) (h' : Lowest job c') : c = c' := by
  obtain hlt | heq | hlt := Nat.lt_trichotomy c.toNat c'.toNat
  · exact absurd h.isMatch (h'.first c h.lower hlt)
  · exact BitVec.eq_of_toNat_eq heq
  · exact absurd h'.isMatch (h.first c' h'.lower hlt)

theorem FirstIn.unique {i : Nat} {c c' : U64} (h : FirstIn job i c) (h' : FirstIn job i c') :
    c = c' := by
  obtain hlt | heq | hlt := Nat.lt_trichotomy c.toNat c'.toNat
  · exact absurd h.isMatch (h'.first c h.mem.1 hlt)
  · exact BitVec.eq_of_toNat_eq heq
  · exact absurd h'.isMatch (h.first c' h'.mem.1 hlt)

/-! ## Tests -/

/-- A search never counts more tests than its range has candidates. -/
theorem desBruteForce_tested_le {r : AttackResult}
    (h : desBruteForce job.space job.plaintext job.ciphertext job.start job.finish = some r) :
    r.candidatesTested.toNat ≤ job.total := by
  obtain ⟨s, hs, hend⟩ := searchRange_ends job.whole rfl
  obtain rfl := Option.some.inj (h.symm.trans hs)
  obtain hhit | ⟨hswept, hend⟩ := hend
  · have htested := hhit.tested
    have hlower := BitVec.le_def.mp hhit.lower
    have hupper := BitVec.lt_def.mp hhit.upper
    simp only [Job.whole] at htested hlower hupper
    rw [Job.total]
    omega
  · exact Nat.le_of_eq (hswept.tested_all hend)

theorem desBruteForce_tested_all {r : AttackResult} (hnone : Unmatched job)
    (h : desBruteForce job.space job.plaintext job.ciphertext job.start job.finish = some r) :
    r.candidatesTested.toNat = job.total := by
  obtain ⟨s, hs, hend⟩ := searchRange_ends job.whole rfl
  obtain rfl := Option.some.inj (h.symm.trans hs)
  obtain hhit | ⟨hswept, hend⟩ := hend
  · exact absurd hhit.isMatch (hnone _ hhit.lower hhit.upper)
  · exact hswept.tested_all hend

theorem Returns.tested_le {r : AttackResult} (h : Returns job r) :
    r.candidatesTested.toNat ≤ job.total := by
  obtain ⟨trace, s, run, hreturned⟩ := h
  by_cases hsplit : job.Sequential
  · exact desBruteForce_tested_le (returned_sequential hsplit run hreturned)
  · obtain ⟨hinv, -⟩ := run_workInv hsplit run
    obtain ⟨rfl, -⟩ := hinv.returned hsplit hreturned
    have hle := sum_testCount_le hsplit hinv.workers
    have htotal := start_add_total hsplit
    have hfits := job.finish.isLt
    rw [collect_tested s job.workerCount (by omega)]
    exact hle

/-- Without a match every candidate is tested. -/
theorem Returns.tested_all (hnone : Unmatched job) {r : AttackResult} (h : Returns job r) :
    r.candidatesTested.toNat = job.total := by
  obtain ⟨trace, s, run, hreturned⟩ := h
  by_cases hsplit : job.Sequential
  · exact desBruteForce_tested_all hnone (returned_sequential hsplit run hreturned)
  · obtain ⟨hinv, -⟩ := run_workInv hsplit run
    obtain ⟨rfl, hfinished⟩ := hinv.returned hsplit hreturned
    have hle := sum_testCount_le hsplit hinv.workers
    have htotal := start_add_total hsplit
    have hfits := job.finish.isLt
    have hnotFound : ∀ i < job.workerCount, (s.search i).result.found ≠ true := by
      intro i hi hf
      have hhit := found_hit hinv.workers hi (hfinished i hi) hf
      obtain ⟨hl, hu⟩ := (mem_range_iff hsplit (s.search i).candidate).mpr
        ⟨i, hi, hhit.lower, hhit.upper⟩
      exact hnone _ hl hu hhit.isMatch
    rw [collect_tested s job.workerCount (by omega), ← sum_intervalSize hsplit]
    apply Finset.sum_congr rfl
    intro i hi
    have hlt := Finset.mem_range.mp hi
    exact testCount_full hsplit hinv.workers hnotFound hlt (hfinished i hlt)

/-! ## Matches -/

theorem Returns.lowest (hsequential : job.Sequential) {r : AttackResult} (h : Returns job r)
    (hfound : r.found = true) : Lowest job r.candidate := by
  obtain ⟨trace, s, run, hreturned⟩ := h
  have hr := returned_sequential hsequential run hreturned
  obtain ⟨first, hfirst, hsolves, hlowest, -⟩ := desBruteForce_lowest job
  obtain rfl := Option.some.inj (hr.symm.trans hfirst)
  refine ⟨hsolves.lower hfound, hsolves.upper hfound, hsolves.isMatch hfound, ?_⟩
  intro c hl hlt hmatch
  exact BitVec.not_lt.mpr (hlowest c hl (BitVec.lt_trans hlt (hsolves.upper hfound)) hmatch) hlt

theorem Returns.firstIn (hsplit : ¬job.Sequential) {r : AttackResult} (h : Returns job r)
    (hfound : r.found = true) : ∃ i < job.workerCount, FirstIn job i r.candidate := by
  have hsolves := h.solves
  obtain ⟨trace, s, run, hreturned⟩ := h
  obtain ⟨i, hi, hin, hfirst⟩ := returned_hit hsplit run hreturned hfound
  exact ⟨i, hi, hin, hsolves.isMatch hfound, hfirst⟩

/-- The first match of each interval is returned by some schedule. -/
theorem FirstIn.exists_returns (hsplit : ¬job.Sequential) {i : Nat} (hi : i < job.workerCount)
    {c : U64} (h : FirstIn job i c) : ∃ r, Returns job r ∧ r.found = true ∧ r.candidate = c := by
  obtain ⟨trace, s, r, run, hreturned, -, hfound, hin⟩ :=
    exists_run_returning hsplit hi ⟨c, h.mem, h.isMatch⟩
  have hreturns : Returns job r := ⟨trace, s, immediate_run run, hreturned⟩
  refine ⟨r, hreturns, hfound, ?_⟩
  obtain ⟨j, hj, hfirst⟩ := hreturns.firstIn hsplit hfound
  obtain rfl := interval_unique hsplit hj hi hfirst.mem hin
  exact hfirst.unique h

theorem Lowest.returned (hsequential : job.Sequential) {c : U64} (h : Lowest job c)
    {r : AttackResult} (hr : Returns job r) : r.found = true ∧ r.candidate = c := by
  have hfound := hr.solves.found_iff.mpr ⟨c, h.lower, h.upper, h.isMatch⟩
  exact ⟨hfound, (hr.lowest hsequential hfound).unique h⟩

/-- The lowest match is the first of its interval. -/
theorem Lowest.firstIn (hsplit : ¬job.Sequential) {c : U64} (h : Lowest job c) :
    ∃ i < job.workerCount, FirstIn job i c := by
  obtain ⟨i, hi, hin⟩ := (mem_range_iff hsplit c).mp ⟨h.lower, h.upper⟩
  refine ⟨i, hi, hin, h.isMatch, ?_⟩
  intro c' hl hlt
  have hrange := (mem_range_iff hsplit c').mpr ⟨i, hi, hl, BitVec.lt_trans hlt hin.2⟩
  exact h.first c' hrange.1 hlt

/-- Some schedule returns the lowest match. -/
theorem Lowest.exists_returns {c : U64} (h : Lowest job c) :
    ∃ r, Returns job r ∧ r.found = true ∧ r.candidate = c := by
  by_cases hsplit : job.Sequential
  · obtain ⟨r, hr⟩ := DesParallelResults.exists_returns job
    exact ⟨r, hr, h.returned hsplit hr⟩
  · obtain ⟨i, hi, hfirst⟩ := h.firstIn hsplit
    exact hfirst.exists_returns hsplit hi

/-- Every schedule returns the lowest match if all matches lie in one interval. -/
theorem Lowest.returned_of_oneInterval {c : U64} (h : Lowest job c) (hone : OneInterval job)
    {r : AttackResult} (hr : Returns job r) : r.found = true ∧ r.candidate = c := by
  by_cases hsplit : job.Sequential
  · exact h.returned hsplit hr
  · have hfound := hr.solves.found_iff.mpr ⟨c, h.lower, h.upper, h.isMatch⟩
    obtain ⟨i, hi, hall⟩ := hone.resolve_left hsplit
    obtain ⟨j, hj, hfirst⟩ := hr.firstIn hsplit hfound
    obtain ⟨k, hk, hlowest⟩ := h.firstIn hsplit
    have hrange := (mem_range_iff hsplit r.candidate).mpr ⟨j, hj, hfirst.mem⟩
    obtain rfl := interval_unique hsplit hj hi hfirst.mem
      (hall _ hrange.1 hrange.2 hfirst.isMatch)
    obtain rfl := interval_unique hsplit hk hj hlowest.mem (hall c h.lower h.upper h.isMatch)
    exact ⟨hfound, hfirst.unique hlowest⟩

/-- With matches in two intervals, some schedule returns another one. -/
theorem exists_returns_other (hmany : ¬OneInterval job) {c : U64} (h : Lowest job c) :
    ∃ r, Returns job r ∧ r.candidate ≠ c := by
  have hsplit : ¬job.Sequential := fun hs => hmany (.inl hs)
  obtain ⟨first, -, hsolves, hlowest, -⟩ := desBruteForce_lowest job
  have hfound : first.found = true :=
    hsolves.found_iff.mpr ⟨c, h.lower, h.upper, h.isMatch⟩
  have hfirst : first.candidate = c := by
    refine Lowest.unique ⟨hsolves.lower hfound, hsolves.upper hfound, hsolves.isMatch hfound, ?_⟩ h
    intro c' hl hlt hmatch
    exact BitVec.not_lt.mpr (hlowest c' hl (BitVec.lt_trans hlt (hsolves.upper hfound)) hmatch) hlt
  obtain ⟨trace, s, r, run, hreturned, hne⟩ :=
    exists_other_result hsolves hsplit fun hone => hmany (.inr hone)
  rw [hfirst] at hne
  exact ⟨r, ⟨trace, s, run, hreturned⟩, hne⟩

/-- The results over all schedules: a call that is not split returns the lowest match, one
that is split can return the first match of each interval, and nothing else; and only a call
without a match returns none, having tested every candidate once. -/
theorem returned_results (job : Job) :
    (∀ c, (∃ r, Returns job r ∧ r.found = true ∧ r.candidate = c) ↔
      job.Sequential ∧ Lowest job c ∨
        ¬job.Sequential ∧ ∃ i < job.workerCount, FirstIn job i c) ∧
    ∀ r, Returns job r →
      (r.found = false ↔ Unmatched job) ∧
      (r.found = true → r.key = desKeyspaceKey job.space r.candidate) ∧
      r.candidatesTested.toNat ≤ job.finish.toNat - job.start.toNat ∧
      (r.found = false → r.candidatesTested.toNat = job.finish.toNat - job.start.toNat) := by
  constructor
  · intro c
    constructor
    · rintro ⟨r, hr, hfound, rfl⟩
      by_cases hsplit : job.Sequential
      · exact .inl ⟨hsplit, hr.lowest hsplit hfound⟩
      · exact .inr ⟨hsplit, hr.firstIn hsplit hfound⟩
    · rintro (⟨-, hlowest⟩ | ⟨hsplit, i, hi, hfirst⟩)
      · exact hlowest.exists_returns
      · exact hfirst.exists_returns hsplit hi
  · intro r hr
    exact ⟨hr.found_false_iff, hr.solves.key, hr.tested_le,
      fun hnone => hr.tested_all (hr.found_false_iff.mp hnone)⟩

/-- Two workers, and one unknown bit, so that candidates 0 and 2 give one key: the second
worker's first match can be returned. -/
theorem returned_results_two_matches :
    ∃ r, Returns twoMatches r ∧ r.found = true ∧ r.candidate = 2#64 := by
  have hkey : desKeyspaceKey twoMatches.space 2#64 = desKeyspaceKey twoMatches.space 0#64 :=
    desKeyspaceKey_mod twoMatches.space (by decide)
  have hzero : twoMatches.whole.Matches 0#64 := rfl
  have hmatch : twoMatches.whole.Matches 2#64 := (congrArg (desEncryptBlock 0#64) hkey).trans hzero
  apply ((returned_results twoMatches).1 2#64).mpr
  refine .inr ⟨by decide, 1, by decide, ⟨⟨by decide, by decide⟩, hmatch, ?_⟩⟩
  intro c' hl hlt
  have hstart : (twoMatches.arg 1).start = 2#64 := by decide
  rw [hstart] at hl
  exact absurd hl (BitVec.not_le.mpr hlt)

end DesParallelResults
