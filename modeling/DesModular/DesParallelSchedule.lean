import DesModular.DesParallelWork

/-!
# What the schedule decides

Which of several matches the parallel search returns. Any worker with a match in its
interval can run ahead of the others and raise the flag before they test anything. So
the schedule decides as soon as two intervals hold a match, and only then.
-/
namespace DesParallelSchedule

open MachineWord DesBlock Keyspace DesBruteForce LabelledRun DesParallel DesParallelSafety
open DesParallelProgress DesParallelWork

variable {job : Job}

/-- A step in which a read of the flag returns its value: if a worker moves, it is as if
it read `s.stop`. -/
def ImmediateStep (job : Job) (s : System) (e : Event) (t : System) : Prop :=
  Step job s e t ∧ (t.search = s.search ∨ ∃ i, t = s.advance job i s.stop)

theorem immediate_run {trace : List Event} {s : System}
    (run : Run (ImmediateStep job) (initial job) trace s) : DesBruteForceParallel job trace s :=
  run.mono fun _ _ _ h => h.1

/-! ## One worker ahead of the others -/

/-- All workers but `j` stand at the start of their loop or have left it from there, and
the calling thread sweeps no interval itself. -/
structure OthersIdle (job : Job) (j : Nat) (s : System) : Prop where
  threads : ∀ i, s.main ≠ .sweeping i
  idle : ∀ i, i ≠ j → s.search i = initialSearch (job.arg i) ∨
    s.search i = { initialSearch (job.arg i) with pc := .done }

/-- A step that keeps the others idle. -/
def SoloStep (job : Job) (j : Nat) (s : System) (e : Event) (t : System) : Prop :=
  ImmediateStep job s e t ∧ OthersIdle job j t

def SoloInv (job : Job) (j : Nat) (s : System) : Prop := Inv job s ∧ OthersIdle job j s

theorem initial_idle (job : Job) (j : Nat) : OthersIdle job j (initial job) where
  threads := nofun
  idle _ _ := .inl rfl

theorem OthersIdle.withMain {j : Nat} {s : System} (h : OthersIdle job j s) {main : MainPc}
    (hmain : ∀ i, main ≠ .sweeping i) (threads : List Nat) :
    OthersIdle job j { s with main := main, threads := threads } := ⟨hmain, h.idle⟩

theorem OthersIdle.not_found {j : Nat} {s : System} (h : OthersIdle job j s) {i : Nat}
    (hi : i ≠ j) : (s.search i).result.found ≠ true := by
  obtain hstart | hleft := h.idle i hi
  · simp [hstart, initialSearch, noResult]
  · simp [hleft, initialSearch, noResult]

/-- A worker that polls the raised flag at its start leaves its loop. -/
theorem searchStep_initial (job : Job) (i : Nat) :
    searchStep (job.arg i) true (initialSearch (job.arg i)) =
      { initialSearch (job.arg i) with pc := .done } := by
  have hpoll : ((job.arg i).shared && (noResult.candidatesTested % stopCheckInterval == 0#64) &&
      true) = true := rfl
  by_cases hlt : (job.arg i).start < (job.arg i).finish
  · exact (if_pos hlt).trans (if_pos hpoll)
  · exact if_neg hlt

theorem OthersIdle.advance_self {j : Nat} {s : System} (h : OthersIdle job j s) (seen : Bool) :
    OthersIdle job j (s.advance job j seen) where
  threads := h.threads
  idle i hi := by
    rw [advance_search_other s seen hi]
    exact h.idle i hi

theorem OthersIdle.advance_other {j : Nat} {s : System} (h : OthersIdle job j s) {k : Nat}
    (hk : s.search k = initialSearch (job.arg k)) : OthersIdle job j (s.advance job k true) where
  threads := h.threads
  idle i hi := by
    by_cases hik : i = k
    · subst hik
      rw [advance_search_same, hk]
      exact .inr (searchStep_initial job i)
    · rw [advance_search_other s true hik]
      exact h.idle i hi

/-- If the interval of worker `j` has a match, the worker ends at its first match: nobody
else can have raised the flag. -/
theorem OthersIdle.hit {j : Nat} {s : System} (h : OthersIdle job j s) (hinv : SearchesInv job s)
    (hj : j < job.workerCount) (hmatch : ∃ c, InInterval job j c ∧ job.whole.Matches c)
    (hdone : Finished s j) : Hit (job.arg j) (s.search j) ∧ s.stop = true := by
  have hsearch := hinv.searches j hj
  rw [SearchInv, hdone] at hsearch
  obtain ⟨hhit, hraised⟩ | ⟨hswept, hraised⟩ := hsearch
  · exact ⟨hhit, hraised rfl⟩
  · exfalso
    by_cases hlt : (s.search j).candidate < (job.arg j).finish
    · obtain ⟨i, -, hf⟩ := hinv.raised (hraised hlt).2
      by_cases hij : i = j
      · subst hij
        exact hswept.not_found hf
      · exact h.not_found hij hf
    · obtain ⟨c, ⟨hl, hu⟩, hc⟩ := hmatch
      exact hswept.noMatch c hl (Nat.lt_of_lt_of_le hu (BitVec.not_lt.mp hlt)) hc

/-- Worker `j` can always run ahead until the call returns. -/
theorem exists_soloStep (hsplit : ¬job.Sequential) {j : Nat} (hj : j < job.workerCount)
    (hmatch : ∃ c, InInterval job j c ∧ job.whole.Matches c) {s : System} (hinv : Inv job s)
    (h : OthersIdle job j s) (hnot : ¬Returned s) : ∃ e t, SoloStep job j s e t := by
  have hmain := hinv.main
  cases hpc : s.main with
  | entry => exact ⟨_, _, ⟨.split hpc hsplit, .inl rfl⟩, h.withMain (by simp) _⟩
  | creating i =>
    by_cases hi : i < job.workerCount
    · exact ⟨_, _, ⟨.create hpc hi, .inl rfl⟩, h.withMain (by simp) _⟩
    · exact ⟨_, _, ⟨.allCreated hpc (Nat.le_of_not_lt hi), .inl rfl⟩, h.withMain (by simp) _⟩
  | sweeping i => exact absurd hpc (h.threads i)
  | joining k =>
    rw [MainInv, hpc] at hmain
    obtain ⟨-, -, hlaunched, -⟩ := hmain
    by_cases hk : k < s.threads.length
    · by_cases hdone : (s.search (s.threads.get ⟨k, hk⟩)).pc = .done
      · exact ⟨_, _, ⟨.join hpc hk hdone, .inl rfl⟩, h.withMain (by simp) _⟩
      · by_cases hfinished : Finished s j
        · -- worker `j` has raised the flag, and the thread that is waited for sees it
          obtain ⟨-, hstop⟩ := h.hit hinv.workers hj hmatch hfinished
          generalize hi : s.threads.get ⟨k, hk⟩ = i at hdone
          have hmem : i ∈ s.threads := hi ▸ List.get_mem _ _
          have hij : i ≠ j := by
            rintro rfl
            exact hdone hfinished
          have hstart : s.search i = initialSearch (job.arg i) := by
            obtain hstart | hleft := h.idle i hij
            · exact hstart
            · exact absurd (by rw [hleft]) hdone
          refine ⟨_, s.advance job i true, ⟨.work hmem hdone fun _ => hstop, .inr ⟨i, ?_⟩⟩,
            h.advance_other hstart⟩
          rw [hstop]
        · have hmem : j ∈ s.threads := (hlaunched j hj).resolve_right hfinished
          exact ⟨_, _, ⟨.work hmem hfinished id, .inr ⟨j, rfl⟩⟩, h.advance_self s.stop⟩
    · exact ⟨_, _, ⟨.allJoined hpc (Nat.le_of_not_lt hk), .inl rfl⟩, h.withMain (by simp) _⟩
  | returned r => exact absurd ⟨r, hpc⟩ hnot

/-- Some schedule returns a match from the interval of worker `j`, if it has one. -/
theorem exists_run_returning (hsplit : ¬job.Sequential) {j : Nat} (hj : j < job.workerCount)
    (hmatch : ∃ c, InInterval job j c ∧ job.whole.Matches c) :
    ∃ trace s r, Run (ImmediateStep job) (initial job) trace s ∧ s.main = .returned r ∧
      s.stop = true ∧ r.found = true ∧ InInterval job j r.candidate := by
  have hstart : SoloInv job j (initial job) := ⟨initial_inv job, initial_idle job j⟩
  have hstep : ∀ s e t, SoloInv job j s → SoloStep job j s e t → SoloInv job j t :=
    fun s e t h next => ⟨step_inv h.1 next.1.1, next.2⟩
  obtain ⟨trace, s, run, r, hreturned⟩ := Run.extend hstart hstep
    (fun s e t h next => step_rank h.1 next.1.1)
    (fun s h hnot => exists_soloStep hsplit hj hmatch h.1 h.2 hnot) Run.nil
  obtain ⟨hinv, hidle⟩ := Run.invariant_state hstart hstep run
  obtain ⟨rfl, hfinished⟩ := hinv.returned hsplit hreturned
  obtain ⟨hhit, hstop⟩ := hidle.hit hinv.workers hj hmatch (hfinished j hj)
  have hfound : (collect s.search job.workerCount).found = true :=
    (collect_found s.search job.workerCount).mpr ⟨j, hj, hhit.found⟩
  obtain ⟨i, -, hf, hcandidate, -⟩ := collect_match s.search job.workerCount hfound
  have hij : i = j := by
    by_contra hij
    exact hidle.not_found hij hf
  rw [hij, hhit.candidate] at hcandidate
  refine ⟨_, s, _, run.mono fun _ _ _ next => next.1, hreturned, hstop, hfound, ?_⟩
  rw [hcandidate]
  exact ⟨hhit.lower, hhit.upper⟩

/-! ## Agreement with the sequential search -/

/-- The sequential search returns the lowest match, and zeros if there is none. -/
theorem desBruteForce_lowest (job : Job) :
    ∃ first, desBruteForce job.space job.plaintext job.ciphertext job.start job.finish =
        some first ∧
      Solves job.whole first ∧
      (∀ c, job.start ≤ c → c < job.finish → job.whole.Matches c → first.candidate ≤ c) ∧
      (first.found = false → first.candidate = 0#64 ∧ first.key = 0#64) := by
  obtain ⟨s, hs, hhit | ⟨hswept, hend⟩⟩ := searchRange_ends job.whole rfl
  · refine ⟨s.result, hs, hhit.solves, ?_, ?_⟩
    · intro c hl _ hmatch
      rw [hhit.candidate]
      exact BitVec.not_lt.mp fun hlt => hhit.first c hl hlt hmatch
    · intro hf
      rw [hhit.found] at hf
      cases hf
  · refine ⟨s.result, hs, hswept.solves hend, ?_, fun _ => hswept.unset⟩
    intro c hl hu hmatch
    have hlt : c < s.candidate := Nat.lt_of_lt_of_le hu (BitVec.not_lt.mp hend)
    exact absurd hmatch (hswept.noMatch c hl hlt)

theorem collect_unset (search : Nat → SearchState) (n : Nat)
    (h : (collect search n).found = false) :
    (collect search n).candidate = 0#64 ∧ (collect search n).key = 0#64 := by
  induction n with
  | zero => exact ⟨rfl, rfl⟩
  | succ n ih =>
    have hnot := mt (addResult_found (collect search n) (search n).result).mpr
    rw [collect] at h
    simp only [h, not_or, Bool.not_eq_true] at hnot
    obtain ⟨htotal, hworker⟩ := hnot (by simp)
    have hkeep := ih htotal
    simpa [collect, addResult, hworker] using hkeep

/-- Where a returned match comes from: the worker that found it stopped at the first match
of its interval. -/
theorem returned_hit (hsplit : ¬job.Sequential) {trace : List Event} {s : System}
    {r : AttackResult} (run : DesBruteForceParallel job trace s) (hreturned : s.main = .returned r)
    (hfound : r.found = true) :
    ∃ i < job.workerCount, InInterval job i r.candidate ∧
      ∀ c, (job.arg i).start ≤ c → c < r.candidate → ¬job.whole.Matches c := by
  have hinv := run_inv run
  obtain ⟨rfl, hfinished⟩ := hinv.returned hsplit hreturned
  obtain ⟨i, hi, hf, hcandidate, -⟩ := collect_match s.search job.workerCount hfound
  have hhit := found_hit hinv.workers hi (hfinished i hi) hf
  rw [hhit.candidate] at hcandidate
  rw [hcandidate]
  exact ⟨i, hi, ⟨hhit.lower, hhit.upper⟩, hhit.first⟩

theorem returned_unset (hsplit : ¬job.Sequential) {trace : List Event} {s : System}
    {r : AttackResult} (run : DesBruteForceParallel job trace s) (hreturned : s.main = .returned r)
    (hnone : r.found = false) : r.candidate = 0#64 ∧ r.key = 0#64 := by
  obtain ⟨rfl, -⟩ := (run_inv run).returned hsplit hreturned
  exact collect_unset _ _ hnone

theorem returned_sequential (h : job.Sequential) {trace : List Event} {s : System}
    {r : AttackResult} (run : DesBruteForceParallel job trace s)
    (hreturned : s.main = .returned r) :
    desBruteForce job.space job.plaintext job.ciphertext job.start job.finish = some r := by
  have hmain := (run_inv run).main
  rw [MainInv, hreturned] at hmain
  obtain ⟨-, hr⟩ | ⟨hsplit, -⟩ := hmain
  · exact hr
  · exact absurd h hsplit

section Sequential

variable {first : AttackResult} (hsolves : Solves job.whole first)

include hsolves

theorem returned_found {trace : List Event} {s : System} {r : AttackResult}
    (run : DesBruteForceParallel job trace s) (hreturned : s.main = .returned r) :
    r.found = first.found := by
  rw [Bool.eq_iff_iff, (returned_solves run hreturned).found_iff, hsolves.found_iff]

/-- If all matches lie in one interval, its worker is the one that returns the lowest. -/
theorem returned_lowest (hsplit : ¬job.Sequential) {i : Nat} (hi : i < job.workerCount)
    (hone : ∀ c, job.start ≤ c → c < job.finish → job.whole.Matches c → InInterval job i c)
    (hlowest : ∀ c, job.start ≤ c → c < job.finish → job.whole.Matches c → first.candidate ≤ c)
    {trace : List Event} {s : System} {r : AttackResult}
    (run : DesBruteForceParallel job trace s) (hreturned : s.main = .returned r)
    (hfound : r.found = true) : r.candidate = first.candidate ∧ r.key = first.key := by
  have hr := returned_solves run hreturned
  have hfirst : first.found = true := (returned_found hsolves run hreturned).symm.trans hfound
  have hin := hone _ (hr.lower hfound) (hr.upper hfound) (hr.isMatch hfound)
  have hfirstIn := hone _ (hsolves.lower hfirst) (hsolves.upper hfirst) (hsolves.isMatch hfirst)
  obtain ⟨k, hk, hkIn, hbelow⟩ := returned_hit hsplit run hreturned hfound
  obtain rfl := interval_unique hsplit hk hi hkIn hin
  have hle := hlowest _ (hr.lower hfound) (hr.upper hfound) (hr.isMatch hfound)
  have hge : r.candidate ≤ first.candidate :=
    BitVec.not_lt.mp fun hlt => hbelow _ hfirstIn.1 hlt (hsolves.isMatch hfirst)
  have heq : r.candidate = first.candidate := BitVec.le_antisymm hge hle
  exact ⟨heq, by rw [hr.key hfound, hsolves.key hfirst, heq]⟩

/-- With matches in two intervals, a worker other than the lowest match's can be first. -/
theorem exists_other_result (hsplit : ¬job.Sequential)
    (hmany : ¬∃ i < job.workerCount, ∀ c, job.start ≤ c → c < job.finish →
      job.whole.Matches c → InInterval job i c) :
    ∃ trace s r, DesBruteForceParallel job trace s ∧ s.main = .returned r ∧
      r.candidate ≠ first.candidate := by
  push Not at hmany
  have hfirst : first.found = true := by
    obtain ⟨c, hl, hu, hmatch, -⟩ := hmany 0 (Nat.lt_trans Nat.one_pos (one_lt_workerCount hsplit))
    exact hsolves.found_iff.mpr ⟨c, hl, hu, hmatch⟩
  obtain ⟨i, hi, hfirstIn⟩ := (mem_range_iff hsplit first.candidate).mp
    ⟨hsolves.lower hfirst, hsolves.upper hfirst⟩
  obtain ⟨c, hl, hu, hmatch, hout⟩ := hmany i hi
  obtain ⟨j, hj, hin⟩ := (mem_range_iff hsplit c).mp ⟨hl, hu⟩
  obtain ⟨trace, s, r, run, hreturned, -, -, hrIn⟩ :=
    exists_run_returning hsplit hj ⟨c, hin, hmatch⟩
  refine ⟨trace, s, r, immediate_run run, hreturned, ?_⟩
  intro heq
  rw [heq] at hrIn
  obtain rfl := interval_unique hsplit hj hi hrIn hfirstIn
  exact hout hin

end Sequential

/-- The parallel search finds a match exactly if the sequential one does, never a lower
one, and the same one under every schedule exactly if it is handed to the sequential
search or all matches lie in the interval of one worker. -/
theorem parallel_agrees_with_sequential (job : Job) :
    ∃ first, desBruteForce job.space job.plaintext job.ciphertext job.start job.finish =
        some first ∧
      (∀ c, job.start ≤ c → c < job.finish → job.whole.Matches c → first.candidate ≤ c) ∧
      (∀ trace s, DesBruteForceParallel job trace s →
        (∃ more t, DesBruteForceParallel job (trace ++ more) t ∧ Returned t) ∧
        ∀ r, s.main = .returned r →
          r.found = first.found ∧
          (r.found = true → job.start ≤ r.candidate ∧ r.candidate < job.finish ∧
            job.whole.Matches r.candidate ∧ first.candidate ≤ r.candidate ∧
            r.key = desKeyspaceKey job.space r.candidate) ∧
          (r.found = false → r.candidate = first.candidate ∧ r.key = first.key)) ∧
      ((∀ trace s r, DesBruteForceParallel job trace s → s.main = .returned r →
          r.candidate = first.candidate ∧ r.key = first.key) ↔
        job.Sequential ∨ ∃ i < job.workerCount, ∀ c, job.start ≤ c → c < job.finish →
          job.whole.Matches c → InInterval job i c) := by
  obtain ⟨first, hfirst, hsolves, hlowest, hunset⟩ := desBruteForce_lowest job
  have hnone : ∀ trace s r, DesBruteForceParallel job trace s → s.main = .returned r →
      r.found = false → r.candidate = first.candidate ∧ r.key = first.key := by
    intro trace s r run hreturned hf
    by_cases hsequential : job.Sequential
    · have hr := returned_sequential hsequential run hreturned
      obtain rfl := Option.some.inj (hr.symm.trans hfirst)
      exact ⟨rfl, rfl⟩
    · obtain ⟨hcandidate, hkey⟩ := returned_unset hsequential run hreturned hf
      obtain ⟨hcandidate', hkey'⟩ := hunset ((returned_found hsolves run hreturned).symm.trans hf)
      exact ⟨hcandidate.trans hcandidate'.symm, hkey.trans hkey'.symm⟩
  refine ⟨first, hfirst, hlowest, ?_, ?_, ?_⟩
  · intro trace s run
    refine ⟨run_returns run, ?_⟩
    intro r hreturned
    have hr := returned_solves run hreturned
    refine ⟨returned_found hsolves run hreturned, ?_, hnone trace s r run hreturned⟩
    intro hf
    exact ⟨hr.lower hf, hr.upper hf, hr.isMatch hf,
      hlowest _ (hr.lower hf) (hr.upper hf) (hr.isMatch hf), hr.key hf⟩
  · intro hsame
    by_contra hcases
    obtain ⟨hsplit, hmany⟩ := not_or.mp hcases
    obtain ⟨trace, s, r, run, hreturned, hne⟩ := exists_other_result hsolves hsplit hmany
    exact hne (hsame trace s r run hreturned).1
  · intro hcases trace s r run hreturned
    by_cases hsequential : job.Sequential
    · have hr := returned_sequential hsequential run hreturned
      obtain rfl := Option.some.inj (hr.symm.trans hfirst)
      exact ⟨rfl, rfl⟩
    · obtain ⟨i, hi, hone⟩ := hcases.resolve_left hsequential
      cases hf : r.found with
      | false => exact hnone trace s r run hreturned hf
      | true => exact returned_lowest hsolves hsequential hi hone hlowest run hreturned hf

/-- One unknown bit, so candidates 0 and 2 map to one key, in the intervals of two workers. -/
def twoMatches : Job :=
  ⟨smallJob.space, 0#64, desEncryptBlock 0#64 (desKeyspaceKey smallJob.space 0#64), 0#64, 4#64,
    2#32⟩

/-- The second worker can return candidate 2, where the sequential search returns 0. -/
theorem twoMatches_disagree :
    ¬∀ (job : Job) (trace : List Event) (s : System) (r first : AttackResult),
      DesBruteForceParallel job trace s → s.main = .returned r →
      desBruteForce job.space job.plaintext job.ciphertext job.start job.finish = some first →
      r.found = first.found ∧ r.candidate = first.candidate ∧ r.key = first.key := by
  intro hclaim
  have hzero : twoMatches.whole.Matches 0#64 := rfl
  have hkey : desKeyspaceKey twoMatches.space 2#64 = desKeyspaceKey twoMatches.space 0#64 :=
    desKeyspaceKey_mod twoMatches.space (by decide)
  have htwo : twoMatches.whole.Matches 2#64 := (congrArg (desEncryptBlock 0#64) hkey).trans hzero
  obtain ⟨trace, s, r, run, hreturned, -, -, hin⟩ := exists_run_returning
    (by decide : ¬twoMatches.Sequential) (by decide : 1 < twoMatches.workerCount)
    ⟨2#64, ⟨by decide, by decide⟩, htwo⟩
  obtain ⟨first, hfirst, -, hle, -⟩ := desBruteForce_first (BitVec.le_refl twoMatches.start)
    (by decide : twoMatches.start < twoMatches.finish) hzero
  obtain ⟨-, hcandidate, -⟩ := hclaim twoMatches trace s r first (immediate_run run) hreturned
    hfirst
  rw [← hcandidate] at hle
  have hge := BitVec.le_trans hin.1 hle
  exact absurd hge (by decide)

end DesParallelSchedule
