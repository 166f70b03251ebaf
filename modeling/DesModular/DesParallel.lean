import DesModular.DesBruteForce
import DesModular.EvenSplit
import DesModular.LabelledRun

/-!
# Key search on several threads

`des_brute_force_parallel` of `des_brute_force.c`. The calling thread and the
workers take steps in any order, `pthread_create` may fail at any call, and a
relaxed read of the stop flag may miss a store that was made.
-/
namespace DesParallel

open MachineWord Keyspace DesBruteForce LabelledRun

/-- The arguments of a call. -/
structure Job where
  space : DesKeyspace
  plaintext : U64
  ciphertext : U64
  start : U64
  finish : U64
  workers : U32

namespace Job

variable (job : Job)

/-- `workers`, clamped to `DES_ATTACK_MAX_WORKERS`. -/
def workerCount : Nat := if 64#32 < job.workers then 64 else job.workers.toNat

/-- The call is handed to `des_brute_force`. -/
def Sequential : Prop := job.workerCount ≤ 1 ∨ job.finish ≤ job.start

instance : Decidable job.Sequential := inferInstanceAs (Decidable (_ ∨ _))

def span : U64 := job.finish - job.start
def chunk : U64 := job.span / BitVec.ofNat 64 job.workerCount
def remainder : U64 := job.span % BitVec.ofNat 64 job.workerCount

def intervalSize (i : Nat) : U64 :=
  job.chunk + (if BitVec.ofNat 64 i < job.remainder then 1#64 else 0#64)

/-- `next` before interval `i` is cut off. -/
def next : Nat → U64
  | 0 => job.start
  | i + 1 => next i + job.intervalSize i

def arg (i : Nat) : WorkerArg where
  space := job.space
  plaintext := job.plaintext
  ciphertext := job.ciphertext
  start := job.next i
  finish := job.next i + job.intervalSize i
  shared := true

/-- The whole range, as one search sees it. -/
def whole : WorkerArg := ⟨job.space, job.plaintext, job.ciphertext, job.start, job.finish, false⟩

end Job

/-- Where the calling thread stands: at the call, before creating thread `i`, sweeping
interval `i` itself, before joining the `j`-th created thread, or past its return. -/
inductive MainPc where
  | entry
  | creating (i : Nat)
  | sweeping (i : Nat)
  | joining (j : Nat)
  | returned (r : AttackResult)
  deriving DecidableEq, Repr

/-- `threads` are the workers that run on a thread of their own, in creation order. -/
structure System where
  main : MainPc
  threads : List Nat
  stop : Bool
  search : Nat → SearchState

def initial (job : Job) : System where
  main := .entry
  threads := []
  stop := false
  search i := initialSearch (job.arg i)

/-- The body of the loop over `total`. -/
def addResult (total r : AttackResult) : AttackResult :=
  let tested := total.candidatesTested + r.candidatesTested
  if r.found && !total.found then ⟨true, r.candidate, r.key, tested⟩
  else { total with candidatesTested := tested }

/-- `total` over the first `n` workers. -/
def collect (search : Nat → SearchState) : Nat → AttackResult
  | 0 => noResult
  | n + 1 => addResult (collect search n) (search n).result

inductive Event where
  | quiet
  | tested (worker : Nat) (candidate : U64)
  deriving DecidableEq, Repr

namespace System

/-- Worker `i` takes one step, in which a read of the flag would return `seen`. -/
def advance (job : Job) (s : System) (i : Nat) (seen : Bool) : System :=
  { s with
    stop := s.stop || (s.search i).pc == .publish
    search := Function.update s.search i (searchStep (job.arg i) seen (s.search i)) }

/-- The candidate that the next step of worker `i` tests, if it tests one. -/
def event (s : System) (i : Nat) : Event :=
  if (s.search i).pc = .test then .tested i (s.search i).candidate else .quiet

end System

/-- One step of the calling thread or of a worker. A read of the flag returns true
only if it was raised. -/
inductive Step (job : Job) : System → Event → System → Prop
  | sequential {s : System} {r : AttackResult} (hpc : s.main = .entry) (h : job.Sequential)
    (hr : desBruteForce job.space job.plaintext job.ciphertext job.start job.finish = some r) :
    Step job s .quiet { s with main := .returned r }
  | split {s : System} (hpc : s.main = .entry) (h : ¬job.Sequential) :
    Step job s .quiet { s with main := .creating 0 }
  | create {s : System} {i : Nat} (hpc : s.main = .creating i) (hi : i < job.workerCount) :
    Step job s .quiet { s with main := .creating (i + 1), threads := s.threads ++ [i] }
  | createFails {s : System} {i : Nat} (hpc : s.main = .creating i) (hi : i < job.workerCount) :
    Step job s .quiet { s with main := .sweeping i }
  | sweep {s : System} {i : Nat} {seen : Bool} (hpc : s.main = .sweeping i)
    (hbusy : (s.search i).pc ≠ .done) (hseen : seen = true → s.stop = true) :
    Step job s (s.event i) (s.advance job i seen)
  | swept {s : System} {i : Nat} (hpc : s.main = .sweeping i)
    (hdone : (s.search i).pc = .done) : Step job s .quiet { s with main := .creating (i + 1) }
  | allCreated {s : System} {i : Nat} (hpc : s.main = .creating i) (hi : job.workerCount ≤ i) :
    Step job s .quiet { s with main := .joining 0 }
  | join {s : System} {j : Nat} (hpc : s.main = .joining j) (hj : j < s.threads.length)
    (hdone : (s.search (s.threads.get ⟨j, hj⟩)).pc = .done) :
    Step job s .quiet { s with main := .joining (j + 1) }
  | allJoined {s : System} {j : Nat} (hpc : s.main = .joining j) (hj : s.threads.length ≤ j) :
    Step job s .quiet { s with main := .returned (collect s.search job.workerCount) }
  | work {s : System} {i : Nat} {seen : Bool} (hi : i ∈ s.threads)
    (hbusy : (s.search i).pc ≠ .done) (hseen : seen = true → s.stop = true) :
    Step job s (s.event i) (s.advance job i seen)

/-- The runs of `des_brute_force_parallel` on the arguments of a job. -/
abbrev DesBruteForceParallel (job : Job) (trace : List Event) (s : System) : Prop :=
  Run (Step job) (initial job) trace s

/-! ## The intervals -/

section Intervals

variable {job : Job}

theorem workerCount_le (job : Job) : job.workerCount ≤ 64 := by
  have hmax : (64#32 : U32).toNat = 64 := rfl
  rw [Job.workerCount]
  split
  next => exact Nat.le_refl _
  next h =>
    rw [BitVec.lt_def, hmax] at h
    omega

theorem one_lt_workerCount (h : ¬job.Sequential) : 1 < job.workerCount :=
  Nat.lt_of_not_le fun hle => h (.inl hle)

theorem start_lt_finish (h : ¬job.Sequential) : job.start < job.finish :=
  BitVec.not_le.mp fun hle => h (.inr hle)

/-- The number of candidates of the whole range. -/
def Job.total (job : Job) : Nat := job.finish.toNat - job.start.toNat

theorem toNat_span (h : ¬job.Sequential) : job.span.toNat = job.total := by
  have hlt := BitVec.lt_def.mp (start_lt_finish h)
  have hfinish := job.finish.isLt
  rw [Job.span, BitVec.toNat_sub, Job.total]
  omega

theorem toNat_workerCount (job : Job) :
    (BitVec.ofNat 64 job.workerCount).toNat = job.workerCount := by
  have hle := workerCount_le job
  rw [BitVec.toNat_ofNat]
  omega

/-- The range is as long as its bounds say. -/
theorem start_add_total (h : ¬job.Sequential) :
    job.start.toNat + job.total = job.finish.toNat := by
  have hlt := BitVec.lt_def.mp (start_lt_finish h)
  rw [Job.total]
  omega

theorem toNat_chunk (h : ¬job.Sequential) :
    job.chunk.toNat = job.total / job.workerCount := by
  rw [Job.chunk, BitVec.toNat_udiv, toNat_workerCount, toNat_span h]

theorem toNat_remainder (h : ¬job.Sequential) :
    job.remainder.toNat = job.total % job.workerCount := by
  rw [Job.remainder, BitVec.toNat_umod, toNat_workerCount, toNat_span h]

/-- The first `remainder` intervals are longer by one. -/
theorem lt_remainder_iff (h : ¬job.Sequential) {i : Nat} (hi : i < job.workerCount) :
    BitVec.ofNat 64 i < job.remainder ↔ i < job.total % job.workerCount := by
  have hcount := workerCount_le job
  have hindex : (BitVec.ofNat 64 i).toNat = i := by
    rw [BitVec.toNat_ofNat]
    omega
  rw [BitVec.lt_def, hindex, toNat_remainder h]

/-- Each interval has the size of its part in the even split. -/
theorem toNat_intervalSize (h : ¬job.Sequential) {i : Nat} (hi : i < job.workerCount) :
    (job.intervalSize i).toNat = EvenSplit.size job.total job.workerCount i := by
  have hmany := one_lt_workerCount h
  have hlt := job.span.isLt
  have hdiv : job.total / job.workerCount ≤ job.total / 2 := Nat.div_le_div_left hmany (by decide)
  have hone : (1#64 : U64).toNat = 1 := rfl
  rw [toNat_span h] at hlt
  rw [Job.intervalSize, EvenSplit.size, BitVec.toNat_add, toNat_chunk h]
  by_cases hlonger : i < job.total % job.workerCount
  · rw [if_pos hlonger, if_pos ((lt_remainder_iff h hi).mpr hlonger), hone]
    exact Nat.mod_eq_of_lt (by omega)
  · rw [if_neg hlonger, if_neg fun hr => hlonger ((lt_remainder_iff h hi).mp hr)]
    exact Nat.mod_eq_of_lt (Nat.lt_of_le_of_lt hdiv (by omega))

/-- No sum wraps: interval `i` starts as many candidates after the range as the
intervals before it hold. -/
theorem toNat_next (h : ¬job.Sequential) {i : Nat} (hi : i ≤ job.workerCount) :
    (job.next i).toNat = job.start.toNat + EvenSplit.offset job.total job.workerCount i := by
  have hcount : 0 < job.workerCount := Nat.lt_trans Nat.one_pos (one_lt_workerCount h)
  have htotal := start_add_total h
  have hfinish := job.finish.isLt
  induction i with
  | zero => rfl
  | succ i ih =>
    have hle := EvenSplit.offset_le job.total hcount hi
    rw [EvenSplit.offset_succ] at hle
    rw [Job.next, BitVec.toNat_add, ih (by omega), toNat_intervalSize h (by omega),
      EvenSplit.offset_succ]
    omega

theorem toNat_argStart (h : ¬job.Sequential) {i : Nat} (hi : i < job.workerCount) :
    (job.arg i).start.toNat =
      job.start.toNat + EvenSplit.offset job.total job.workerCount i := toNat_next h (by omega)

theorem toNat_argFinish (h : ¬job.Sequential) {i : Nat} (hi : i < job.workerCount) :
    (job.arg i).finish.toNat =
      job.start.toNat + EvenSplit.offset job.total job.workerCount (i + 1) :=
  toNat_next h (Nat.succ_le_of_lt hi)

/-- The intervals cover the range and nothing else. -/
theorem mem_range_iff (h : ¬job.Sequential) (c : U64) :
    job.start ≤ c ∧ c < job.finish ↔
      ∃ i < job.workerCount, (job.arg i).start ≤ c ∧ c < (job.arg i).finish := by
  have hcount : 0 < job.workerCount := Nat.lt_trans Nat.one_pos (one_lt_workerCount h)
  have hlast := EvenSplit.offset_last job.total hcount
  have htotal := start_add_total h
  constructor
  · rintro ⟨hl, hu⟩
    rw [BitVec.le_def] at hl
    rw [BitVec.lt_def] at hu
    obtain ⟨i, hi, hpart⟩ := EvenSplit.exists_part job.total job.workerCount
      (x := c.toNat - job.start.toNat) (m := job.workerCount) (by omega)
    refine ⟨i, hi, ?_, ?_⟩
    · rw [BitVec.le_def, toNat_argStart h hi]
      omega
    · rw [BitVec.lt_def, toNat_argFinish h hi]
      omega
  · rintro ⟨i, hi, hl, hu⟩
    have hle : EvenSplit.offset job.total job.workerCount (i + 1) ≤ job.total :=
      EvenSplit.offset_le job.total hcount hi
    rw [BitVec.le_def, toNat_argStart h hi] at hl
    rw [BitVec.lt_def, toNat_argFinish h hi] at hu
    exact ⟨BitVec.le_def.mpr (by omega), BitVec.lt_def.mpr (by omega)⟩

/-- No candidate lies in two intervals. -/
theorem interval_unique (h : ¬job.Sequential) {i j : Nat} (hi : i < job.workerCount)
    (hj : j < job.workerCount) {c : U64} (hci : (job.arg i).start ≤ c ∧ c < (job.arg i).finish)
    (hcj : (job.arg j).start ≤ c ∧ c < (job.arg j).finish) : i = j := by
  rw [BitVec.le_def, BitVec.lt_def, toNat_argStart h hi, toNat_argFinish h hi] at hci
  rw [BitVec.le_def, BitVec.lt_def, toNat_argStart h hj, toNat_argFinish h hj] at hcj
  exact EvenSplit.part_unique job.total job.workerCount
    (x := c.toNat - job.start.toNat) (by omega) (by omega)

end Intervals

end DesParallel
