import DesModular.BenchmarkSettings
import DesModular.DesParallelSchedule
import DesModular.KeyEnumeration

/-!
# What the benchmark measures

`benchmark.c` past its options: for every width it sweeps the key space for a ciphertext
that no candidate should produce, then searches it for a planted key, both with every
worker count. Each row that does not behave is a failure. What the calls of
`des_brute_force_parallel` return is a parameter; the times are left out.
-/
namespace BenchmarkMeasure

open MachineWord ByteOrder ByteMemory DesBlock Keyspace DesBruteForce DesParallel
open Benchmark BenchmarkSettings KeyEnumeration
open DesApi (desCheckParity)

/-- `KNOWN_PLAINTEXT`. -/
def knownPlaintext : U64 := 0x0123456789ABCDEF#64

/-- `FIXED_PREFIX`. -/
def fixedPrefix : U64 := 0x2A5C3E19#64

/-- `prefix_mask`. -/
def prefixMask (bits : Nat) : U64 := (1#64 <<< (56 - bits)) - 1#64

theorem width_of_not_bad {bits : U32} (h : badWidth bits = false) :
    1 ≤ bits.toNat ∧ bits.toNat ≤ 32 := by
  by_contra hout
  rw [(BenchmarkOptions.badWidth_iff bits).mpr hout] at h
  cases h

/-- `space` of one width. -/
def widthSpace (bits : U32) (h : badWidth bits = false) : DesKeyspace :=
  keyspaceWith bits.toNat (width_of_not_bad h) (fixedPrefix &&& prefixMask bits.toNat)

def unmatchableCiphertext (space : DesKeyspace) (plaintext : U64) : U64 :=
  desEncryptBlock plaintext (desKeyspaceKey (outside space) 0#64)

/-- The local array that a key is spread over. -/
def keyArray : Memory Unit := ⟨fun _ => 8, fun _ _ => 0#8⟩

def keyHasOddParity (key : U64) : Option Bool := do
  let m ← keyArray.storeBigEndian ⟨(), 0⟩ 8 key
  let (status, valid) ← desCheckParity m ⟨(), 0⟩ 8#64 false
  pure (status = .ok && valid)

/-! ## Rows -/

/-- `sweep_t` without its times. -/
structure Sweep where
  candidatesTested : U64
  complete : Bool
  deriving DecidableEq, Repr

/-- `recovery_t` without its time. -/
structure Recovery where
  found : Bool
  candidate : U64
  candidatesTested : U64
  deriving DecidableEq, Repr

/-- One iteration of `run_sweep`. -/
def Sweep.record (size : U64) (sweep : Sweep) (result : AttackResult) : Sweep where
  candidatesTested := result.candidatesTested
  complete := sweep.complete && !(result.found || result.candidatesTested != size)

/-- `search run` is the call of `des_brute_force_parallel` in iteration `run`. -/
def runSweep (search : Nat → Job → AttackResult) (space : DesKeyspace)
    (plaintext ciphertext size : U64) (workers : U32) (repeats : Nat) : Sweep :=
  Nat.fold repeats (fun run _ sweep =>
    sweep.record size (search run ⟨space, plaintext, ciphertext, 0#64, size, workers⟩))
    ⟨0#64, true⟩

def runRecovery (search : Job → AttackResult) (space : DesKeyspace)
    (plaintext ciphertext size : U64) (workers : U32) : Recovery :=
  let result := search ⟨space, plaintext, ciphertext, 0#64, size, workers⟩
  ⟨result.found, result.candidate, result.candidatesTested⟩

/-- The calls of the search in one run of the program. -/
inductive Call where
  | sweep (b w run : Nat)
  | recovery (b w : Nat)
  deriving DecidableEq, Repr

/-- What the program prints while it measures. -/
inductive Line where
  | width (bits : U32) (size fixedPrefix : U64)
  | sweep (workers : U32) (row : Sweep)
  | planted (target secretKey : U64) (oddParity : Option Bool)
  | recovery (workers : U32) (row : Recovery) (recovered : Bool)
  deriving DecidableEq, Repr

structure Report where
  lines : List Line
  failures : Nat
  deriving DecidableEq, Repr

/-- A line, and one failure more unless `good`. -/
def Report.print (report : Report) (line : Line) (good : Bool) : Report :=
  ⟨report.lines ++ [line], if good then report.failures else report.failures + 1⟩

/-- A loop over the worker counts, from row `w` on. -/
def rowLoop (row : Nat → U32 → Line × Bool) : (w : Nat) → List U32 → Report → Report
  | _, [], report => report
  | w, workers :: rest, report =>
    rowLoop row (w + 1) rest (report.print (row w workers).1 (row w workers).2)

def sweepRow (search : Nat → Nat → Job → AttackResult) (space : DesKeyspace) (repeats : Nat)
    (w : Nat) (workers : U32) : Line × Bool :=
  let sweep := runSweep (search w) space knownPlaintext
    (unmatchableCiphertext space knownPlaintext) (desKeyspaceSize space) workers repeats
  (.sweep workers sweep, sweep.complete)

/-- `target` for a space of the given size. -/
def targetOf (target size : U64) : U64 :=
  if target = BitVec.allOnes 64 ∨ size ≤ target then size - 1#64 else target

def recoveryRow (search : Nat → Job → AttackResult) (space : DesKeyspace) (target : U64)
    (w : Nat) (workers : U32) : Line × Bool :=
  let secretKey := desKeyspaceKey space target
  let recovery := runRecovery (search w) space knownPlaintext
    (desEncryptBlock knownPlaintext secretKey) (desKeyspaceSize space) workers
  let recovered := recovery.found && recovery.candidate == target
  (.recovery workers recovery recovered, recovered)

/-! ## The program -/

/-- One iteration over the widths. -/
def measureWidth (o : Options) (search : Call → Job → AttackResult) (b : Nat) (bits : U32)
    (h : badWidth bits = false) (report : Report) : Report :=
  let space := widthSpace bits h
  let size := desKeyspaceSize space
  let report := report.print (.width bits size space.fixedPrefix) true
  let report := rowLoop (sweepRow (fun w run => search (.sweep b w run)) space o.repeats.toNat)
    0 o.workers.toList report
  let target := targetOf o.target size
  let secretKey := desKeyspaceKey space target
  let report := report.print (.planted target secretKey (keyHasOddParity secretKey)) true
  rowLoop (recoveryRow (fun w => search (.recovery b w)) space target) 0 o.workers.toList report

def widthLoop (o : Options) (search : Call → Job → AttackResult) :
    (b : Nat) → (list : List U32) → (∀ bits ∈ list, badWidth bits = false) → Report → Report
  | _, [], _, report => report
  | b, bits :: rest, h, report =>
    widthLoop o search (b + 1) rest (fun bits' hmem => h bits' (List.mem_cons_of_mem _ hmem))
      (measureWidth o search b bits (h bits List.mem_cons_self) report)

def measurements (o : Options) (h : WellFormed o) (search : Call → Job → AttackResult) : Report :=
  widthLoop o search 0 o.bits.toList h.widths ⟨[], 0⟩

/-- The ways a run of the program ends. -/
inductive Ending where
  | stopped (e : Exit)
  | cannotWrite (path : String)
  | measured (report : Report)
  deriving DecidableEq, Repr

/-- `EXIT_SUCCESS`. -/
def Ending.success : Ending → Bool
  | .stopped e => e.success
  | .cannotWrite _ => false
  | .measured report => report.failures == 0

/-- `canWrite` is whether `fopen` can open a path for writing. -/
def main (cores : U32) (canWrite : String → Bool) (search : Call → Job → AttackResult)
    (args : List String) : Ending :=
  match h : mainOptions cores args with
  | .error e => .stopped e
  | .ok o =>
    match o.csvPath.filter (fun path => !canWrite path) with
    | some path => .cannotWrite path
    | none => .measured (measurements o (wellFormed_of_mainOptions h) search)

end BenchmarkMeasure
