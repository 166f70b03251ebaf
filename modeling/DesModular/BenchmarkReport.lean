import DesModular.BenchmarkVerdict
import DesModular.KeyRecovery
import Mathlib.Data.List.Forall2

/-!
# The lines of the benchmark

All lines that the benchmark prints while it measures, in their order, and what each of
them shows under every schedule of the searches. The failures are the marked lines.
-/
namespace BenchmarkReport

open MachineWord ByteOrder ByteMemory DesBlock Keyspace DesBruteForce DesParallel
open DesParallelResults Benchmark BenchmarkSettings BenchmarkMeasure BenchmarkVerdict
open KeyEnumeration

/-! ## Growing reports -/

variable (o : Options) (search : Call → Job → AttackResult) (b : Nat) (bits : U32)
variable (h : badWidth bits = false)

/-- What a row of a sweep shows: whether the ciphertext is absent, and how many keys the
last of its searches tested. -/
structure ShowsSweep (workers : U32) (w : Nat) (row : Sweep) : Prop where
  complete : row.complete = true ↔ Absent (widthSpace bits h)
  last : row.candidatesTested = (search (.sweep b w (o.repeats.toNat - 1))
    (sweepJob (widthSpace bits h) workers)).candidatesTested
  tested_le : row.candidatesTested.toNat ≤ 2 ^ bits.toNat
  tested_all : row.complete = true → row.candidatesTested.toNat = 2 ^ bits.toNat

/-- What a row of a recovery shows: the result of its search, which is a candidate whose
key fits, and whether that is the planted one. -/
structure ShowsRecovery (workers : U32) (w : Nat) (row : Recovery) (recovered : Bool) :
    Prop where
  candidate : row.candidate = (search (.recovery b w)
    (recoveryJob (widthSpace bits h) (planted o bits h) workers)).candidate
  tested : row.candidatesTested = (search (.recovery b w)
    (recoveryJob (widthSpace bits h) (planted o bits h) workers)).candidatesTested
  found : row.found = true
  upper : row.candidate.toNat < 2 ^ bits.toNat
  fits : desEncryptBlock knownPlaintext (desKeyspaceKey (widthSpace bits h) row.candidate) =
    desEncryptBlock knownPlaintext (desKeyspaceKey (widthSpace bits h) (planted o bits h))
  tested_le : row.candidatesTested.toNat ≤ 2 ^ bits.toNat
  recovered_iff : recovered = true ↔ row.candidate = planted o bits h

/-- The row of a worker count in a sweep. -/
def SweepLine (workers : U32 × Nat) (line : Line) : Prop :=
  ∃ row, line = .sweep workers.1 row ∧ ShowsSweep o search b bits h workers.1 workers.2 row

/-- The row of a worker count in a recovery. -/
def RecoveryLine (workers : U32 × Nat) (line : Line) : Prop :=
  ∃ row recovered, line = .recovery workers.1 row recovered ∧
    ShowsRecovery o search b bits h workers.1 workers.2 row recovered

/-- The lines of one width: the heading, one row of the sweep for each worker count, the
planted key, and one row of the recovery for each worker count. -/
def WidthLines (block : List Line) : Prop :=
  ∃ sweeps recoveries,
    block = .width bits (BitVec.ofNat 64 (2 ^ bits.toNat))
        (BitVec.ofNat 64 (0x2A5C3E19 % 2 ^ (56 - bits.toNat))) ::
      (sweeps ++ .planted (planted o bits h)
        (desKeyspaceKey (widthSpace bits h) (planted o bits h)) (some true) :: recoveries) ∧
    List.Forall₂ (SweepLine o search b bits h) o.workers.toList.zipIdx sweeps ∧
    List.Forall₂ (RecoveryLine o search b bits h) o.workers.toList.zipIdx recoveries

theorem toNat_widthSize : (desKeyspaceSize (widthSpace bits h)).toNat = 2 ^ bits.toNat :=
  toNat_desKeyspaceSize _

/-- The planted candidate is the one that was asked for, or the last one. -/
theorem toNat_planted : (planted o bits h).toNat =
    if o.target.toNat < 2 ^ bits.toNat then o.target.toNat else 2 ^ bits.toNat - 1 := by
  have hsize := toNat_widthSize bits h
  have hpos := Nat.two_pow_pos bits.toNat
  have hfits := (desKeyspaceSize (widthSpace bits h)).isLt
  have hmax : (BitVec.allOnes 64).toNat = 2 ^ 64 - 1 := BitVec.toNat_allOnes
  have hone : (1#64 : U64).toNat = 1 := rfl
  by_cases hlt : o.target.toNat < 2 ^ bits.toNat
  · have hkeep : ¬(o.target = BitVec.allOnes 64 ∨
        desKeyspaceSize (widthSpace bits h) ≤ o.target) := by
      rintro (heq | hle)
      · rw [heq] at hlt
        omega
      · rw [BitVec.le_def] at hle
        omega
    rw [planted, targetOf, if_neg hkeep, if_pos hlt]
  · have hlast : desKeyspaceSize (widthSpace bits h) ≤ o.target := by
      rw [BitVec.le_def]
      omega
    rw [planted, targetOf, if_pos (.inr hlast), if_neg hlt,
      BitVec.toNat_sub_of_le (by rw [BitVec.le_def]; omega), hsize, hone]

variable {o search b bits h}

theorem WidthLines.length {block : List Line} (hblock : WidthLines o search b bits h block) :
    block.length = 2 * o.workers.count + 2 := by
  obtain ⟨sweeps, recoveries, rfl, hsweeps, hrecoveries⟩ := hblock
  have hs := hsweeps.length_eq
  have hr := hrecoveries.length_eq
  rw [List.length_zipIdx, PointList.length_toList] at hs hr
  simp only [List.length_cons, List.length_append]
  omega

end BenchmarkReport
