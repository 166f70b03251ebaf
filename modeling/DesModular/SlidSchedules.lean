import DesModular.SemiWeakKeys
import DesModular.KeyDifferences

/-!
# Slid schedules

A key whose subkeys are those of another key, one round later. Between rounds of the same
shift that is always possible: turn both halves of PC-1. The rounds with a shift of one
in place of two keep it from happening along the whole schedule, except to a weak key.
-/
namespace SlidSchedules

open MachineWord DesPermute DesTables DesKeySchedule Keyspace DesScheduleBits WeakKeys
open SemiWeakKeys KeyCount KeyDifferences FixedBits

/-- Subkey `i + 1` of the second key is subkey `i + 2` of the first. -/
def SlidAt (key key' : U64) (i : Fin 15) : Prop :=
  (desGenerateRoundKeys key').get i.castSucc = (desGenerateRoundKeys key).get i.succ

theorem scheduledPosition_succ (i : Fin 15) (j : Fin 48) :
    scheduledPosition i.succ j =
      turn (desShifts.get i.succ) (scheduledPosition i.castSucc j) := by
  have hshift := cumulativeShift_succ (i + 1) (by omega)
  simp only [scheduledPosition, Fin.val_succ, Fin.val_castSucc, hshift]
  exact (turn_turn _ _ _).symm

/-- A subkey is slid when the bits it reads are turned by the shift of the next round. -/
theorem slidAt_iff (key key' : U64) (i : Fin 15) : SlidAt key key' i ↔
    ∀ j, pc1Bit key' (scheduledPosition i.castSucc j) =
      pc1Bit key (turn (desShifts.get i.succ) (scheduledPosition i.castSucc j)) := by
  simp only [← scheduledPosition_succ]
  constructor
  · intro h j
    rw [pc1Bit, pc1Bit, ← msbBit_roundKey, ← msbBit_roundKey]
    exact congrArg (msbBit 48 · (j + 1)) h
  · exact roundKey_congr

/-- Every place is read before a shift of one, and before a shift of two. -/
theorem exists_shift : ∀ q : Fin 56, ∀ n ∈ [1, 2],
    ∃ i : Fin 15, desShifts.get i.succ = n ∧ ∃ j, scheduledPosition i.castSucc j = q := by
  decide +kernel

theorem slid_iff (key key' : U64) {n : Nat} (hn : n ∈ [1, 2]) :
    (∀ i, desShifts.get i.succ = n → SlidAt key key' i) ↔
      ∀ q : Fin 56, pc1Bit key' q = pc1Bit key (turn n q) := by
  constructor
  · intro h q
    obtain ⟨i, hshift, j, hplace⟩ := exists_shift q n hn
    have hbit := (slidAt_iff key key' i).mp (h i hshift) j
    rwa [hshift, hplace] at hbit
  · rintro h i rfl
    rw [slidAt_iff]
    intro j
    exact h ⟨_, scheduledPosition_lt i.castSucc j⟩

/-- The shifts of one and of two agree only where neighbouring bits do. -/
theorem weakKey_of_slid {key key' : U64} (h : ∀ i, SlidAt key key' i) : WeakKey key := by
  apply weakKey_of_neighbours
  intro p hp
  have hone := (slid_iff key key' (by decide : 1 ∈ [1, 2])).mp fun i _ => h i
  have htwo := (slid_iff key key' (by decide : 2 ∈ [1, 2])).mp fun i _ => h i
  -- the place before `p` turns to `p` by one and to its neighbour by two
  have hplace : turn 1 (turn 27 p) = p := turn_back (s := 27) (by decide) hp
  have hbit := (htwo ⟨turn 27 p, turn_lt 27 p⟩).symm.trans (hone ⟨turn 27 p, turn_lt 27 p⟩)
  have hnext : turn 2 (turn 27 p) = turn 1 p := by
    rw [← turn_turn 1 1 (turn 27 p), hplace]
  rw [hplace, hnext] at hbit
  exact hbit

theorem agreeOffParity_of_slid {key key' : U64} (h : ∀ i, SlidAt key key' i) :
    AgreeOffParity key' key := by
  have hweak := (weakKey_iff key).mp (weakKey_of_slid h)
  have hone := (slid_iff key key' (by decide : 1 ∈ [1, 2])).mp fun i _ => h i
  apply agreeOffParity_of_pc1Bit
  intro p hp
  have hstart : halfStart (turn 1 p) = halfStart p := by
    simp only [halfStart, turn]
    split <;> split <;> omega
  rw [hone ⟨p, hp⟩, pc1Bit, pc1Bit, hweak _ (turn_lt 1 p), hweak p hp, hstart]

theorem slid_of_weakKey {key key' : U64} (hweak : WeakKey key) (h : AgreeOffParity key' key)
    (i : Fin 15) : SlidAt key key' i := by
  rw [SlidAt, desGenerateRoundKeys_congr h]
  exact hweak.roundKeys _ _ i.castSucc.isLt i.succ.isLt

theorem card_slid (key : U64) {n : Nat} (hn : n ∈ [1, 2]) :
    Nat.card {key' : U64 // ∀ i, desShifts.get i.succ = n → SlidAt key key' i} = 2 ^ 8 := by
  rw [Nat.card_congr (Equiv.subtypeEquivRight fun key' => slid_iff key key' hn)]
  simp only [pc1Bit, msbBit_pc1]
  exact card_words pc1_injective fun q => pc1Bit key (turn n q)

/-- For every key there are keys, one but for the parity bits, whose subkeys are its own
one round later in all rounds of one shift. All fifteen are its own one round later for
a weak key alone, and then with itself. -/
theorem slid_schedules (key : U64) :
    (∀ n ∈ [1, 2], Nat.card {key' : U64 // ∀ i : Fin 15, desShifts.get i.succ = n →
      (desGenerateRoundKeys key').get i.castSucc = (desGenerateRoundKeys key).get i.succ} =
        2 ^ 8) ∧
    ∀ key', (∀ i : Fin 15,
      (desGenerateRoundKeys key').get i.castSucc = (desGenerateRoundKeys key).get i.succ) ↔
        WeakKey key ∧ AgreeOffParity key' key := by
  refine ⟨fun n hn => card_slid key hn, ?_⟩
  intro key'
  constructor
  · intro h
    exact ⟨weakKey_of_slid h, agreeOffParity_of_slid h⟩
  · rintro ⟨hweak, hagree⟩ i
    exact slid_of_weakKey hweak hagree i

end SlidSchedules
