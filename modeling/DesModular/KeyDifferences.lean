import DesModular.KeyCount
import DesModular.BitDistance
import Mathlib.Combinatorics.Enumerative.DoubleCounting

/-!
# How far apart the subkeys of two keys are

PC-2 drops eight of the 56 bits of the registers, and the registers turn between the
rounds, so that no bit of the key is dropped for long. Whatever the keys are, a bit in
which they differ is a bit in which twelve to fifteen of their subkeys differ.
-/
namespace KeyDifferences

open MachineWord DesPermute DesTables DesKeySchedule DesScheduleBits BitDistance KeyCount

/-- The round reads bit `p` of the key. -/
def Reads (i : Fin 16) (p : Fin 64) : Prop := ∃ j, keyPlace i j = p

instance (i : Fin 16) (p : Fin 64) : Decidable (Reads i p) :=
  inferInstanceAs (Decidable (∃ j, keyPlace i j = p))

/-- The bit is not a parity bit. -/
def Effective (p : Fin 64) : Prop := (p.val + 1) % 8 ≠ 0

instance (p : Fin 64) : Decidable (Effective p) :=
  inferInstanceAs (Decidable ((p.val + 1) % 8 ≠ 0))

/-- The effective bits in which two keys differ. -/
def differingBits (x y : U64) : Finset (Fin 64) :=
  {p | Effective p ∧ msbBit 64 x (p + 1) ≠ msbBit 64 y (p + 1)}

/-! ## Which rounds read a bit -/

/-- The places of the registers that PC-2 drops. -/
def droppedPlaces : List Nat := [8, 17, 21, 24, 34, 37, 42, 53]

theorem not_dropped_iff : ∀ q : Fin 56,
    q.val ∉ droppedPlaces ↔ ∃ j, desPc2.position j = q := by decide +kernel

theorem turn_back {s p : Nat} (hs : s ≤ 28) (hp : p < 56) : turn (28 - s) (turn s p) = p := by
  rw [turn_turn, Nat.add_sub_of_le hs, turn]
  split <;> omega

theorem cumulativeShift_le : ∀ i : Fin 16, cumulativeShift (i + 1) ≤ 28 := by decide

/-- A round reads the bits that its turns do not bring to a dropped place. -/
theorem reads_iff (i : Fin 16) (q : Fin 56) : Reads i (desPc1.position q) ↔
    turn (28 - cumulativeShift (i + 1)) q ∉ droppedPlaces := by
  have hshift := cumulativeShift_le i
  have hback : 28 - (28 - cumulativeShift (i + 1)) = cumulativeShift (i + 1) := by omega
  refine Iff.trans ?_ (not_dropped_iff ⟨_, turn_lt (28 - cumulativeShift (i + 1)) q⟩).symm
  constructor
  · rintro ⟨j, hj⟩
    have hplace : scheduledPosition i j = q := congrArg Fin.val (pc1_injective hj)
    have hturn := turn_back hshift (desPc2.position j).isLt
    rw [← scheduledPosition, hplace] at hturn
    exact ⟨j, Fin.ext hturn.symm⟩
  · rintro ⟨j, hj⟩
    refine ⟨j, congrArg desPc1.position (Fin.ext ?_)⟩
    have hturn := turn_back (Nat.sub_le 28 (cumulativeShift (i + 1))) q.isLt
    rw [hback] at hturn
    simp only [scheduledPosition, hj, hturn]

theorem exists_pc1_position : ∀ p : Fin 64, Effective p → ∃ q, desPc1.position q = p := by
  decide +kernel

theorem effective_position : ∀ q : Fin 56, Effective (desPc1.position q) := by decide +kernel

theorem card_rounds : ∀ q : Fin 56,
    12 ≤ Finset.card {i : Fin 16 | turn (28 - cumulativeShift (i + 1)) q ∉ droppedPlaces} ∧
    Finset.card {i : Fin 16 | turn (28 - cumulativeShift (i + 1)) q ∉ droppedPlaces} ≤ 15 := by
  decide +kernel

/-- Twelve to fifteen rounds read a bit. -/
theorem card_reads {p : Fin 64} (hp : Effective p) :
    12 ≤ Finset.card {i : Fin 16 | Reads i p} ∧ Finset.card {i : Fin 16 | Reads i p} ≤ 15 := by
  obtain ⟨q, rfl⟩ := exists_pc1_position p hp
  simp only [reads_iff]
  exact card_rounds q

/-- Eight effective bits are not read by a round. -/
theorem card_not_read (i : Fin 16) : Finset.card {p : Fin 64 | Effective p ∧ ¬Reads i p} = 8 := by
  have heffective : Finset.card {p : Fin 64 | Effective p} = 56 := by decide
  have hread : Finset.image (keyPlace i) Finset.univ ⊆ ({p | Effective p} : Finset (Fin 64)) := by
    intro p hp
    obtain ⟨j, -, rfl⟩ := Finset.mem_image.mp hp
    exact Finset.mem_filter.mpr ⟨Finset.mem_univ _, effective_position _⟩
  have hsplit : ({p | Effective p ∧ ¬Reads i p} : Finset (Fin 64)) =
      ({p | Effective p} : Finset (Fin 64)) \ Finset.image (keyPlace i) Finset.univ := by
    ext p
    simp [Reads]
  rw [hsplit, Finset.card_sdiff_of_subset hread, heffective,
    Finset.card_image_of_injective _ (keyPlace_injective i)]
  rfl

/-! ## Two keys -/

variable (x y : U64)

/-- Subkeys differ in the bits that they read where the keys differ. -/
theorem bitDistance_roundKey (i : Fin 16) :
    bitDistance 48 ((desGenerateRoundKeys x).get i) ((desGenerateRoundKeys y).get i) =
      ((differingBits x y).filter (Reads i)).card := by
  have hread : (differingBits x y).filter (Reads i) =
      Finset.image (keyPlace i) {j | msbBit 64 x (keyPlace i j + 1) ≠
        msbBit 64 y (keyPlace i j + 1)} := by
    ext p
    simp only [differingBits, Finset.mem_filter, Finset.mem_univ, true_and, Finset.mem_image]
    constructor
    · rintro ⟨⟨-, hne⟩, j, rfl⟩
      exact ⟨j, hne, rfl⟩
    · rintro ⟨j, hne, rfl⟩
      exact ⟨⟨effective_position _, hne⟩, j, rfl⟩
  rw [hread, Finset.card_image_of_injective _ (keyPlace_injective i)]
  simp only [bitDistance, msbBit_keyPlace]
  rfl

theorem differingBits_nonempty (h : x &&& effectiveKeyMask ≠ y &&& effectiveKeyMask) :
    (differingBits x y).Nonempty := by
  rw [ne_eq, ← agreeOffParity_iff] at h
  simp only [Keyspace.AgreeOffParity, not_forall] at h
  obtain ⟨b, hb, hparity, hne⟩ := h
  have hindex : 64 - (63 - b + 1) = b := by omega
  refine ⟨⟨63 - b, by omega⟩, Finset.mem_filter.mpr ⟨Finset.mem_univ _, ?_, ?_⟩⟩
  · simp only [Effective]
    omega
  · simpa only [msbBit, hindex] using hne

/-- Two keys that differ in `d` effective bits. Each pair of subkeys differs in at most
`d` bits and in no fewer than `d - 8`, all sixteen pairs together in `12 * d` to `15 * d`
bits, and at most four subkeys are the same unless the keys only differ in parity. -/
theorem key_differences :
    (∀ i, bitDistance 48 ((desGenerateRoundKeys x).get i) ((desGenerateRoundKeys y).get i) ≤
        (differingBits x y).card ∧
      (differingBits x y).card ≤
        bitDistance 48 ((desGenerateRoundKeys x).get i) ((desGenerateRoundKeys y).get i) + 8) ∧
    12 * (differingBits x y).card ≤ ∑ i,
      bitDistance 48 ((desGenerateRoundKeys x).get i) ((desGenerateRoundKeys y).get i) ∧
    ∑ i, bitDistance 48 ((desGenerateRoundKeys x).get i) ((desGenerateRoundKeys y).get i) ≤
      15 * (differingBits x y).card ∧
    (x &&& effectiveKeyMask ≠ y &&& effectiveKeyMask → Finset.card {i |
      (desGenerateRoundKeys x).get i = (desGenerateRoundKeys y).get i} ≤ 4) := by
  have hsum : ∑ i : Fin 16, ((differingBits x y).filter (Reads i)).card =
      ∑ p ∈ differingBits x y, Finset.card {i : Fin 16 | Reads i p} :=
    Finset.sum_card_bipartiteAbove_eq_sum_card_bipartiteBelow Reads
  have heffective : ∀ p ∈ differingBits x y, Effective p := by
    intro p hp
    exact (Finset.mem_filter.mp hp).2.1
  simp only [bitDistance_roundKey, hsum]
  refine ⟨?_, ?_, ?_, ?_⟩
  · intro i
    refine ⟨Finset.card_filter_le _ _, ?_⟩
    have hsplit := Finset.card_filter_add_card_filter_not (s := differingBits x y) (Reads i)
    have hrest : ((differingBits x y).filter fun p => ¬Reads i p).card ≤ 8 := by
      rw [← card_not_read i]
      apply Finset.card_le_card
      intro p hp
      obtain ⟨hdiffer, hnot⟩ := Finset.mem_filter.mp hp
      simpa using ⟨heffective p hdiffer, hnot⟩
    omega
  · rw [Nat.mul_comm]
    exact Finset.card_nsmul_le_sum _ _ _ fun p hp => (card_reads (heffective p hp)).1
  · rw [Nat.mul_comm]
    exact Finset.sum_le_card_nsmul _ _ _ fun p hp => (card_reads (heffective p hp)).2
  · intro hne
    obtain ⟨p, hp⟩ := differingBits_nonempty x y hne
    have hreads := (card_reads (heffective p hp)).1
    have hdisjoint : Disjoint ({i | Reads i p} : Finset (Fin 16))
        ({i | (desGenerateRoundKeys x).get i = (desGenerateRoundKeys y).get i} :
          Finset (Fin 16)) := by
      rw [Finset.disjoint_filter]
      rintro i - ⟨j, rfl⟩ hsame
      apply (Finset.mem_filter.mp hp).2.2
      rw [← msbBit_keyPlace, ← msbBit_keyPlace, hsame]
    have htotal := Finset.card_le_univ (Finset.disjUnion _ _ hdisjoint)
    rw [Finset.card_disjUnion, Fintype.card_fin] at htotal
    omega

/-- Two keys with one different bit. -/
theorem key_differences_one_bit :
    Finset.card {i | (desGenerateRoundKeys 0#64).get i = (desGenerateRoundKeys 2#64).get i} ≤ 4 :=
  (key_differences 0#64 2#64).2.2.2 (by decide)

end KeyDifferences
