import DesModular.SubkeyCount
import DesModular.WeakKeys
import DesModular.FixedBits

/-!
# How many keys a round admits

A subkey is a choice of 48 bits of the key at different places, so every 48-bit word is
the subkey of a round for 2^16 of the 2^64 keys.
-/
namespace KeyCount

open MachineWord DesPermute DesTables DesFeistel DesKeySchedule DesScheduleBits WeakKeys
open FixedBits SubkeyCount

/-- The bit of the key that becomes bit `j + 1` of subkey `i + 1`, counted from 0. -/
def keyPlace (i : Fin 16) (j : Fin 48) : Fin 64 :=
  desPc1.position ⟨scheduledPosition i j, scheduledPosition_lt i j⟩

theorem turn_injOn (s : Nat) {p q : Nat} (hp : p < 56) (hq : q < 56) (h : turn s p = turn s q) :
    p = q := by
  simp only [turn] at h
  split at h <;> split at h <;> omega

theorem pc1_injective : Function.Injective desPc1.position := by decide +kernel

theorem keyPlace_injective (i : Fin 16) : Function.Injective (keyPlace i) := by
  have hpc2 : Function.Injective desPc2.position := by decide +kernel
  intro j k h
  have hturn := Fin.mk.inj (pc1_injective h)
  exact hpc2 (Fin.ext (turn_injOn _ (desPc2.position j).isLt (desPc2.position k).isLt hturn))

theorem msbBit_pc1 (key : U64) (q : Fin 56) :
    msbBit 56 (permute key desPc1) (q + 1) = msbBit 64 key (desPc1.position q + 1) := by
  have hplace := desPc1.position_succ q
  simp only [Fin.getElem_fin] at hplace
  rw [msbBit_permute key desPc1 (by decide) (by decide) q q.isLt, hplace]

theorem msbBit_keyPlace (key : U64) (i : Fin 16) (j : Fin 48) :
    msbBit 48 ((desGenerateRoundKeys key).get i) (j + 1) = msbBit 64 key (keyPlace i j + 1) :=
  (msbBit_roundKey key i j).trans (msbBit_pc1 key ⟨_, scheduledPosition_lt i j⟩)

theorem card_keys {i : Fin 16} {k : U64} (hk : Fits 48 k) :
    Nat.card {key : U64 // (desGenerateRoundKeys key).get i = k} = 2 ^ 16 := by
  have hbits : ∀ key : U64, (desGenerateRoundKeys key).get i = k ↔
      ∀ j, msbBit 64 key (keyPlace i j + 1) = msbBit 48 k (j + 1) := by
    intro key
    simp only [← msbBit_keyPlace]
    constructor
    · rintro rfl j
      rfl
    · intro h
      exact eq_of_msbBit (fits_roundKey key i i.isLt) hk fun j hj => h ⟨j, hj⟩
  rw [Nat.card_congr (Equiv.subtypeEquivRight hbits)]
  exact card_words (keyPlace_injective i) fun j => msbBit 48 k (j + 1)

/-- Keys counted by what their subkey of one round has to satisfy. -/
theorem card_keys_of_subkeys (i : Fin 16) (p : U64 → Prop) :
    Nat.card {key : U64 // p ((desGenerateRoundKeys key).get i)} =
      Nat.card {k : U64 // Fits 48 k ∧ p k} * 2 ^ 16 := by
  let subkey : {key : U64 // p ((desGenerateRoundKeys key).get i)} →
      {k : U64 // Fits 48 k ∧ p k} := fun key => ⟨_, fits_roundKey key.1 i i.isLt, key.2⟩
  apply card_of_fibers subkey
  rintro ⟨k, hk, hpk⟩
  rw [← card_keys (i := i) hk]
  apply Nat.card_congr
  have hsame : ∀ key : {key : U64 // p ((desGenerateRoundKeys key).get i)},
      subkey key = ⟨k, hk, hpk⟩ ↔ (desGenerateRoundKeys key.1).get i = k := fun key =>
    Subtype.ext_iff
  have hp : ∀ {key : U64}, (desGenerateRoundKeys key).get i = k →
      p ((desGenerateRoundKeys key).get i) := fun h => h ▸ hpk
  exact (Equiv.subtypeEquivRight hsame).trans (Equiv.subtypeSubtypeEquivSubtype hp)

/-- In every round, every subkey belongs to 2^16 of the keys, and from every pair of
halves 2^32 of the keys lead to every right half. -/
theorem keys_of_round (i : Fin 16) :
    (∀ k, Fits 48 k → Nat.card {key : U64 // (desGenerateRoundKeys key).get i = k} = 2 ^ 16) ∧
    ∀ left right next : U32,
      Nat.card {key : U64 // (desRound left right ((desGenerateRoundKeys key).get i)).right =
        next} = 2 ^ 32 := by
  refine ⟨fun k hk => card_keys hk, ?_⟩
  intro left right next
  rw [card_keys_of_subkeys i fun k => (desRound left right k).right = next, card_subkeys,
    ← pow_add]

/-- The first round. -/
theorem keys_of_round_first :
    Nat.card {key : U64 // (desGenerateRoundKeys key).get 0 = 0#64} = 2 ^ 16 :=
  (keys_of_round 0).1 0#64 (by decide)

end KeyCount
