import DesModular.WeakKeys
import DesModular.KeyEnumeration
import DesModular.Complementation

/-!
# Keys with reversed schedules

Which keys have a partner whose subkeys are their own in reverse order. Both halves of
PC-1 of such a key repeat every two places, and the partner has them turned by one: up to
parity bits there are sixteen such keys, four of them their own partners.
-/
namespace SemiWeakKeys

open MachineWord DesPermute DesTables DesKeySchedule DesBlock Keyspace DesScheduleBits WeakKeys
open KeyEnumeration Complementation

/-- The bit of PC-1 of the key at a place counted from 0. -/
def pc1Bit (key : U64) (p : Nat) : Bool := msbBit 56 (permute key desPc1) (p + 1)

/-- Both halves of PC-1 of the key repeat every two places. -/
def Alternating (key : U64) : Prop := ∀ p < 56, pc1Bit key (turn 2 p) = pc1Bit key p

instance (key : U64) : Decidable (Alternating key) :=
  inferInstanceAs (Decidable (∀ p < 56, _ = _))

/-- PC-1 of the one key has both halves of the other turned by one place. -/
def Turned (key key' : U64) : Prop := ∀ p < 56, pc1Bit key' p = pc1Bit key (turn 1 p)

instance (key key' : U64) : Decidable (Turned key key') :=
  inferInstanceAs (Decidable (∀ p < 56, _ = _))

/-! ## Alternating halves -/

/-- The first or second place of the half a place belongs to. -/
def firstPlace (p : Nat) : Nat := halfStart p + p % 2

theorem exists_turn_two : ∀ p < 56, firstPlace p = p ∨ ∃ q < p, turn 2 q = p ∧
    firstPlace p = firstPlace q := by decide

/-- The two places a half begins with determine it. -/
theorem Alternating.firstPlace {key : U64} (h : Alternating key) {p : Nat} (hp : p < 56) :
    pc1Bit key p = pc1Bit key (firstPlace p) := by
  induction p using Nat.strongRecOn with
  | ind p ih =>
    obtain hfirst | ⟨q, hlt, hturn, hsame⟩ := exists_turn_two p hp
    · rw [hfirst]
    · rw [hsame, ← ih q hlt (by omega), ← h q (by omega), hturn]

/-! ## Reversed schedules -/

theorem pc1Bit_of_reverses {key key' : U64} (h : Reverses key key') (i : Fin 16) (j : Fin 48) :
    pc1Bit key' (scheduledPosition i j) = pc1Bit key (scheduledPosition i.rev j) := by
  have hkeys : (desGenerateRoundKeys key')[i] = (desGenerateRoundKeys key)[i.rev] := by
    have hi : 15 - i.val = i.rev.val := by
      rw [Fin.val_rev]
      omega
    simpa only [Fin.getElem_fin, hi] using h i i.isLt
  rw [pc1Bit, pc1Bit, ← msbBit_roundKey, ← msbBit_roundKey, hkeys]

/-- Rounds that read places next to each other. -/
def neighbourRounds : List (Fin 16 × Fin 16) := [(1, 0), (8, 7), (15, 14), (0, 15)]

/-- Two places with one between them are read, reversed, where the partner has one place. -/
theorem exists_common : ∀ p : Fin 56, ∃ pair ∈ neighbourRounds, ∃ j : Fin 48,
    scheduledPosition pair.1.rev j = p ∧ ∃ l : Fin 48,
      scheduledPosition pair.2 l = scheduledPosition pair.1 j ∧
      scheduledPosition pair.2.rev l = turn 2 p := by decide +kernel

/-- Reversal leads from each place to one an odd number of places further. -/
theorem firstPlace_scheduledPosition : ∀ i : Fin 16, ∀ j : Fin 48,
    firstPlace (turn 1 (scheduledPosition i j)) = firstPlace (scheduledPosition i.rev j) := by
  decide +kernel

theorem alternating_of_reverses {key key' : U64} (h : Reverses key key') : Alternating key := by
  intro p hp
  obtain ⟨⟨i, k⟩, -, j, hplace, l, hsame, hnext⟩ := exists_common ⟨p, hp⟩
  have hfirst := pc1Bit_of_reverses h i j
  have hsecond := pc1Bit_of_reverses h k l
  simp only at hplace hsame hnext
  rw [hplace] at hfirst
  rw [hsame, hfirst, hnext] at hsecond
  exact hsecond.symm

theorem turned_of_reverses {key key' : U64} (h : Reverses key key') : Turned key key' := by
  intro p hp
  have halternating := alternating_of_reverses h
  obtain ⟨i, j, hplace⟩ := exists_scheduledPosition ⟨p, hp⟩
  have hplace' : scheduledPosition i j = p := hplace
  rw [← hplace', pc1Bit_of_reverses h, halternating.firstPlace (scheduledPosition_lt i.rev j),
    halternating.firstPlace (turn_lt 1 _),
    firstPlace_scheduledPosition]

theorem reverses_of_turned {key key' : U64} (halternating : Alternating key)
    (hturned : Turned key key') : Reverses key key' := by
  intro i hi
  have hrev : (⟨i, hi⟩ : Fin 16).rev.val = 15 - i := by
    simp only [Fin.val_rev]
    omega
  have hkeys : (desGenerateRoundKeys key')[(⟨i, hi⟩ : Fin 16)] =
      (desGenerateRoundKeys key)[(⟨i, hi⟩ : Fin 16).rev] := by
    apply roundKey_congr
    intro j
    have hbit := hturned _ (scheduledPosition_lt ⟨i, hi⟩ j)
    rw [halternating.firstPlace (turn_lt 1 _),
      firstPlace_scheduledPosition, ← halternating.firstPlace (scheduledPosition_lt _ j)] at hbit
    exact hbit
  simpa only [Fin.getElem_fin, hrev] using hkeys

theorem reverses_iff (key key' : U64) : Reverses key key' ↔ Alternating key ∧ Turned key key' :=
  ⟨fun h => ⟨alternating_of_reverses h, turned_of_reverses h⟩,
    fun ⟨halternating, hturned⟩ => reverses_of_turned halternating hturned⟩

/-- Neighbouring places in both halves of PC-1 of the key differ. -/
def Opposed (key : U64) : Prop := ∀ p < 56, pc1Bit key (turn 1 p) = !pc1Bit key p

instance (key : U64) : Decidable (Opposed key) :=
  inferInstanceAs (Decidable (∀ p < 56, _ = _))

theorem pc1Bit_not (key : U64) {p : Nat} (hp : p < 56) : pc1Bit (~~~key) p = !pc1Bit key p := by
  rw [pc1Bit, pc1Bit, ← complement_full, permute_complement key desPc1 (by decide) (by decide),
    msbBit_complement (by decide) _ (Nat.le_add_left 1 p) hp]

/-- The keys whose schedule is the reversal of that of their complement. -/
theorem reverses_not_iff (key : U64) : Reverses key (~~~key) ↔ Opposed key := by
  rw [reverses_iff]
  constructor
  · rintro ⟨-, hturned⟩ p hp
    rw [← hturned p hp, pc1Bit_not key hp]
  · intro h
    constructor
    · intro p hp
      have htwice : ∀ p < 56, turn 2 p = turn 1 (turn 1 p) := by decide
      rw [htwice p hp, h _ (turn_lt 1 p), h p hp, Bool.not_not]
    · intro p hp
      rw [pc1Bit_not key hp, h p hp]

/-! ## The sixteen keys -/

/-- Each odd-parity key with a partner, and its partner. -/
def pairedKeys : List (U64 × U64) := [
  (0x0101010101010101#64, 0x0101010101010101#64),
  (0xFEFEFEFEFEFEFEFE#64, 0xFEFEFEFEFEFEFEFE#64),
  (0xE0E0E0E0F1F1F1F1#64, 0xE0E0E0E0F1F1F1F1#64),
  (0x1F1F1F1F0E0E0E0E#64, 0x1F1F1F1F0E0E0E0E#64),
  (0x01FE01FE01FE01FE#64, 0xFE01FE01FE01FE01#64),
  (0xFE01FE01FE01FE01#64, 0x01FE01FE01FE01FE#64),
  (0x1FE01FE00EF10EF1#64, 0xE01FE01FF10EF10E#64),
  (0xE01FE01FF10EF10E#64, 0x1FE01FE00EF10EF1#64),
  (0x01E001E001F101F1#64, 0xE001E001F101F101#64),
  (0xE001E001F101F101#64, 0x01E001E001F101F1#64),
  (0x1FFE1FFE0EFE0EFE#64, 0xFE1FFE1FFE0EFE0E#64),
  (0xFE1FFE1FFE0EFE0E#64, 0x1FFE1FFE0EFE0EFE#64),
  (0x011F011F010E010E#64, 0x1F011F010E010E01#64),
  (0x1F011F010E010E01#64, 0x011F011F010E010E#64),
  (0xE0FEE0FEF1FEF1FE#64, 0xFEE0FEE0FEF1FEF1#64),
  (0xFEE0FEE0FEF1FEF1#64, 0xE0FEE0FEF1FEF1FE#64)]

/-- The bits both halves of PC-1 begin with. -/
def leadingBits (key : U64) : List Bool :=
  [pc1Bit key 0, pc1Bit key 1, pc1Bit key 28, pc1Bit key 29]

theorem pairedKeys_turned : ∀ pair ∈ pairedKeys, Alternating pair.1 ∧ Turned pair.1 pair.2 := by
  have hall : (pairedKeys.all fun pair => decide (Alternating pair.1 ∧ Turned pair.1 pair.2)) =
      true := by decide +kernel
  intro pair hmem
  exact of_decide_eq_true (List.all_eq_true.mp hall pair hmem)

theorem pairedKeys_oddParity : ∀ pair ∈ pairedKeys, OddParity pair.1 ∧ OddParity pair.2 := by
  have hall : (pairedKeys.all fun pair => decide (OddParity pair.1 ∧ OddParity pair.2)) =
      true := by decide +kernel
  intro pair hmem
  exact of_decide_eq_true (List.all_eq_true.mp hall pair hmem)

theorem exists_leadingBits : ∀ a b c d : Bool, ∃ pair ∈ pairedKeys,
    leadingBits pair.1 = [a, b, c, d] := by decide +kernel

theorem Alternating.pc1Bit_eq {x y : U64} (hx : Alternating x) (hy : Alternating y)
    (h : leadingBits x = leadingBits y) {p : Nat} (hp : p < 56) : pc1Bit x p = pc1Bit y p := by
  simp only [leadingBits, List.cons.injEq, and_true] at h
  obtain ⟨hc, hc', hd, hd'⟩ := h
  have hplace : ∀ p < 56, SemiWeakKeys.firstPlace p ∈ [0, 1, 28, 29] := by decide
  rw [hx.firstPlace hp, hy.firstPlace hp]
  have hmem := hplace p hp
  simp only [List.mem_cons, List.not_mem_nil, or_false] at hmem
  obtain h | h | h | h := hmem <;> rw [h] <;> assumption

/-- PC-1 determines a key up to its parity bits. -/
theorem agreeOffParity_of_pc1Bit {x y : U64} (h : ∀ p < 56, pc1Bit x p = pc1Bit y p) :
    AgreeOffParity x y := by
  apply agreeOffParity_of_roundKeys
  apply Vector.ext
  intro i hi
  exact roundKey_congr (i := ⟨i, hi⟩) (k := ⟨i, hi⟩)
    fun j => h _ (scheduledPosition_lt ⟨i, hi⟩ j)

theorem Reverses.congr {x x' y y' : U64} (h : Reverses x x') (hx : AgreeOffParity y x)
    (hx' : AgreeOffParity y' x') : Reverses y y' := by
  intro i hi
  rw [desGenerateRoundKeys_congr hx, desGenerateRoundKeys_congr hx']
  exact h i hi

theorem exists_paired {key key' : U64} (h : Reverses key key') : ∃ pair ∈ pairedKeys,
    AgreeOffParity key pair.1 ∧ AgreeOffParity key' pair.2 := by
  obtain ⟨halternating, hturned⟩ := (reverses_iff key key').mp h
  obtain ⟨pair, hmem, hbits⟩ := exists_leadingBits (pc1Bit key 0) (pc1Bit key 1) (pc1Bit key 28)
    (pc1Bit key 29)
  obtain ⟨hpair, hpartner⟩ := pairedKeys_turned pair hmem
  have hsame : ∀ p < 56, pc1Bit key p = pc1Bit pair.1 p := fun p hp =>
    halternating.pc1Bit_eq hpair hbits.symm hp
  refine ⟨pair, hmem, agreeOffParity_of_pc1Bit hsame, ?_⟩
  apply agreeOffParity_of_pc1Bit
  intro p hp
  rw [hturned p hp, hpartner p hp, hsame _ (turn_lt 1 p)]

/-- Which keys have a schedule that is another key's in reverse order: exactly those with
both halves of PC-1 of period two, with the partner whose halves are turned by one place.
Up to parity bits these are sixteen keys, listed with their partners, and their own
partners are the keys with constant halves. -/
theorem reversed_pairs :
    (∀ key key' : U64, Reverses key key' ↔ Alternating key ∧ Turned key key') ∧
    (∀ key key' : U64, Reverses key key' ↔ ∃ pair ∈ pairedKeys,
      AgreeOffParity key pair.1 ∧ AgreeOffParity key' pair.2) ∧
    (∀ key key' : U64, OddParity key → OddParity key' →
      (Reverses key key' ↔ (key, key') ∈ pairedKeys)) ∧
    (pairedKeys.map Prod.fst).Nodup ∧
    ∀ pair ∈ pairedKeys, (WeakKey pair.1 ↔ pair.1 = pair.2) := by
  have hpaired : ∀ pair ∈ pairedKeys, Reverses pair.1 pair.2 := by
    intro pair hmem
    obtain ⟨hpair, hpartner⟩ := pairedKeys_turned pair hmem
    exact reverses_of_turned hpair hpartner
  refine ⟨reverses_iff, ?_, ?_, by decide +kernel, ?_⟩
  · intro key key'
    constructor
    · exact exists_paired
    · rintro ⟨pair, hmem, hkey, hkey'⟩
      exact Reverses.congr (hpaired pair hmem) hkey hkey'
  · intro key key' hodd hodd'
    constructor
    · intro h
      obtain ⟨pair, hmem, hkey, hkey'⟩ := exists_paired h
      obtain ⟨hpair, hpair'⟩ := pairedKeys_oddParity pair hmem
      rw [eq_of_agreeOffParity hkey hodd hpair, eq_of_agreeOffParity hkey' hodd' hpair']
      exact hmem
    · exact hpaired (key, key')
  · intro pair hmem
    obtain ⟨hodd, hodd'⟩ := pairedKeys_oddParity pair hmem
    constructor
    · intro hweak
      -- the subkeys of the partner are those of the key, reversed twice
      have hkeys : desGenerateRoundKeys pair.1 = desGenerateRoundKeys pair.2 := by
        apply Vector.ext
        intro i hi
        rw [hpaired pair hmem i hi]
        exact hweak.roundKeys i (15 - i) hi (by omega)
      exact eq_of_agreeOffParity (agreeOffParity_of_roundKeys hkeys) hodd hodd'
    · intro hsame
      have hself := hpaired pair hmem
      rw [← hsame] at hself
      exact weakKey_of_reverses hself

/-- A key and its partner, and the same key with itself. -/
theorem reversed_pairs_semi_weak :
    Reverses 0x01FE01FE01FE01FE#64 0xFE01FE01FE01FE01#64 ∧
      ¬Reverses 0x01FE01FE01FE01FE#64 0x01FE01FE01FE01FE#64 := by
  obtain ⟨-, -, hodd, -, -⟩ := reversed_pairs
  constructor
  · exact (hodd _ _ (by decide +kernel) (by decide +kernel)).mpr (by decide +kernel)
  · intro h
    have hmem := (hodd _ _ (by decide +kernel) (by decide +kernel)).mp h
    revert hmem
    decide +kernel

end SemiWeakKeys
