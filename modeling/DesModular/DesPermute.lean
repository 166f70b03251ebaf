import DesModular.MachineWord

/-!
# Bit selection by a table

`permute` of `des.c`, `des_feistel.c` and `des_keyschedule.c`: three static
copies of the same loop, modelled once. Tables number bits from 1 at the most
significant end and carry the range of their entries, so that no step can
select a bit outside its input.
-/
namespace DesPermute

open MachineWord

/-- A selection table: output bit `i + 1` is input bit `entries[i]`. -/
structure BitTable (inBits outBits : Nat) where
  entries : Vector Nat outBits
  inRange : ∀ i : Fin outBits, 1 ≤ entries[i] ∧ entries[i] ≤ inBits

variable {inBits outBits : Nat}

theorem BitTable.one_le (table : BitTable inBits outBits) (i : Nat) (h : i < outBits) :
    1 ≤ table.entries[i] := (table.inRange ⟨i, h⟩).1

theorem BitTable.le_inBits (table : BitTable inBits outBits) (i : Nat) (h : i < outBits) :
    table.entries[i] ≤ inBits := (table.inRange ⟨i, h⟩).2

/-- `in_bits - table[i]` in 32-bit unsigned arithmetic. -/
def shiftAmount (inBits entry : Nat) : Nat := (inBits + 2 ^ 32 - entry) % 2 ^ 32

theorem shiftAmount_eq {inBits entry : Nat} (h : entry ≤ inBits) (hin : inBits ≤ 64) :
    shiftAmount inBits entry = inBits - entry := by
  unfold shiftAmount
  omega

/-- Picks bits from `input` according to `table` and reassembles them. -/
def permute (input : U64) (table : BitTable inBits outBits) : U64 :=
  Nat.fold outBits (fun i _ output =>
    let bit := (input >>> shiftAmount inBits table.entries[i]) &&& 1#64
    (output <<< 1) ||| bit) 0#64

theorem permute_eq_accumulate (input : U64) (table : BitTable inBits outBits) :
    permute input table = accumulate 1 outBits
      (fun i _ => (input >>> shiftAmount inBits table.entries[i]) &&& 1#64) := rfl

theorem fits_bit (x : U64) : Fits 1 (x &&& 1#64) := fits_and x (by decide)

/-- The result never leaves the low `outBits` bits. -/
theorem fits_permute (input : U64) (table : BitTable inBits outBits) :
    Fits outBits (permute input table) := by
  have h := fits_accumulate 1 outBits
    (fun i _ => (input >>> shiftAmount inBits table.entries[i]) &&& 1#64) (fun _ _ => fits_bit _)
  rwa [Nat.mul_one] at h

/-- The semantics of the loop: output bit `i + 1` is input bit `table[i]`. -/
theorem msbBit_permute (input : U64) (table : BitTable inBits outBits) (hin : inBits ≤ 64)
    (hout : outBits ≤ 64) (i : Nat) (hi : i < outBits) :
    msbBit outBits (permute input table) (i + 1) = msbBit inBits input table.entries[i] := by
  have h := getLsbD_accumulate 1 outBits
    (fun i _ => (input >>> shiftAmount inBits table.entries[i]) &&& 1#64)
    (fun _ _ => fits_bit _) (by omega) i hi 0 (by decide)
  have he : (outBits - 1 - i) * 1 + 0 = outBits - (i + 1) := by omega
  rw [he, ← permute_eq_accumulate, shiftAmount_eq (table.le_inBits i hi) hin] at h
  simpa [msbBit] using h

/-- The same statement for the whole output string. -/
theorem bitString_permute (input : U64) (table : BitTable inBits outBits) (hin : inBits ≤ 64)
    (hout : outBits ≤ 64) :
    bitString outBits (permute input table) =
      table.entries.toList.map (msbBit inBits input) := by
  apply List.ext_getElem (by simp)
  intro i h1 h2
  rw [length_bitString] at h1
  rw [getElem_bitString, msbBit_permute input table hin hout i h1]
  simp

/-- Selecting bits commutes with exclusive or. -/
theorem permute_xor (x y : U64) (table : BitTable inBits outBits) (hin : inBits ≤ 64)
    (hout : outBits ≤ 64) :
    permute (x ^^^ y) table = permute x table ^^^ permute y table := by
  apply eq_of_msbBit (fits_permute _ _) (fits_xor (fits_permute _ _) (fits_permute _ _))
  intro k hk
  simp only [msbBit_xor, msbBit_permute _ table hin hout k hk]

/-- Two inputs that agree on the selected positions give the same output. -/
theorem permute_congr {x y : U64} (table : BitTable inBits outBits) (hin : inBits ≤ 64)
    (hout : outBits ≤ 64)
    (h : ∀ i (hi : i < outBits),
      msbBit inBits x table.entries[i] = msbBit inBits y table.entries[i]) :
    permute x table = permute y table := by
  apply eq_of_msbBit (fits_permute _ _) (fits_permute _ _)
  intro k hk
  simp only [msbBit_permute _ table hin hout k hk, h k hk]

/-- The selected position, counted from 0. -/
def BitTable.position (table : BitTable inBits outBits) (i : Fin outBits) : Fin inBits :=
  ⟨table.entries[i] - 1, by
    have := table.inRange i
    omega⟩

theorem BitTable.position_succ (table : BitTable inBits outBits) (i : Fin outBits) :
    (table.position i).val + 1 = table.entries[i] := by
  have := (table.inRange i).1
  simp only [BitTable.position]
  omega

/-- `second` reads back, at every position, the bit that `first` put there. -/
def Undoes {n : Nat} (first second : BitTable n n) : Prop :=
  ∀ i : Fin n, first.position (second.position i) = i

instance {n : Nat} (first second : BitTable n n) : Decidable (Undoes first second) :=
  inferInstanceAs (Decidable (∀ i : Fin n, first.position (second.position i) = i))

/-- Permuting by a table and then by its inverse gives the register back. -/
theorem permute_permute {n : Nat} {first second : BitTable n n} (hn : n ≤ 64)
    (h : Undoes first second) {x : U64} (hx : Fits n x) :
    permute (permute x first) second = x := by
  apply eq_of_msbBit (fits_permute _ _) hx
  intro k hk
  have hsecond := second.position_succ ⟨k, hk⟩
  have hfirst := first.position_succ (second.position ⟨k, hk⟩)
  rw [h ⟨k, hk⟩] at hfirst
  rw [msbBit_permute _ second hn hn k hk]
  change msbBit n (permute x first) second.entries[(⟨k, hk⟩ : Fin n)] = msbBit n x (k + 1)
  rw [← hsecond, msbBit_permute x first hn hn _ (second.position ⟨k, hk⟩).isLt]
  exact congrArg (msbBit n x) hfirst.symm

/-! ## Tables that are bijections -/

/-- `inverse` leads every position back to the one it was selected for. -/
def BitTable.IsInverse {n : Nat} (table inverse : BitTable n n) : Prop :=
  Function.LeftInverse inverse.position table.position

theorem BitTable.IsInverse.undoes {n : Nat} {table inverse : BitTable n n}
    (h : table.IsInverse inverse) (hsurj : Function.Surjective table.position) :
    Undoes table inverse :=
  h.rightInverse_of_surjective hsurj

/-- The table of `n` entries that selects the given positions. -/
def tableOf {n : Nat} (f : Fin n → Fin n) : BitTable n n where
  entries := Vector.ofFn (fun i => (f i).val + 1)
  inRange i := by
    have := (f i).isLt
    simp only [Fin.getElem_fin, Vector.getElem_ofFn]
    omega

@[simp] theorem position_tableOf {n : Nat} (f : Fin n → Fin n) : (tableOf f).position = f := by
  funext i
  simp [BitTable.position, tableOf]

theorem exists_isInverse {n : Nat} {table : BitTable n n}
    (h : Function.Bijective table.position) : ∃ inverse, table.IsInverse inverse := by
  obtain ⟨g, hleft, -⟩ := Function.bijective_iff_has_inverse.mp h
  exact ⟨tableOf g, by simpa [BitTable.IsInverse] using hleft⟩

/-- `permute` for every table and every word: which bit goes where, that no shift leaves
the word, and what follows for exclusive or and for inverse tables. -/
theorem permute_semantics (table : BitTable inBits outBits) (hin : inBits ≤ 64)
    (hout : outBits ≤ 64) :
    (∀ x, Fits outBits (permute x table)) ∧
    (∀ x i (hi : i < outBits),
      msbBit outBits (permute x table) (i + 1) = msbBit inBits x table.entries[i]) ∧
    (∀ i (hi : i < outBits), shiftAmount inBits table.entries[i] = inBits - table.entries[i] ∧
      shiftAmount inBits table.entries[i] ≤ 63) ∧
    (∀ x y, permute (x ^^^ y) table = permute x table ^^^ permute y table) ∧
    ∀ bijection : BitTable inBits inBits, Function.Bijective bijection.position →
      (∃ inverse, bijection.IsInverse inverse) ∧
      ∀ inverse, bijection.IsInverse inverse → ∀ x, Fits inBits x →
        permute (permute x bijection) inverse = x := by
  refine ⟨fun x => fits_permute x table, ?_, ?_, fun x y => permute_xor x y table hin hout, ?_⟩
  · intro x i hi
    exact msbBit_permute x table hin hout i hi
  · intro i hi
    have hone := table.one_le i hi
    have hshift := shiftAmount_eq (table.le_inBits i hi) hin
    exact ⟨hshift, by omega⟩
  · intro bijection hbij
    refine ⟨exists_isInverse hbij, ?_⟩
    intro inverse hinverse x hx
    exact permute_permute hin (hinverse.undoes hbij.surjective) hx

end DesPermute
