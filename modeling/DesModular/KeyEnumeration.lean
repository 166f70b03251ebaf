import DesModular.DesApi
import DesModular.Keyspace
import Mathlib.Data.Set.Function

/-!
# Key spaces enumerate the odd-parity keys

The keys that `des_check_parity` accepts are those that `des_key_with_parity`
generates, one for each value of the 56 effective bits. A prefix and a candidate
are the high and the low part of such a value.
-/
namespace KeyEnumeration

open MachineWord ByteOrder ByteMemory Keyspace
open DesApi (Size DesStatus onesInByte allOdd desCheckParity)

/-! ## The parity check -/

/-- The loop counts the ones of its byte. -/
theorem onesInByte_eq (byte : U8) :
    onesInByte byte = some ((List.range 8).countP byte.getLsbD) := by
  revert byte
  decide +kernel

/-- The number of ones of byte `i`, counted from the high end of the key. -/
def byteOnes (key : U64) (i : Nat) : Nat :=
  (List.range 8).countP fun r => key.getLsbD (8 * (7 - i) + r)

theorem oddParity_iff (key : U64) : OddParity key ↔ ∀ i < 8, byteOnes key i % 2 = 1 := by
  constructor
  · intro h i hi
    exact h (7 - i) (by omega)
  · intro h byte hbyte
    have hback : 7 - (7 - byte) = byte := by omega
    have hodd := h (7 - byte) (by omega)
    rwa [byteOnes, hback] at hodd

section Check

variable {β : Type} {m : Memory β} {bytes : Pointer β} {key : U64}
  (hbounds : m.InBounds bytes 8) (hbytes : m.bytes bytes 8 = unpack 8 key)

include hbounds hbytes

/-- The loop over the first `n` bytes ends with the parity of all of them. -/
theorem allOdd_eq {n : Nat} (hn : n ≤ 8) :
    allOdd m bytes n = some (decide (∀ i < n, byteOnes key i % 2 = 1)) := by
  induction n with
  | zero => simp [allOdd]
  | succ n ih =>
    have hload := Memory.load_eq (hbounds.add (k := n) (l := 1) hn)
    have hlt : n < (m.bytes bytes 8).length := by rwa [Memory.length_bytes]
    have hlt' : n < (unpack 8 key).length := by rwa [length_unpack]
    have hbyte : m.byte bytes.block (bytes.offset + n) = (unpack 8 key)[n] := by
      rw [← Memory.getElem_bytes m bytes 8 n hlt]
      simp only [hbytes]
    have hones : onesInByte (m.byte bytes.block (bytes.offset + n)) = some (byteOnes key n) := by
      rw [onesInByte_eq, hbyte, byteOnes]
      congr 1
      apply List.countP_congr
      intro r hr
      rw [getLsbD_unpack 8 key n hlt' (List.mem_range.mp hr)]
    rw [allOdd, ih (by omega), Option.bind_eq_bind, Option.bind_some, hload]
    by_cases hall : ∀ i < n, byteOnes key i % 2 = 1
    · have hiff : (∀ i < n + 1, byteOnes key i % 2 = 1) ↔ byteOnes key n % 2 = 1 := by
        refine ⟨fun h => h n (Nat.lt_succ_self n), fun h i hi => ?_⟩
        obtain hi | rfl := Nat.lt_succ_iff_lt_or_eq.mp hi
        · exact hall i hi
        · exact h
      have hparity : (byteOnes key n % 2 != 0) = decide (byteOnes key n % 2 = 1) := by
        obtain h | h := Nat.mod_two_eq_zero_or_one (byteOnes key n) <;> rw [h] <;> rfl
      rw [if_pos (decide_eq_true hall)]
      simp only [hiff, Option.bind_eq_bind, Option.bind_some, Pointer.add_block,
        Pointer.add_offset, hones, hparity, Option.pure_def]
    · have hnot : ¬∀ i < n + 1, byteOnes key i % 2 = 1 :=
        fun h => hall fun i hi => h i (Nat.lt_succ_of_lt hi)
      rw [decide_eq_false hall, decide_eq_false hnot]
      rfl

/-- On the eight bytes of a key the check reports its parity. -/
theorem desCheckParity_eq (isValid : Bool) :
    desCheckParity m bytes 8#64 isValid = some (.ok, decide (OddParity key)) := by
  have hguard : ¬(8#64 : Size) ≠ 8#64 := not_not.mpr rfl
  rw [desCheckParity, if_neg hguard, allOdd_eq hbounds hbytes (Nat.le_refl 8), Option.bind_eq_bind,
    Option.bind_some, decide_eq_decide.mpr (oddParity_iff key)]
  rfl

end Check

/-! ## Effective bits -/

theorem fits_effectiveBits (key : U64) : Fits 56 (effectiveBits key) :=
  fits_accumulate 7 8 _ fun _ _ => fits_and _ (by decide)

/-- The effective bits of a generated key are the bits it was generated from. -/
theorem effectiveBits_desKeyWithParity {x : U64} (hx : Fits 56 x) :
    effectiveBits (desKeyWithParity x) = x := by
  apply BitVec.eq_of_getLsbD_eq
  intro j _
  by_cases hj : j < 56
  · have hsplit : j = 7 * (j / 7) + j % 7 := by omega
    rw [hsplit, getLsbD_effectiveBits _ (by omega) (by omega),
      getLsbD_dataBit _ (by omega) (by omega)]
  · rw [getLsbD_of_fits (fits_effectiveBits _) (Nat.le_of_not_lt hj),
      getLsbD_of_fits hx (Nat.le_of_not_lt hj)]

/-- Seven bits of a byte and its parity determine the eighth. -/
theorem eq_of_agreeOffParity {x y : U64} (h : AgreeOffParity x y) (hx : OddParity x)
    (hy : OddParity y) : x = y := by
  apply BitVec.eq_of_getLsbD_eq
  intro i hi
  by_cases hparity : i % 8 = 0
  · have hbyte : i / 8 < 8 := by omega
    have hindex : 8 * (i / 8) + 0 = i := by omega
    have hdata : (List.range 7).countP (fun r => x.getLsbD (8 * (i / 8) + (r + 1))) =
        (List.range 7).countP (fun r => y.getLsbD (8 * (i / 8) + (r + 1))) := by
      apply List.countP_congr
      intro r hr
      have hlt := List.mem_range.mp hr
      rw [h _ (by omega) (by omega)]
    have hxi := hx (i / 8) hbyte
    have hyi := hy (i / 8) hbyte
    rw [List.range_succ_eq_map, List.countP_cons, List.countP_map, hindex] at hxi hyi
    simp only [Function.comp_def, Nat.succ_eq_add_one] at hxi hyi
    rw [hdata] at hxi
    cases hxb : x.getLsbD i <;> cases hyb : y.getLsbD i <;> simp [hxb, hyb] at hxi hyi ⊢ <;> omega
  · exact h i hi hparity

/-- Every odd-parity key is generated from its effective bits. -/
theorem desKeyWithParity_effectiveBits {key : U64} (h : OddParity key) :
    desKeyWithParity (effectiveBits key) = key :=
  eq_of_agreeOffParity (agreeOffParity_effectiveBits key) (oddParity_desKeyWithParity _) h

theorem oddParity_iff_generated (key : U64) :
    OddParity key ↔ ∃ x : U64, x.toNat < 2 ^ 56 ∧ desKeyWithParity x = key := by
  constructor
  · intro h
    exact ⟨effectiveBits key, fits_effectiveBits key, desKeyWithParity_effectiveBits h⟩
  · rintro ⟨x, -, rfl⟩
    exact oddParity_desKeyWithParity x

theorem desKeyWithParity_injective {x y : U64} (hx : Fits 56 x) (hy : Fits 56 y)
    (h : desKeyWithParity x = desKeyWithParity y) : x = y := by
  rw [← effectiveBits_desKeyWithParity hx, h, effectiveBits_desKeyWithParity hy]

/-! ## Prefix and candidate -/

/-- `effective` of a candidate. -/
def effective (space : DesKeyspace) (candidate : U64) : U64 :=
  (space.fixedPrefix <<< space.unknownBits) ||| (candidate &&& candidateMask space)

section Space

variable {space : DesKeyspace} (hfixed : Fits (56 - space.unknownBits) space.fixedPrefix)

theorem fits_low (space : DesKeyspace) (candidate : U64) :
    Fits space.unknownBits (candidate &&& candidateMask space) := by
  rw [Fits, toNat_and_candidateMask]
  exact Nat.mod_lt _ (Nat.two_pow_pos _)

include hfixed

theorem fits_effective (candidate : U64) : Fits 56 (effective space candidate) := by
  have hle := space.le_max
  have hbits : 56 - space.unknownBits + space.unknownBits = 56 := by omega
  have hfits := fits_shiftOr hfixed (fits_low space candidate)
  rwa [hbits] at hfits

/-- The high part is the prefix. -/
theorem effective_high (candidate : U64) :
    effective space candidate >>> space.unknownBits = space.fixedPrefix := by
  have hle := space.le_max
  apply BitVec.eq_of_getLsbD_eq
  intro j _
  rw [BitVec.getLsbD_ushiftRight]
  by_cases hj : space.unknownBits + j < 64
  · exact getLsbD_shiftOr_high (fits_low space candidate) _ hj
  · rw [BitVec.getLsbD_of_ge _ _ (Nat.le_of_not_lt hj), getLsbD_of_fits hfixed (by omega)]

omit hfixed in
/-- The low part is the candidate modulo the size of the space. -/
theorem effective_low (space : DesKeyspace) (candidate : U64) :
    (effective space candidate &&& candidateMask space).toNat =
      candidate.toNat % 2 ^ space.unknownBits := by
  have hle := space.le_max
  have hlow : effective space candidate &&& candidateMask space =
      candidate &&& candidateMask space := by
    apply BitVec.eq_of_getLsbD_eq
    intro j _
    have hmask := getLsbD_mask (w := 64) (Nat.le_trans hle (by decide)) j
    rw [← candidateMask_eq] at hmask
    by_cases hj : j < space.unknownBits
    · rw [BitVec.getLsbD_and, effective, getLsbD_shiftOr_low _ _ hj, BitVec.getLsbD_and,
        Bool.and_assoc, Bool.and_self]
    · rw [BitVec.getLsbD_and, BitVec.getLsbD_and, hmask, decide_eq_false hj, Bool.and_false,
        Bool.and_false]
  rw [hlow, toNat_and_candidateMask]

end Space

/-- Two spaces of one width share a key only if they have the same prefix, and then only
for the same low bits. -/
theorem desKeyspaceKey_injective (space space' : DesKeyspace) {c c' : U64}
    (hwidth : space.unknownBits = space'.unknownBits)
    (hfixed : Fits (56 - space.unknownBits) space.fixedPrefix)
    (hfixed' : Fits (56 - space'.unknownBits) space'.fixedPrefix)
    (h : desKeyspaceKey space c = desKeyspaceKey space' c') :
    space.fixedPrefix = space'.fixedPrefix ∧
      c.toNat % 2 ^ space.unknownBits = c'.toNat % 2 ^ space.unknownBits := by
  have heffective : effective space c = effective space' c' :=
    desKeyWithParity_injective (fits_effective hfixed c) (fits_effective hfixed' c') h
  have hmask : candidateMask space = candidateMask space' := by
    rw [candidateMask, hwidth, candidateMask]
  constructor
  · rw [← effective_high hfixed c, ← effective_high hfixed' c', heffective, hwidth]
  · rw [← effective_low space c, heffective, hmask, effective_low space' c', hwidth]

/-! ## The decoy space -/

/-- `outside` of `unmatchable_ciphertext`: the same width, another prefix. -/
def outside (space : DesKeyspace) : DesKeyspace :=
  { space with fixedPrefix := space.fixedPrefix ^^^ 1#64 }

theorem fits_outside {space : DesKeyspace}
    (hfixed : Fits (56 - space.unknownBits) space.fixedPrefix) :
    Fits (56 - (outside space).unknownBits) (outside space).fixedPrefix := by
  have hle := space.le_max
  have hone : Fits 1 1#64 := by decide
  have hwidth : 1 ≤ 56 - space.unknownBits := by omega
  exact fits_xor hfixed (hone.mono hwidth)

theorem outside_prefix_ne (space : DesKeyspace) :
    space.fixedPrefix ≠ (outside space).fixedPrefix := by
  intro h
  have hbit := congrArg (BitVec.getLsbD · 0) h
  simp [outside] at hbit

/-! ## The enumeration -/

/-- `des_keyspace_key({n, prefix}, candidate)` as a map of pairs. -/
def pairKey (n : Nat) (hn : 1 ≤ n ∧ n ≤ 32) (p : U64 × U64) : U64 :=
  desKeyspaceKey (keyspaceWith n hn p.1) p.2

/-- The prefix and the candidate that a key comes from. -/
def keyPair (n : Nat) (hn : 1 ≤ n ∧ n ≤ 32) (key : U64) : U64 × U64 :=
  ((keyspaceOf key n hn).fixedPrefix, effectiveBits key &&& candidateMask (keyspaceOf key n hn))

theorem keyPair_mem (n : Nat) (hn : 1 ≤ n ∧ n ≤ 32) (key : U64) :
    (keyPair n hn key).1.toNat < 2 ^ (56 - n) ∧ (keyPair n hn key).2.toNat < 2 ^ n := by
  refine ⟨?_, fits_low (keyspaceOf key n hn) _⟩
  rw [← Fits, fits_iff]
  intro j hj
  rw [keyPair, keyspaceOf, BitVec.getLsbD_ushiftRight]
  exact getLsbD_of_fits (fits_effectiveBits key) (by omega)

theorem pairKey_keyPair (n : Nat) (hn : 1 ≤ n ∧ n ≤ 32) {key : U64} (h : OddParity key) :
    pairKey n hn (keyPair n hn key) = key := by
  have hplanted := desKeyspaceKey_planted key n hn
    (toNat_and_candidateMask (keyspaceOf key n hn) (effectiveBits key))
  rw [desKeyWithParity_effectiveBits h] at hplanted
  exact hplanted

theorem pairKey_injective (n : Nat) (hn : 1 ≤ n ∧ n ≤ 32) {p p' c c' : U64}
    (hp : p.toNat < 2 ^ (56 - n)) (hp' : p'.toNat < 2 ^ (56 - n))
    (h : pairKey n hn (p, c) = pairKey n hn (p', c')) :
    p = p' ∧ c.toNat % 2 ^ n = c'.toNat % 2 ^ n :=
  desKeyspaceKey_injective (keyspaceWith n hn p) (keyspaceWith n hn p') rfl hp hp' h

/-- Below the bounds of prefix and candidate, every odd-parity key is met exactly once. -/
theorem pairKey_bijOn (n : Nat) (hn : 1 ≤ n ∧ n ≤ 32) :
    Set.BijOn (pairKey n hn) {p | p.1.toNat < 2 ^ (56 - n) ∧ p.2.toNat < 2 ^ n}
      {key | OddParity key} := by
  refine ⟨fun p _ => oddParity_desKeyWithParity _, ?_, ?_⟩
  · rintro ⟨p, c⟩ ⟨hp, hc⟩ ⟨p', c'⟩ ⟨hp', hc'⟩ h
    obtain ⟨hfixed, hlow⟩ := pairKey_injective n hn hp hp' h
    have hcandidate : c = c' := by
      apply BitVec.eq_of_toNat_eq
      rwa [Nat.mod_eq_of_lt hc, Nat.mod_eq_of_lt hc'] at hlow
    exact Prod.ext hfixed hcandidate
  · intro key hkey
    exact ⟨keyPair n hn key, keyPair_mem n hn key, pairKey_keyPair n hn hkey⟩

/-- The check accepts what the generator produces, key spaces enumerate it, and spaces of
one width with different prefixes have no key in common. -/
theorem keyspace_enumeration {β : Type} (m : Memory β) (bytes : Pointer β) (key : U64)
    (isValid : Bool) (hbounds : m.InBounds bytes 8) (hbytes : m.bytes bytes 8 = unpack 8 key)
    (n : Nat) (hn : 1 ≤ n ∧ n ≤ 32) :
    (∃ valid, desCheckParity m bytes 8#64 isValid = some (.ok, valid) ∧
      (valid = true ↔ ∃ x : U64, x.toNat < 2 ^ 56 ∧ desKeyWithParity x = key) ∧
      ∀ x y : U64, x.toNat < 2 ^ 56 → y.toNat < 2 ^ 56 → desKeyWithParity x = key →
        desKeyWithParity y = key → x = y) ∧
    Set.BijOn (pairKey n hn) {p | p.1.toNat < 2 ^ (56 - n) ∧ p.2.toNat < 2 ^ n}
      {key | OddParity key} ∧
    (∀ fixedPrefix c c' : U64, c.toNat % 2 ^ n = c'.toNat % 2 ^ n →
      pairKey n hn (fixedPrefix, c) = pairKey n hn (fixedPrefix, c')) ∧
    (∀ fixedPrefix fixedPrefix' c c' : U64, fixedPrefix.toNat < 2 ^ (56 - n) →
      fixedPrefix'.toNat < 2 ^ (56 - n) →
      pairKey n hn (fixedPrefix, c) = pairKey n hn (fixedPrefix', c') →
        fixedPrefix = fixedPrefix' ∧ c.toNat % 2 ^ n = c'.toNat % 2 ^ n) ∧
    ∀ space : DesKeyspace, space.fixedPrefix.toNat < 2 ^ (56 - space.unknownBits) →
      ∀ c c', desKeyspaceKey space c ≠ desKeyspaceKey (outside space) c' := by
  refine ⟨⟨_, desCheckParity_eq hbounds hbytes isValid, ?_, ?_⟩, pairKey_bijOn n hn, ?_, ?_, ?_⟩
  · rw [decide_eq_true_iff]
    exact oddParity_iff_generated key
  · intro x y hx hy hxkey hykey
    exact desKeyWithParity_injective hx hy (hxkey.trans hykey.symm)
  · intro fixedPrefix c c' h
    exact desKeyspaceKey_mod (keyspaceWith n hn fixedPrefix) h
  · intro fixedPrefix fixedPrefix' c c' hp hp' h
    exact pairKey_injective n hn hp hp' h
  · intro space hfixed c c' h
    exact outside_prefix_ne space
      (desKeyspaceKey_injective space (outside space) rfl hfixed (fits_outside hfixed) h).1

/-- The eight bytes of the key `0x0101010101010101`, which has odd parity. -/
theorem keyspace_enumeration_weak_key :
    let m : Memory Unit := ⟨fun _ => 8, fun _ _ => 1#8⟩
    ∃ valid, desCheckParity m ⟨(), 0⟩ 8#64 false = some (.ok, valid) ∧
      (valid = true ↔ ∃ x : U64, x.toNat < 2 ^ 56 ∧
        desKeyWithParity x = 0x0101010101010101#64) := by
  intro m
  obtain ⟨⟨valid, hcheck, hvalid, -⟩, -⟩ := keyspace_enumeration m ⟨(), 0⟩
    0x0101010101010101#64 false (by decide) (by decide) 12 (by decide)
  exact ⟨valid, hcheck, hvalid⟩

end KeyEnumeration
