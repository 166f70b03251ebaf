import DesModular.BitDistance
import DesModular.DesFeistel

/-!
# Diffusion of one bit

What one flipped bit of a half block does to the round function. The expansion carries
the bit to one box or to two, a box that sees one changed bit changes two of its four
outputs, and the last permutation only moves them.
-/
namespace DesDiffusion

open MachineWord DesPermute DesTables DesFeistel BitDistance

theorem desP_bijective : Function.Bijective desP.position := by
  have hinjective : Function.Injective desP.position := by decide +kernel
  exact Finite.injective_iff_bijective.mp hinjective

/-- Moving the bits around keeps the distance. -/
theorem bitDistance_permute {n : Nat} {table : BitTable n n} (hn : n ≤ 64)
    (h : Function.Bijective table.position) (x y : U64) :
    bitDistance n (permute x table) (permute y table) = bitDistance n x y := by
  have hbit : ∀ (z : U64) (i : Fin n), msbBit n (permute z table) (i + 1) =
      msbBit n z ((Equiv.ofBijective table.position h i).val + 1) := by
    intro z i
    rw [msbBit_permute z table hn hn i i.isLt, Equiv.ofBijective_apply, table.position_succ i]
    rfl
  simp only [bitDistance, hbit]
  exact hammingDist_comp_equiv (Equiv.ofBijective table.position h)
    (fun i => msbBit n x (i + 1)) (fun i => msbBit n y (i + 1))

/-! ## Boxes that see the bit -/

/-- The word of bit `p` alone, bits numbered from 1 at the most significant end. -/
def flippedBit (p : Nat) : U32 := 1#32 <<< (32 - p)

/-- What the bit changes in the chunk of a box. -/
def flippedChunk (p box : Nat) : U8 := sboxChunk (permute ((flippedBit p).setWidth 64) desE) box

/-- The boxes that see one changed bit in their chunk. -/
def activeBoxes (p : Nat) : Finset (Fin 8) :=
  Finset.univ.filter (fun box => ∃ r : Fin 6, flippedChunk p box = 1#8 <<< r.val)

/-- The bits numbered `4k` and `4k + 1` reach two boxes, the others one. -/
theorem card_activeBoxes : ∀ p : Fin 32, (activeBoxes (p + 1)).card =
    if (p.val + 1) % 4 = 0 ∨ (p.val + 1) % 4 = 1 then 2 else 1 := by decide +kernel

/-- They are the bits that the expansion writes twice. -/
theorem count_desE : ∀ p : Fin 32, desE.entries.toList.count (p.val + 1) =
    if (p.val + 1) % 4 = 0 ∨ (p.val + 1) % 4 = 1 then 2 else 1 := by decide +kernel

theorem sboxChunk_xor (x y : U64) (box : Nat) :
    sboxChunk (x ^^^ y) box = sboxChunk x box ^^^ sboxChunk y box := by
  apply BitVec.eq_of_getLsbD_eq
  intro j hj
  simp [sboxChunk, hj, Bool.and_xor_distrib_right]

/-- The chunks before and after the flip, under any round key. -/
theorem sboxChunk_flipped (r : U32) (k : U64) (p box : Nat) :
    sboxChunk (permute ((r ^^^ flippedBit p).setWidth 64) desE ^^^ k) box =
      sboxChunk (permute (r.setWidth 64) desE ^^^ k) box ^^^ flippedChunk p box := by
  have hwide : (r ^^^ flippedBit p).setWidth 64 =
      r.setWidth 64 ^^^ (flippedBit p).setWidth 64 := by simp
  rw [hwide, permute_xor _ _ desE (by decide) (by decide), sboxChunk_xor, sboxChunk_xor,
    sboxChunk_xor, flippedChunk, BitVec.xor_assoc, BitVec.xor_assoc,
    BitVec.xor_comm (sboxChunk k box)]

/-! ## One box -/

/-- An S-box entry by its place, with zeros around the tables. -/
def sboxEntry (box row col : Nat) : Nat :=
  ((desSbox.toList.getD box (Vector.replicate 4 (Vector.replicate 16 0))).toList.getD row
    (Vector.replicate 16 0)).toList.getD col 0

theorem sboxOutput_eq_entry (box : Nat) (hb : box < 8) (chunk : U8) :
    sboxOutput box hb chunk = sboxEntry box (sboxRow chunk) (sboxCol chunk) := by
  have hrow := sboxRow_lt chunk
  have hcol := sboxCol_lt chunk
  simp [sboxOutput, sboxEntry, hb, hrow, hcol]

/-- What a flipped bit of the chunk does to the row, and what to the column. -/
def flippedRow (r : Nat) : Nat := if r = 0 then 1 else if r = 5 then 2 else 0

def flippedCol (r : Nat) : Nat := if r = 0 ∨ r = 5 then 0 else 1 <<< (r - 1)

theorem sbox_place_flipped : ∀ chunk : U8, ∀ r < 6,
    sboxRow (chunk ^^^ (1#8 <<< r)) = sboxRow chunk ^^^ flippedRow r ∧
      sboxCol (chunk ^^^ (1#8 <<< r)) = sboxCol chunk ^^^ flippedCol r := by decide +kernel

/-- The number of ones in four bits. -/
def nibbleWeight (x : Nat) : Nat := x % 2 + x / 2 % 2 + x / 4 % 2 + x / 8 % 2

theorem bitDistance_nibble : ∀ a < 16, ∀ b < 16,
    bitDistance 4 (BitVec.ofNat 32 a) (BitVec.ofNat 32 b) = nibbleWeight (a ^^^ b) := by
  decide +kernel

/-- Every S-box: one step along a row or a column changes at least two of the four bits
of the entry. -/
theorem sboxEntry_flipped : ∀ box < 8, ∀ row < 4, ∀ col < 16, ∀ r < 6,
    2 ≤ nibbleWeight (sboxEntry box row col ^^^
      sboxEntry box (row ^^^ flippedRow r) (col ^^^ flippedCol r)) := by decide +kernel

theorem sboxOutput_flipped (box : Nat) (hb : box < 8) (chunk : U8) {r : Nat} (hr : r < 6) :
    2 ≤ bitDistance 4 (BitVec.ofNat 32 (sboxOutput box hb chunk))
      (BitVec.ofNat 32 (sboxOutput box hb (chunk ^^^ (1#8 <<< r)))) := by
  obtain ⟨hrow, hcol⟩ := sbox_place_flipped chunk r hr
  rw [bitDistance_nibble _ (sboxOutput_lt box hb _) _ (sboxOutput_lt box hb _),
    sboxOutput_eq_entry, sboxOutput_eq_entry, hrow, hcol]
  exact sboxEntry_flipped box hb _ (sboxRow_lt chunk) _ (sboxCol_lt chunk) r hr

/-! ## The round function -/

theorem bitDistance_substitute (x y : U64) : bitDistance 32 (substitute x) (substitute y) =
    ∑ box : Fin 8, bitDistance 4 (BitVec.ofNat 32 (sboxOutput box box.isLt (sboxChunk x box)))
      (BitVec.ofNat 32 (sboxOutput box box.isLt (sboxChunk y box))) :=
  bitDistance_accumulate (n := 8) (fits_sboxOutput x) (fits_sboxOutput y) (by decide)

/-- The boxes that see the bit each change two output bits. -/
theorem two_mul_activeBoxes_le (r : U32) (k : U64) (p : Nat) : 2 * (activeBoxes p).card ≤
    bitDistance 32 (desFeistelF r k) (desFeistelF (r ^^^ flippedBit p) k) := by
  simp only [desFeistelF]
  rw [bitDistance_setWidth _ _ (by decide), bitDistance_permute (by decide) desP_bijective,
    bitDistance_setWidth _ _ (by decide), bitDistance_substitute]
  simp only [sboxChunk_flipped]
  have hactive : ∀ box ∈ activeBoxes p, 2 ≤
      bitDistance 4
        (BitVec.ofNat 32 (sboxOutput box box.isLt
          (sboxChunk (permute (r.setWidth 64) desE ^^^ (k &&& subkeyMask)) box)))
        (BitVec.ofNat 32 (sboxOutput box box.isLt
          (sboxChunk (permute (r.setWidth 64) desE ^^^ (k &&& subkeyMask)) box ^^^
            flippedChunk p box))) := by
    intro box hbox
    obtain ⟨bit, hbit⟩ := (Finset.mem_filter.mp hbox).2
    rw [hbit]
    exact sboxOutput_flipped box box.isLt _ bit.isLt
  have hsum := Finset.card_nsmul_le_sum (activeBoxes p) _ 2 hactive
  rw [Nat.mul_comm, ← smul_eq_mul]
  exact hsum.trans (Finset.sum_le_sum_of_subset (Finset.subset_univ _))

/-- In how many bits two pairs of half blocks differ. -/
def pairDistance (a b : DesHalfPair) : Nat :=
  bitDistance 32 a.left b.left + bitDistance 32 a.right b.right

theorem bitDistance_flippedBit : ∀ p : Fin 32,
    bitDistance 32 0#32 (flippedBit (p + 1)) = 1 := by decide +kernel

/-- One flipped bit of the right half, numbered `p`, changes at least two bits of the
round function, four where the expansion doubles the bit, and three bits of the pair
that the round returns. -/
theorem one_bit_diffusion (r : U32) (k : U64) {p : Nat} (h1 : 1 ≤ p) (hp : p ≤ 32) :
    2 ≤ bitDistance 32 (desFeistelF r k) (desFeistelF (r ^^^ flippedBit p) k) ∧
    (desE.entries.toList.count p = 2 ↔ p % 4 = 0 ∨ p % 4 = 1) ∧
    (desE.entries.toList.count p = 2 →
      4 ≤ bitDistance 32 (desFeistelF r k) (desFeistelF (r ^^^ flippedBit p) k)) ∧
    ∀ left, 3 ≤ pairDistance (desRound left r k) (desRound left (r ^^^ flippedBit p) k) := by
  obtain ⟨i, rfl⟩ : ∃ i : Fin 32, p = i + 1 := ⟨⟨p - 1, by omega⟩, by simp only; omega⟩
  have hboxes := two_mul_activeBoxes_le r k (i + 1)
  have hcard := card_activeBoxes i
  have hcount := count_desE i
  have htwo : 2 ≤ bitDistance 32 (desFeistelF r k)
      (desFeistelF (r ^^^ flippedBit (i + 1)) k) := by
    split at hcard <;> omega
  refine ⟨htwo, ?_, ?_, ?_⟩
  · split at hcount <;> simp_all
  · intro htwice
    split at hcard
    · omega
    · simp_all
  · intro left
    have hright : bitDistance 32 r (r ^^^ flippedBit (i + 1)) = 1 := by
      have h := bitDistance_xor_left 32 r 0#32 (flippedBit (i + 1))
      rwa [BitVec.xor_zero, bitDistance_flippedBit] at h
    simp only [pairDistance, desRound, bitDistance_xor_left, hright]
    omega

/-- Bit 1 is doubled, bit 2 is not. -/
theorem one_bit_diffusion_first :
    4 ≤ bitDistance 32 (desFeistelF 0#32 0#64) (desFeistelF (0#32 ^^^ flippedBit 1) 0#64) ∧
      3 ≤ pairDistance (desRound 0#32 0#32 0#64) (desRound 0#32 (0#32 ^^^ flippedBit 2) 0#64) := by
  obtain ⟨-, hiff, hfour, -⟩ := one_bit_diffusion 0#32 0#64 (p := 1) (by decide) (by decide)
  obtain ⟨-, -, -, hround⟩ := one_bit_diffusion 0#32 0#64 (p := 2) (by decide) (by decide)
  exact ⟨hfour (hiff.mpr (.inr rfl)), hround 0#32⟩

end DesDiffusion
