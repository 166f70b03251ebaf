import DesModular.DesDiffusion
import DesModular.DesBlock
import DesModular.WordChunks
import DesModular.FixedBits

/-!
# How many subkeys a round admits

Every row of every S-box is a permutation, so each four-bit output belongs to four
chunks. With eight boxes side by side, and two permutations of bits around them, a known
step of the round leaves 2^16 of the 2^48 subkeys, whatever the step.
-/
namespace SubkeyCount

open MachineWord DesPermute DesTables DesFeistel DesBlock DesDiffusion WordChunks FixedBits

/-! ## The boxes -/

/-- What a box makes of a six-bit chunk. -/
def boxEntry (box : Fin 8) (chunk : Fin (2 ^ 6)) : Nat :=
  sboxOutput box box.isLt (BitVec.ofNat 8 chunk)

/-- The chunks of one row, by their column. -/
theorem card_boxEntry : ∀ box : Fin 8, ∀ v : Fin 16,
    (Finset.univ.filter fun chunk => boxEntry box chunk = v).card = 4 := by decide +kernel

theorem boxEntry_chunksEquiv (x : {x : U64 // Fits (8 * 6) x}) (box : Fin 8) :
    boxEntry box (chunksEquiv 6 8 (by decide) x box) =
      sboxOutput box box.isLt (sboxChunk x.1 box) := by
  have hshift : 48 - 6 - box.val * 6 = (8 - 1 - box.val) * 6 := by omega
  have hchunk : sboxChunk x.1 box = BitVec.ofNat 8 (chunkOf 6 8 x.1 box).toNat := by
    rw [BitVec.ofNat_toNat, sboxChunk, chunkOf, hshift]
    rfl
  rw [hchunk]
  rfl

theorem substitute_eq_iff (x : {x : U64 // Fits (8 * 6) x}) (z : U32) : substitute x.1 = z ↔
    ∀ box : Fin 8, boxEntry box (chunksEquiv 6 8 (by decide) x box) =
      (chunkOf 4 8 z box).toNat := by
  have hchunks : substitute x.1 = z ↔ _ :=
    accumulate_eq_iff (d := 4) (n := 8) (by decide) (fits_sboxOutput x.1) (fits_width z)
  rw [hchunks]
  constructor
  · intro h box
    have hlt := sboxOutput_lt box box.isLt (sboxChunk x.1 box)
    rw [boxEntry_chunksEquiv, ← h box box.isLt, BitVec.toNat_ofNat]
    exact (Nat.mod_eq_of_lt (by omega)).symm
  · intro h box hb
    rw [← boxEntry_chunksEquiv x ⟨box, hb⟩, h ⟨box, hb⟩, BitVec.ofNat_toNat, BitVec.setWidth_eq]

/-- The S-boxes take every 32-bit value equally often. -/
theorem card_substitute (z : U32) :
    Nat.card {x : {x : U64 // Fits (8 * 6) x} // substitute x.1 = z} = 2 ^ 16 := by
  simp only [substitute_eq_iff]
  apply card_chunks (m := 4) (by decide)
    fun box chunk => boxEntry box chunk = (chunkOf 4 8 z box).toNat
  intro box
  have hlt : (chunkOf 4 8 z box).toNat < 16 := fits_chunkOf 4 8 z box
  rw [Nat.card_eq_fintype_card, Fintype.card_subtype]
  exact card_boxEntry box ⟨_, hlt⟩

/-! ## Around the boxes -/

/-- The P permutation of a substituted word. -/
def permuteP (substituted : U32) : U32 := (permute (substituted.setWidth 64) desP).setWidth 32

theorem widen_narrow {x : U64} (h : Fits 32 x) : (x.setWidth 32).setWidth 64 = x := by
  apply BitVec.eq_of_toNat_eq
  simp only [Fits] at h
  simp only [BitVec.toNat_setWidth]
  omega

theorem permuteP_injective : Function.Injective permuteP := by
  obtain ⟨inverse, hinverse⟩ := exists_isInverse desP_bijective
  have hundoes := hinverse.undoes desP_bijective.surjective
  have hback : ∀ s : U32, permute ((permuteP s).setWidth 64) inverse = s.setWidth 64 := by
    intro s
    rw [permuteP, widen_narrow (fits_permute _ desP),
      permute_permute (by decide) hundoes (fits_widen s)]
  intro s t h
  have hwide : s.setWidth 64 = t.setWidth 64 := by
    rw [← hback s, ← hback t, h]
  have hnarrow := congrArg (BitVec.setWidth 32) hwide
  simpa using hnarrow

theorem permuteP_surjective : Function.Surjective permuteP := by
  exact Finite.injective_iff_surjective.mp permuteP_injective

/-- The expanded half block. -/
def expand (right : U32) : U64 := permute (right.setWidth 64) desE

theorem desRound_right (left right : U32) (k : U64) : (desRound left right k).right =
    left ^^^ permuteP (substitute (expand right ^^^ (k &&& subkeyMask))) := rfl

theorem and_subkeyMask {k : U64} (h : Fits 48 k) : k &&& subkeyMask = k := by
  have hmask : subkeyMask = BitVec.ofNat 64 (2 ^ 48 - 1) := by decide
  apply BitVec.eq_of_getLsbD_eq
  intro j _
  rw [BitVec.getLsbD_and, hmask, getLsbD_mask (by decide)]
  by_cases hj : j < 48
  · rw [decide_eq_true hj, Bool.and_true]
  · rw [getLsbD_of_fits h (Nat.le_of_not_lt hj), Bool.false_and]

/-- Exclusive or with a word. -/
def xorPerm (a : U64) : Equiv.Perm U64 := (xor_right_involutive a).toPerm

@[simp] theorem xorPerm_apply (a x : U64) : xorPerm a x = a ^^^ x := rfl

theorem fits_xor_iff {a x : U64} (ha : Fits 48 a) : Fits 48 (a ^^^ x) ↔ Fits 48 x := by
  constructor
  · intro h
    have hback := fits_xor ha h
    rwa [xor_cancel_left] at hback
  · exact fits_xor ha

theorem desSbox_row : ∀ box : Fin 8, ∀ row : Fin 4, ∀ v : Fin 16,
    ∃! col : Fin 16, ((desSbox.get box).get row).get col = v := by
  unfold ExistsUnique
  decide +kernel

/-- From two halves, each next right half is reached by as many subkeys. -/
theorem card_subkeys (left right next : U32) :
    Nat.card {k : U64 // Fits 48 k ∧ (desRound left right k).right = next} = 2 ^ 16 := by
  obtain ⟨z, hz⟩ := permuteP_surjective (left ^^^ next)
  have hexpand : Fits 48 (expand right) := fits_permute _ desE
  have hround : ∀ k : U64, (Fits 48 k ∧ (desRound left right k).right = next) ↔
      Fits (8 * 6) (xorPerm (expand right) k) ∧ substitute (xorPerm (expand right) k) = z := by
    intro k
    rw [xorPerm_apply, fits_xor_iff hexpand, and_congr_right_iff]
    intro hk
    rw [desRound_right, and_subkeyMask hk, ← permuteP_injective.eq_iff (b := z), hz]
    constructor
    · rintro rfl
      rw [xor_cancel_left]
    · intro h
      rw [h, xor_cancel_left]
  have hequiv := Nat.card_congr ((xorPerm (expand right)).subtypeEquiv
    (q := fun x => Fits (8 * 6) x ∧ substitute x = z) hround)
  rw [hequiv, ← card_substitute z]
  exact (Nat.card_congr (Equiv.subtypeSubtypeEquivSubtypeInter (fun x : U64 => Fits (8 * 6) x)
    fun x => substitute x = z)).symm

/-- Every S-box output belongs to one chunk of each row, and a round is balanced: from
every pair of halves, exactly 2^16 subkeys of 48 bits lead to every right half. -/
theorem subkeys_of_round :
    (∀ box : Fin 8, ∀ row : Fin 4, ∀ v : Fin 16,
      ∃! col : Fin 16, ((desSbox.get box).get row).get col = v) ∧
    ∀ left right next : U32,
      Nat.card {k : U64 // Fits 48 k ∧ (desRound left right k).right = next} = 2 ^ 16 :=
  ⟨desSbox_row, card_subkeys⟩

end SubkeyCount
