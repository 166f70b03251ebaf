import DesModular.DesRounds
import DesModular.SubkeyCount
import Mathlib.Tactic.IntervalCases

/-!
# Differences through the rounds

Two blocks under the same subkeys, and the S-boxes that get different inputs. The round
function can only hide a difference that reaches three boxes, so that a difference of
blocks cannot pass through three rounds in one box.
-/
namespace DesDifferences

open MachineWord DesPermute DesTables DesFeistel DesBlock DesDiffusion DesRounds SubkeyCount
open FeistelNetwork WordChunks

/-- The chunk that a box gets in a round. -/
def boxInput (right : U32) (roundKey : U64) (box : Nat) : U8 :=
  sboxChunk (expand right ^^^ (roundKey &&& subkeyMask)) box

/-- The boxes with different chunks. -/
def differing (right right' : U32) (roundKey : U64) : Finset (Fin 8) :=
  Finset.univ.filter (fun box => boxInput right roundKey box ≠ boxInput right' roundKey box)

/-! ## Chunks of a difference -/

/-- What a difference of half blocks changes in the chunk of a box. -/
def chunkDifference (d : U32) (box : Nat) : U8 := sboxChunk (expand d) box

theorem expand_xor (r r' : U32) : expand (r ^^^ r') = expand r ^^^ expand r' := by
  have hwide : (r ^^^ r').setWidth 64 = r.setWidth 64 ^^^ r'.setWidth 64 := by simp
  rw [expand, hwide, permute_xor _ _ desE (by decide) (by decide)]
  rfl

theorem boxInput_xor (r r' : U32) (k : U64) (box : Nat) :
    boxInput r' k box = boxInput r k box ^^^ chunkDifference (r ^^^ r') box := by
  have hchange : expand r' ^^^ (k &&& subkeyMask) =
      (expand r ^^^ (k &&& subkeyMask)) ^^^ (expand r ^^^ expand r') := by
    rw [BitVec.xor_comm (expand r), BitVec.xor_assoc, xor_cancel_left, BitVec.xor_comm]
  rw [boxInput, boxInput, chunkDifference, ← sboxChunk_xor, expand_xor, hchange]

theorem mem_differing {r r' : U32} {k : U64} {box : Fin 8} :
    box ∈ differing r r' k ↔ chunkDifference (r ^^^ r') box ≠ 0#8 := by
  rw [differing, Finset.mem_filter, boxInput_xor r r' k]
  simp only [Finset.mem_univ, true_and, ne_eq]
  constructor
  · intro h hzero
    rw [hzero, BitVec.xor_zero] at h
    exact h rfl
  · intro h hsame
    exact h (xor_left_eq_self_iff.mp hsame.symm)

/-- The place, counted from 0, that the expansion puts into a box. -/
def place (box t : Nat) : Nat := (4 * box + t + 31) % 32

theorem desE_entries : ∀ box : Fin 8, ∀ t : Fin 6,
    desE.entries.toList.getD (6 * box + t) 0 = place box t + 1 := by decide +kernel

theorem getLsbD_chunkMask : ∀ t < 6, (0x3F#64).getLsbD (5 - t) = true := by decide

theorem getLsbD_sboxChunk (x : U64) {box t : Nat} (hbox : box < 8) (ht : t < 6) :
    (sboxChunk x box).getLsbD (5 - t) = msbBit 48 x (6 * box + t + 1) := by
  have hplace : 48 - 6 - box * 6 + (5 - t) = 48 - (6 * box + t + 1) := by omega
  rw [sboxChunk, BitVec.getLsbD_setWidth, BitVec.getLsbD_and, getLsbD_chunkMask t ht,
    BitVec.getLsbD_ushiftRight, hplace, msbBit, Bool.and_true, decide_eq_true (by omega),
    Bool.true_and]

/-- Box `box` reads the places from the one before its own four to the one after them. -/
theorem getLsbD_chunkDifference (d : U32) {box t : Nat} (hbox : box < 8) (ht : t < 6) :
    (chunkDifference d box).getLsbD (5 - t) = msbBit 32 d (place box t + 1) := by
  have hlt : 6 * box + t < 48 := by omega
  have hentry : desE.entries[6 * box + t] = place box t + 1 := by
    have h := desE_entries ⟨box, hbox⟩ ⟨t, ht⟩
    simpa [hlt] using h
  have hwide : 32 - (place box t + 1) < 64 := by omega
  rw [chunkDifference, getLsbD_sboxChunk _ hbox ht, expand,
    msbBit_permute _ desE (by decide) (by decide) _ hlt, hentry, msbBit, msbBit,
    BitVec.getLsbD_setWidth, decide_eq_true hwide, Bool.true_and]

theorem fits_chunkDifference (d : U32) (box : Nat) : Fits 6 (chunkDifference d box) := by
  have hmasked : chunkDifference d box = chunkDifference d box &&& 0x3F#8 := by
    simp only [chunkDifference, sboxChunk, BitVec.setWidth_and]
    rw [BitVec.and_assoc]
    rfl
  rw [hmasked]
  exact fits_and _ (by decide)

theorem place_overlap : ∀ box : Fin 8, ∀ j < 2,
    place (box + 1 : Fin 8) (1 - j) = place box (5 - j) := by decide

/-- Neighbouring boxes share two places. -/
theorem chunkDifference_overlap (d : U32) (box : Fin 8) :
    chunkDifference d (box + 1 : Fin 8) >>> 4 = chunkDifference d box &&& 3#8 := by
  apply BitVec.eq_of_getLsbD_eq
  intro j _
  rw [BitVec.getLsbD_ushiftRight, BitVec.getLsbD_and]
  by_cases hj : j < 2
  · have hfirst := getLsbD_chunkDifference d (box + 1 : Fin 8).isLt (t := 1 - j) (by omega)
    have hsecond := getLsbD_chunkDifference d box.isLt (t := 5 - j) (by omega)
    have hindex : 5 - (1 - j) = 4 + j := by omega
    have hindex' : 5 - (5 - j) = j := by omega
    rw [hindex, place_overlap box j hj] at hfirst
    rw [hindex'] at hsecond
    have hmask : ∀ j < 2, (3#8).getLsbD j = true := by decide
    rw [hfirst, hsecond, hmask j hj, Bool.and_true]
  · have hmask : (BitVec.ofNat 8 (2 ^ 2 - 1)).getLsbD j = decide (j < 2) :=
      getLsbD_mask (by decide) j
    rw [decide_eq_false hj] at hmask
    have hzero := getLsbD_of_fits (fits_chunkDifference d (box + 1 : Fin 8)) (j := 4 + j)
      (by omega)
    rw [hzero, show 3#8 = BitVec.ofNat 8 (2 ^ 2 - 1) from rfl, hmask, Bool.and_false]

/-- A difference reaches some box. -/
theorem exists_chunkDifference {d : U32} (h : d ≠ 0#32) :
    ∃ box : Fin 8, chunkDifference d box ≠ 0#8 := by
  by_contra hnone
  push Not at hnone
  apply h
  apply eq_of_msbBit (fits_width d) (fits_width 0#32)
  intro p hp
  have hplace : place (p / 4) (p % 4 + 1) = p := by
    rw [place]
    omega
  have hbox : p / 4 < 8 := by omega
  have hbit := getLsbD_chunkDifference d hbox (t := p % 4 + 1) (by omega)
  rw [hnone ⟨p / 4, hbox⟩, hplace] at hbit
  rw [← hbit]
  simp [msbBit]

/-! ## Differences that a box cannot hide -/

theorem sboxRow_xor (x y : U8) : sboxRow (x ^^^ y) = sboxRow x ^^^ sboxRow y := by
  simp only [sboxRow, ← BitVec.toNat_xor]
  congr 1
  apply BitVec.eq_of_getLsbD_eq
  intro j hj
  interval_cases j <;> simp

theorem sboxCol_xor (x y : U8) : sboxCol (x ^^^ y) = sboxCol x ^^^ sboxCol y := by
  simp only [sboxCol, ← BitVec.toNat_xor]
  congr 1
  apply BitVec.eq_of_getLsbD_eq
  intro j hj
  interval_cases j <;> simp

/-- A change that stays in the row, or one that changes the first two of the six bits,
perhaps the next two, and no other. -/
def Visible (δ : U8) : Prop :=
  sboxRow δ = 0 ∧ sboxCol δ ≠ 0 ∨ sboxRow δ = 2 ∧ ∃ e < 4, sboxCol δ = 8 + 2 * e

instance (δ : U8) : Decidable (Visible δ) := inferInstanceAs (Decidable (_ ∨ _))

theorem sboxEntry_visible : ∀ box < 8, ∀ row < 4, ∀ col < 16, ∀ e < 4,
    sboxEntry box row col ≠ sboxEntry box (row ^^^ 2) (col ^^^ (8 + 2 * e)) := by decide +kernel

theorem sboxOutput_get {box : Nat} (hb : box < 8) (c : U8) : sboxOutput box hb c =
    ((desSbox.get ⟨box, hb⟩).get ⟨sboxRow c, sboxRow_lt c⟩).get ⟨sboxCol c, sboxCol_lt c⟩ := rfl

/-- Along a row, equal outputs come from equal columns. -/
theorem sboxCol_eq_of_output {box : Nat} (hb : box < 8) {c c' : U8} (hrow : sboxRow c = sboxRow c')
    (h : sboxOutput box hb c = sboxOutput box hb c') : sboxCol c = sboxCol c' := by
  have hrows : (⟨sboxRow c, sboxRow_lt c⟩ : Fin 4) = ⟨sboxRow c', sboxRow_lt c'⟩ := Fin.ext hrow
  have hother : ((desSbox.get ⟨box, hb⟩).get ⟨sboxRow c, sboxRow_lt c⟩).get
      ⟨sboxCol c', sboxCol_lt c'⟩ = sboxOutput box hb c := by
    rw [hrows, ← sboxOutput_get hb c', h]
  have hunique := desSbox_row ⟨box, hb⟩ ⟨sboxRow c, sboxRow_lt c⟩
    ⟨sboxOutput box hb c, sboxOutput_lt box hb c⟩
  exact Fin.mk.inj (hunique.unique (sboxOutput_get hb c).symm hother)

/-- No box gives the same output for chunks with a visible difference. -/
theorem sboxOutput_visible {box : Nat} (hb : box < 8) (c : U8) {δ : U8} (h : Visible δ) :
    sboxOutput box hb c ≠ sboxOutput box hb (c ^^^ δ) := by
  obtain ⟨hsame, hne⟩ | ⟨htwo, e, he, hcols⟩ := h
  · intro hequal
    have hrow : sboxRow c = sboxRow (c ^^^ δ) := by rw [sboxRow_xor, hsame, Nat.xor_zero]
    have hcol := sboxCol_eq_of_output hb hrow hequal
    rw [sboxCol_xor] at hcol
    have hzero := congrArg (sboxCol c ^^^ ·) hcol
    simp only [Nat.xor_self, ← Nat.xor_assoc, Nat.zero_xor] at hzero
    exact hne hzero.symm
  · rw [sboxOutput_eq_entry, sboxOutput_eq_entry, sboxRow_xor, sboxCol_xor, htwo, hcols]
    exact sboxEntry_visible box hb _ (sboxRow_lt c) _ (sboxCol_lt c) e he

theorem last_bit_of_first : ∀ δ : U8, Fits 6 δ → δ >>> 4 = 0#8 → δ ≠ 0#8 → ¬Visible δ →
    (δ &&& 3#8) &&& 1#8 = 1#8 := by decide +kernel

theorem last_bits_of_second : ∀ δ : U8, Fits 6 δ → (δ >>> 4) &&& 1#8 = 1#8 → ¬Visible δ →
    δ &&& 3#8 ≠ 0#8 := by decide +kernel

/-- A difference without a visible chunk reaches three boxes in a row. -/
theorem three_le_of_hidden {d : U32} (hd : d ≠ 0#32)
    (hidden : ∀ box : Fin 8, ¬Visible (chunkDifference d box)) :
    3 ≤ (Finset.univ.filter (fun box : Fin 8 => chunkDifference d box ≠ 0#8)).card := by
  obtain ⟨some, hsome⟩ := exists_chunkDifference hd
  by_cases hall : ∀ box : Fin 8, chunkDifference d box ≠ 0#8
  · rw [Finset.filter_true_of_mem fun box _ => hall box]
    decide
  push Not at hall
  obtain ⟨none, hnone⟩ := hall
  -- the first box of a run of boxes with a difference
  obtain ⟨before, hzero, hfirst⟩ : ∃ box : Fin 8, chunkDifference d box = 0#8 ∧
      chunkDifference d (box + 1 : Fin 8) ≠ 0#8 := by
    by_contra hnot
    push Not at hnot
    have hzeros : ∀ n : Nat, ∀ box : Fin 8, box.val = (none.val + n) % 8 →
        chunkDifference d box = 0#8 := by
      intro n
      induction n with
      | zero =>
        intro box hbox
        have hsame : box = none := Fin.ext (by omega)
        rw [hsame, hnone]
      | succ n ih =>
        intro box hbox
        have hlast := hnot (box - 1) (ih _ (by simp [Fin.sub_def]; omega))
        rwa [sub_add_cancel] at hlast
    exact hsome (hzeros (some.val + 8 - none.val) some (by omega))
  have hsecond := chunkDifference_overlap d (before + 1)
  have hthird := chunkDifference_overlap d (before + 1 + 1)
  have hstart := chunkDifference_overlap d before
  rw [hzero] at hstart
  have hlast := last_bit_of_first _ (fits_chunkDifference d _) hstart hfirst (hidden _)
  rw [← hsecond] at hlast
  have hlasts := last_bits_of_second _ (fits_chunkDifference d _) hlast (hidden _)
  rw [← hthird] at hlasts
  have hmiddle : chunkDifference d (before + 1 + 1 : Fin 8) ≠ 0#8 := by
    intro hnot
    rw [hnot] at hlast
    exact absurd hlast (by decide)
  have hend : chunkDifference d (before + 1 + 1 + 1 : Fin 8) ≠ 0#8 := by
    intro hnot
    rw [hnot] at hlasts
    exact hlasts rfl
  have hthree : ∀ b : Fin 8, ({b + 1, b + 1 + 1, b + 1 + 1 + 1} : Finset (Fin 8)).card = 3 := by
    decide
  rw [← hthree before]
  apply Finset.card_le_card
  intro box hbox
  simp only [Finset.mem_insert, Finset.mem_singleton] at hbox
  rw [Finset.mem_filter]
  obtain rfl | rfl | rfl := hbox
  · exact ⟨Finset.mem_univ _, hfirst⟩
  · exact ⟨Finset.mem_univ _, hmiddle⟩
  · exact ⟨Finset.mem_univ _, hend⟩

/-! ## Rounds -/

theorem differing_eq (r r' : U32) (k : U64) : differing r r' k =
    Finset.univ.filter (fun box : Fin 8 => chunkDifference (r ^^^ r') box ≠ 0#8) := by
  ext box
  rw [mem_differing, Finset.mem_filter]
  simp only [Finset.mem_univ, true_and]

theorem one_le_card_differing {r r' : U32} (h : r ≠ r') (k : U64) :
    1 ≤ (differing r r' k).card := by
  obtain ⟨box, hbox⟩ := exists_chunkDifference (mt BitVec.xor_eq_zero_iff.mp h)
  exact Finset.card_pos.mpr ⟨box, mem_differing.mpr hbox⟩

/-- Half blocks that the round function cannot tell apart differ in three boxes. -/
theorem three_le_card_differing {r r' : U32} {k : U64} (h : r ≠ r')
    (hequal : desFeistelF r k = desFeistelF r' k) : 3 ≤ (differing r r' k).card := by
  have hsubstitute := permuteP_injective hequal
  rw [differing_eq]
  apply three_le_of_hidden (mt BitVec.xor_eq_zero_iff.mp h)
  intro box hvisible
  apply sboxOutput_visible box.isLt (boxInput r k box) hvisible
  rw [← boxInput_xor]
  have hchunk : ∀ x : U64, chunkOf 4 8 (substitute x) box =
      BitVec.ofNat 32 (sboxOutput box box.isLt (sboxChunk x box)) := fun x =>
    chunkOf_accumulate (by decide) (fits_sboxOutput x) box box.isLt
  have hequals := congrArg (fun z => (chunkOf 4 8 z box).toNat) hsubstitute
  simp only [hchunk, BitVec.toNat_ofNat] at hequals
  have hlt := sboxOutput_lt box box.isLt (boxInput r k box)
  have hlt' := sboxOutput_lt box box.isLt (boxInput r' k box)
  simp only [boxInput, expand] at hlt hlt' ⊢
  omega

/-- In two rounds with equal inputs in the first and in the third one, the second has
inputs that the round function cannot tell apart. -/
theorem desRound_twice (s : DesHalfPair) (k k' : U64) :
    let next := desRound s.left s.right k
    (desRound next.left next.right k').right = s.right ^^^ desFeistelF next.right k' := rfl

/-- Three rounds from different registers on give different inputs to two boxes. -/
theorem two_le_three_rounds {s t : DesHalfPair} (h : s ≠ t) (k k' k'' : U64) :
    let s' := desRound s.left s.right k
    let t' := desRound t.left t.right k
    let s'' := desRound s'.left s'.right k'
    let t'' := desRound t'.left t'.right k'
    2 ≤ (differing s.right t.right k).card + (differing s'.right t'.right k').card +
      (differing s''.right t''.right k'').card := by
  intro s' t' s'' t''
  have hs : s''.right = s.right ^^^ desFeistelF s'.right k' := desRound_twice s k k'
  have ht : t''.right = t.right ^^^ desFeistelF t'.right k' := desRound_twice t k k'
  by_contra hfew
  by_cases hfirst : s.right = t.right
  · have hmiddle : s'.right ≠ t'.right := by
      intro hsame
      apply h
      obtain ⟨left, right⟩ := s
      obtain ⟨left', right'⟩ := t
      subst hfirst
      have hleft : left = left' := (BitVec.xor_left_inj _).mp hsame
      rw [hleft]
    have hone := one_le_card_differing hmiddle k'
    have hlast : s''.right = t''.right := by
      by_contra hne
      have hmore := one_le_card_differing hne k''
      omega
    rw [hs, ht, hfirst, BitVec.xor_right_inj] at hlast
    have hthree := three_le_card_differing hmiddle hlast
    omega
  · have hone := one_le_card_differing hfirst k
    have hmiddle : s'.right = t'.right := by
      by_contra hne
      have hmore := one_le_card_differing hne k'
      omega
    have hlast : s''.right = t''.right := by
      by_contra hne
      have hmore := one_le_card_differing hne k''
      omega
    rw [hs, ht, hmiddle, BitVec.xor_left_inj] at hlast
    exact hfirst hlast

variable {roundKeys : Vector U64 16} {order : DesKeyOrder} {x y : U64}

theorem roundState_succ {n : Nat} (hn : n + 1 ≤ 16) (hkey : keyIndex order n < 16) :
    roundState x roundKeys order (n + 1) hn =
      desRound (roundState x roundKeys order n (Nat.le_of_succ_le hn)).left
        (roundState x roundKeys order n (Nat.le_of_succ_le hn)).right
        roundKeys[keyIndex order n] := by
  rw [roundState, Nat.fold_succ]
  rfl

/-- Different blocks never meet in the registers. -/
theorem roundState_ne (h : x ≠ y) {n : Nat} (hn : n ≤ 16) :
    roundState x roundKeys order n hn ≠ roundState y roundKeys order n hn := by
  intro hsame
  have hhalves := congrArg halves hsame
  rw [halves_roundState, halves_roundState] at hhalves
  have hinjective := (roundsPerm ((orderedKeys roundKeys order).take n)).injective
  exact h (startHalves.injective (hinjective hhalves))

/-- The boxes that get different inputs in round `n` of two blocks. -/
def active (x y : U64) (roundKeys : Vector U64 16) (order : DesKeyOrder) (n : Nat) (hn : n < 16) :
    Finset (Fin 8) :=
  have := keyIndex_lt order hn
  differing (roundState x roundKeys order n (Nat.le_of_lt hn)).right
    (roundState y roundKeys order n (Nat.le_of_lt hn)).right roundKeys[keyIndex order n]

/-- Between three rounds a difference reaches at least two boxes. -/
theorem two_le_active (h : x ≠ y) {n : Nat} (h0 : n < 16) (h1 : n + 1 < 16) (h2 : n + 2 < 16) :
    2 ≤ (active x y roundKeys order n h0).card + (active x y roundKeys order (n + 1) h1).card +
      (active x y roundKeys order (n + 2) h2).card := by
  have hkey := keyIndex_lt order h0
  have hkey' := keyIndex_lt order h1
  have hkey'' := keyIndex_lt order h2
  have hne : roundState x roundKeys order n _ ≠ roundState y roundKeys order n _ :=
    roundState_ne h (Nat.le_of_lt h0)
  have hwindow := two_le_three_rounds hne
    roundKeys[keyIndex order n] roundKeys[keyIndex order (n + 1)] roundKeys[keyIndex order (n + 2)]
  simp only [← roundState_succ (Nat.le_of_lt h1) hkey, ← roundState_succ (Nat.le_of_lt h2) hkey']
    at hwindow
  exact hwindow

/-- The S-boxes against differences. Half blocks on which the round function agrees give
different inputs to three boxes, whatever the round key; so two different blocks, under
any subkeys, give different inputs to two boxes in every three consecutive rounds, and to
ten boxes on their way through all of them. -/
theorem active_boxes :
    (∀ r r' k, r ≠ r' → desFeistelF r k = desFeistelF r' k → 3 ≤ (differing r r' k).card) ∧
    ∀ x y : U64, x ≠ y → ∀ (roundKeys : Vector U64 16) (order : DesKeyOrder),
      (∀ n (h0 : n < 16) (h1 : n + 1 < 16) (h2 : n + 2 < 16),
        2 ≤ (active x y roundKeys order n h0).card +
          (active x y roundKeys order (n + 1) h1).card +
          (active x y roundKeys order (n + 2) h2).card) ∧
      10 ≤ ∑ n : Fin 16, (active x y roundKeys order n n.isLt).card := by
  refine ⟨fun r r' k => three_le_card_differing, ?_⟩
  intro x y h roundKeys order
  refine ⟨fun n h0 h1 h2 => two_le_active h h0 h1 h2, ?_⟩
  let count : Nat → Nat := fun n =>
    if hn : n < 16 then (active x y roundKeys order n hn).card else 0
  have hcount : ∀ n (hn : n < 16), (active x y roundKeys order n hn).card = count n := by
    intro n hn
    simp only [count, dif_pos hn]
  have hwindow : ∀ n, n + 2 < 16 → 2 ≤ count n + count (n + 1) + count (n + 2) := by
    intro n hn
    rw [← hcount n (by omega), ← hcount (n + 1) (by omega), ← hcount (n + 2) hn]
    exact two_le_active h (by omega) (by omega) hn
  have hsum : ∑ n : Fin 16, (active x y roundKeys order n n.isLt).card =
      ∑ n ∈ Finset.range 16, count n := by
    rw [← Fin.sum_univ_eq_sum_range]
    exact Finset.sum_congr rfl fun n _ => hcount n n.isLt
  have h0 : 2 ≤ count 0 + count 1 + count 2 := hwindow 0 (by decide)
  have h3 : 2 ≤ count 3 + count 4 + count 5 := hwindow 3 (by decide)
  have h6 : 2 ≤ count 6 + count 7 + count 8 := hwindow 6 (by decide)
  have h9 : 2 ≤ count 9 + count 10 + count 11 := hwindow 9 (by decide)
  have h12 : 2 ≤ count 12 + count 13 + count 14 := hwindow 12 (by decide)
  rw [hsum]
  simp only [Finset.sum_range_succ, Finset.sum_range_zero]
  omega

/-- Two blocks that differ in one bit. -/
theorem active_boxes_one_bit :
    10 ≤ ∑ n : Fin 16,
      (active 0#64 1#64 (Vector.replicate 16 0#64) .forward n n.isLt).card :=
  (active_boxes.2 0#64 1#64 (by decide) (Vector.replicate 16 0#64) .forward).2

end DesDifferences
