import DesModular.DesModeCalls

/-!
# Lengths up to the top of `size_t`

What the wrapping arithmetic of `des_modes.c` does at the end of its range. The
capacity check of the encryption side fails for the last eight lengths; the loop and
the index arithmetic of the decryption side never wrap.
-/
namespace DesModesBounds

open MachineWord ByteOrder ByteMemory BoundedLoop DesModes DesModesSpec DesModeCalls
open DesApi (Size DesStatus)

/-! ## The capacity check -/

variable {β : Type} [DecidableEq β]

/-- An error is reported before anything is copied. A call that is not refused returns
`DES_OK`, or it has no result because a copy leaves its buffer. -/
def Refused (result : Option (ModeResult β)) : Prop := ∃ r, result = some r ∧ r.status ≠ .ok

/-- The count in `memset(&out[data_len], pad_byte, pad_byte)`. -/
def padBytes (dataLen : Size) : Nat := ((desPaddedLen dataLen - dataLen).setWidth 8 : U8).toNat

/-- The padded length is what it stands for, and whatever passes the capacity check has
room for the data and the padding bytes. -/
structure CapacitySound (dataLen outCap : Size) : Prop where
  blocks : (desPaddedLen dataLen).toNat % 8 = 0
  longer : dataLen.toNat < (desPaddedLen dataLen).toNat
  atMost : (desPaddedLen dataLen).toNat ≤ dataLen.toNat + 8
  pad : ∀ (β : Type) [DecidableEq β] (m : Memory β) (data out : Pointer β) (outLen : Size),
    ¬Refused (desPkcs7Pad m data dataLen out outCap outLen) →
      dataLen.toNat + padBytes dataLen ≤ outCap.toNat
  encrypt : ∀ (β : Type) [DecidableEq β] (mode : Mode) (m : Memory β) (a : ModeArgs β)
    (outLen : Size), ¬mode.BadLength a → a.dataLen = dataLen → a.outCap = outCap →
      ¬Refused (mode.encrypt m a outLen) → dataLen.toNat + padBytes dataLen ≤ outCap.toNat

/-- The last eight lengths are those whose padded length wraps. -/
theorem no_wrap_iff (dataLen : Size) :
    dataLen.toNat < 2 ^ 64 - 8 ↔ dataLen.toNat + Pkcs7.padCount 8 dataLen.toNat < 2 ^ 64 := by
  have hlt := dataLen.isLt
  rw [Pkcs7.padCount]
  omega

theorem padBytes_eq (dataLen : Size) : padBytes dataLen = Pkcs7.padCount 8 dataLen.toNat :=
  toNat_padByte dataLen

theorem room_of_fits {dataLen outCap : Size}
    (hwrap : dataLen.toNat + Pkcs7.padCount 8 dataLen.toNat < 2 ^ 64)
    (h : ¬outCap < desPaddedLen dataLen) : dataLen.toNat + padBytes dataLen ≤ outCap.toNat := by
  rw [BitVec.lt_def, toNat_desPaddedLen hwrap] at h
  rw [padBytes_eq]
  exact Nat.le_of_not_lt h

/-- A padded length that wraps turns no capacity away. -/
theorem desPkcs7Pad_let_through (m : Memory β) (data out : Pointer β) {dataLen : Size}
    (h : 2 ^ 64 - 8 ≤ dataLen.toNat) (outCap outLen : Size) :
    ¬Refused (desPkcs7Pad m data dataLen out outCap outLen) := by
  have hwrap := (not_congr (no_wrap_iff dataLen)).mp (Nat.not_lt.mpr h)
  rintro ⟨r, hr, hstatus⟩
  simp only [desPkcs7Pad, if_neg (wrap_fits (Nat.le_of_not_lt hwrap) outCap), Option.bind_eq_bind,
    Option.bind_eq_some_iff] at hr
  obtain ⟨copied, -, padded, -, hr⟩ := hr
  obtain rfl := Option.some.inj hr
  exact hstatus rfl

/-- The capacity check is sound for every length but the last eight. -/
theorem capacity_check_sound_iff (dataLen outCap : Size) :
    CapacitySound dataLen outCap ↔ dataLen.toNat < 2 ^ 64 - 8 := by
  constructor
  · intro h
    by_contra hlarge
    have hwrap := (not_congr (no_wrap_iff dataLen)).mp hlarge
    have hlonger := h.longer
    rw [desPaddedLen_wrap (Nat.le_of_not_lt hwrap)] at hlonger
    exact Nat.not_lt_zero _ hlonger
  · intro h
    have hwrap := (no_wrap_iff dataLen).mp h
    have hsize := toNat_desPaddedLen hwrap
    have hpos := Pkcs7.padCount_pos (by decide : 0 < 8) dataLen.toNat
    have hle := Pkcs7.padCount_le 8 dataLen.toNat
    refine ⟨?_, by omega, by omega, ?_, ?_⟩
    · rw [hsize, Pkcs7.length_add_padCount (by decide)]
      exact Nat.mul_mod_right 8 _
    · intro β _ m data out outLen hpass
      apply room_of_fits hwrap
      intro hsmall
      exact hpass ⟨_, desPkcs7Pad_small hsmall outLen, nofun⟩
    · rintro β _ mode m a outLen hlen rfl rfl hpass
      apply room_of_fits hwrap
      intro hsmall
      exact hpass ⟨_, encrypt_small hlen hsmall m outLen, nofun⟩

/-- The first length past the sound ones: the padded length is 0, and padding into no room
at all is not refused. -/
theorem capacity_check_wraps :
    desPaddedLen 0xFFFFFFFFFFFFFFF8#64 = 0#64 ∧
      ¬Refused (desPkcs7Pad (⟨fun _ => 16, fun _ _ => 0#8⟩ : Memory Unit) ⟨(), 0⟩
        0xFFFFFFFFFFFFFFF8#64 ⟨(), 8⟩ 0#64 0#64) ∧
      ¬CapacitySound 0xFFFFFFFFFFFFFFF8#64 0#64 := by
  have hlarge : 2 ^ 64 - 8 ≤ (0xFFFFFFFFFFFFFFF8#64 : Size).toNat := by decide
  refine ⟨by decide, desPkcs7Pad_let_through _ _ _ hlarge _ _, ?_⟩
  intro h
  exact Nat.not_lt_zero _ h.longer

/-! ## The block loop -/

/-- The states in which the block loop begins an iteration. -/
def blockIterations {τ : Type} (step : τ → U64 → τ × U64) (src out : Pointer β) (len : Size)
    (m : Memory β) (carry : τ) : List (LoopState β τ) :=
  iterations (blockPending len) (blockBody step src out) len.toNat ⟨0#64, m, carry⟩

/-- From block `k` on, with the buffers anywhere: the iterations left are those of the
blocks left, and the offset ends at the length. -/
theorem blockIterations_from {τ : Type} (step : τ → U64 → τ × U64) {src out : Pointer β}
    {len : Size} (n k fuel : Nat) (m : Memory β) (carry : τ) (hlen : len.toNat = 8 * (k + n))
    (hfuel : n ≤ fuel) (hsrc : m.InBounds src len.toNat) (hout : m.InBounds out len.toNat) :
    ∃ s, whileLoop (blockPending len) (blockBody step src out) fuel
        ⟨BitVec.ofNat 64 (8 * k), m, carry⟩ = some s ∧ s.mem.size = m.size ∧
      (iterations (blockPending len) (blockBody step src out) fuel
        ⟨BitVec.ofNat 64 (8 * k), m, carry⟩).map (fun s => s.offset.toNat) =
        (List.range n).map (fun i => 8 * (k + i)) := by
  induction n generalizing k fuel m carry with
  | zero =>
    have hdone : blockPending len ⟨BitVec.ofNat 64 (8 * k), m, carry⟩ = false := by
      simpa using blockPending_iff hlen m carry
    exact ⟨_, whileLoop_done hdone fuel, rfl, by simp [iterations_done hdone]⟩
  | succ n ih =>
    obtain ⟨fuel, rfl⟩ : ∃ f, fuel = f + 1 := ⟨fuel - 1, by omega⟩
    have hpending := (blockPending_iff hlen m carry).mpr (Nat.succ_pos n)
    have hbody := blockBody_block step hlen hsrc hout carry
    generalize step carry (pack (m.bytes (src.add (8 * k)) 8)) = next at hbody
    obtain ⟨s, hs, hsize, hoffsets⟩ := ih (k + 1) fuel
      (m.write (out.add (8 * k)) (unpack 8 next.2)) next.1 (by omega) (by omega) hsrc hout
    refine ⟨s, (whileLoop_next hpending hbody fuel).trans hs, hsize, ?_⟩
    rw [iterations_next hpending hbody, List.map_cons, hoffsets, toNat_blockOffset hlen,
      List.range_succ_eq_map,
      List.map_cons, List.map_map]
    congr 1
    apply List.map_congr_left
    intro i _
    simp only [Function.comp_apply]
    omega

/-- The loop reads and writes whole blocks below the length, and its offset takes each
multiple of 8 once without wrapping. -/
structure BlocksInBounds {τ : Type} (step : τ → U64 → τ × U64) (m : Memory β) (a : ModeArgs β)
    (carry : τ) : Prop where
  count : (blockIterations step a.data a.out a.dataLen m carry).length = a.dataLen.toNat / 8
  offsets : (blockIterations step a.data a.out a.dataLen m carry).map (fun s => s.offset.toNat) =
    (List.range (a.dataLen.toNat / 8)).map (8 * ·)
  noWrap : ∀ s ∈ blockIterations step a.data a.out a.dataLen m carry,
    (s.offset + 8#64).toNat = s.offset.toNat + 8
  read : ∀ s ∈ blockIterations step a.data a.out a.dataLen m carry, ∀ i < 8,
    s.offset.toNat + i < a.dataLen.toNat
  written : ∀ s ∈ blockIterations step a.data a.out a.dataLen m carry, ∀ i < 8,
    s.offset.toNat + i < a.outCap.toNat

/-- No index of the padding check underflows or leaves the data. -/
structure UnpadInBounds (dataLen : Size) : Prop where
  whole : ¬PartialBlocks dataLen
  last : (dataLen - 1#64).toNat + 1 = dataLen.toNat
  index : ∀ padByte : U8, ¬(padByte = 0#8 ∨ 8#8 < padByte) → ∀ i < padByte.toNat,
    (dataLen - 1#64 - BitVec.ofNat 64 i).toNat + (1 + i) = dataLen.toNat

theorem unpadInBounds {dataLen : Size} (h : ¬PartialBlocks dataLen) : UnpadInBounds dataLen := by
  obtain ⟨k, hk⟩ := not_partialBlocks_iff.mp h
  have hlt := dataLen.isLt
  refine ⟨h, ?_, ?_⟩
  · simp only [BitVec.toNat_sub, BitVec.toNat_ofNat]
    omega
  · intro padByte hpad i hi
    have hle : padByte.toNat ≤ 8 := by
      obtain ⟨-, hle⟩ := not_or.mp hpad
      exact BitVec.not_lt.mp hle
    simp only [BitVec.toNat_sub, BitVec.toNat_ofNat]
    omega

theorem blocks_in_bounds {τ : Type} (step : τ → U64 → τ × U64) {m : Memory β} {a : ModeArgs β}
    (hblocks : ¬PartialBlocks a.dataLen) (hcap : a.dataLen ≤ a.outCap)
    (hdata : m.InBounds a.data a.dataLen.toNat) (hout : m.InBounds a.out a.outCap.toNat)
    (carry : τ) :
    BlocksInBounds step m a carry ∧
      ∃ s, blockLoop step a.data a.out a.dataLen m carry = some s ∧ s.mem.size = m.size := by
  obtain ⟨k, hk⟩ := not_partialBlocks_iff.mp hblocks
  have hlt := a.dataLen.isLt
  have hroom := BitVec.le_def.mp hcap
  have hdiv : a.dataLen.toNat / 8 = k + 1 := by omega
  obtain ⟨s, hs, hsize, hoffsets⟩ := blockIterations_from step (k + 1) 0 a.dataLen.toNat m carry
    (by omega) (by omega) hdata (hout.mono hroom)
  simp only [Nat.zero_add] at hoffsets
  have hmem : ∀ s ∈ blockIterations step a.data a.out a.dataLen m carry,
      s.offset.toNat + 8 ≤ a.dataLen.toNat := by
    intro s hmem
    have hoffset := List.mem_map_of_mem (f := fun s => s.offset.toNat) hmem
    rw [blockIterations, hoffsets] at hoffset
    obtain ⟨i, hi, hsame⟩ := List.mem_map.mp hoffset
    have hin := List.mem_range.mp hi
    omega
  refine ⟨⟨?_, ?_, ?_, ?_, ?_⟩, s, hs, hsize⟩
  · have hcount := congrArg List.length hoffsets
    simpa [hdiv, blockIterations] using hcount
  · rw [hdiv]
    exact hoffsets
  · intro s hs
    have hend := hmem s hs
    have height : (8#64 : Size).toNat = 8 := rfl
    rw [BitVec.toNat_add, height, Nat.mod_eq_of_lt (by omega)]
  · intro s hs i hi
    have hend := hmem s hs
    omega
  · intro s hs i hi
    have hend := hmem s hs
    omega

/-! ## Decryption -/

/-- A call past its early checks: the loop stays in bounds and ends, and the padding check
that follows stays in bounds and accepts the length. -/
structure LoopThenUnpad {τ : Type} (step : τ → U64 → τ × U64) (carry : τ) (m : Memory β)
    (a : ModeArgs β) (outLen : Size) (r : ModeResult β) : Prop where
  blocks : BlocksInBounds step m a carry
  unpad : UnpadInBounds a.dataLen
  result : ∃ s, blockLoop step a.data a.out a.dataLen m carry = some s ∧
    desPkcs7Unpad s.mem a.out a.dataLen outLen = some r
  status : r.status = .ok ∨ r.status = .errInvalidPadding

/-- The step and the first carry are those of the mode. -/
def DecryptRuns (mode : Mode) (m : Memory β) (a : ModeArgs β) (outLen : Size)
    (r : ModeResult β) : Prop :=
  match mode with
  | .ecb => ∃ keyValue, bytesToU64 m a.key = some keyValue ∧
      LoopThenUnpad (ecbDecryptStep keyValue) () m a outLen r
  | .cbc => ∃ keyValue previous, bytesToU64 m a.key = some keyValue ∧
      bytesToU64 m a.iv = some previous ∧
      LoopThenUnpad (cbcDecryptStep keyValue) previous m a outLen r

theorem exists_loopThenUnpad {τ : Type} (step : τ → U64 → τ × U64) {m : Memory β}
    {a : ModeArgs β} (hblocks : ¬PartialBlocks a.dataLen) (hcap : a.dataLen ≤ a.outCap)
    (hdata : m.InBounds a.data a.dataLen.toNat) (hout : m.InBounds a.out a.outCap.toNat)
    (carry : τ) (outLen : Size) :
    ∃ s r, blockLoop step a.data a.out a.dataLen m carry = some s ∧
      desPkcs7Unpad s.mem a.out a.dataLen outLen = some r ∧
      LoopThenUnpad step carry m a outLen r := by
  obtain ⟨hbounds, s, hs, hsize⟩ := blocks_in_bounds step hblocks hcap hdata hout carry
  obtain ⟨k, hk⟩ := not_partialBlocks_iff.mp hblocks
  have hread : s.mem.InBounds a.out a.dataLen.toNat := by
    rw [Memory.InBounds, hsize]
    exact hout.mono (BitVec.le_def.mp hcap)
  have hunpad := desPkcs7Unpad_eq hk hread outLen
  exact ⟨s, _, hs, hunpad, hbounds, unpadInBounds hblocks, ⟨s, hs, hunpad⟩,
    unpadResult_status _ _ _⟩

/-- Decryption for all lengths, with the buffers anywhere: an error before the loop, or a
loop of `dataLen / 8` iterations and a padding check that both stay in bounds. -/
theorem decrypt_in_bounds {mode : Mode} {m : Memory β} {a : ModeArgs β} (hv : mode.Valid m a)
    (outLen : Size) :
    ∃ r, mode.decrypt m a outLen = some r ∧
      ((mode.BadLength a ∨ PartialBlocks a.dataLen) ∧ r = ⟨.errInvalidLength, m, outLen⟩ ∨
        ¬(mode.BadLength a ∨ PartialBlocks a.dataLen) ∧ a.outCap < a.dataLen ∧
          r = ⟨.errBufferTooSmall, m, outLen⟩ ∨
        ¬(mode.BadLength a ∨ PartialBlocks a.dataLen) ∧ a.dataLen ≤ a.outCap ∧
          DecryptRuns mode m a outLen r) := by
  by_cases hlen : mode.BadLength a ∨ PartialBlocks a.dataLen
  · exact ⟨_, decrypt_badLength hlen m outLen, .inl ⟨hlen, rfl⟩⟩
  obtain ⟨hgood, hblocks⟩ := not_or.mp hlen
  by_cases hsmall : a.outCap < a.dataLen
  · exact ⟨_, decrypt_small hgood hblocks hsmall m outLen, .inr (.inl ⟨hlen, hsmall, rfl⟩)⟩
  have hcap : a.dataLen ≤ a.outCap := BitVec.not_lt.mp hsmall
  have hkey := Memory.loadBigEndian_eq (hv.keyBytes hgood)
  cases mode with
  | ecb =>
    obtain ⟨s, r, hs, hunpad, hrun⟩ := exists_loopThenUnpad
      (ecbDecryptStep (pack (m.bytes a.key 8))) hblocks hcap hv.data hv.out () outLen
    refine ⟨r, ?_, .inr (.inr ⟨hlen, hcap, _, hkey, hrun⟩)⟩
    simp only [Mode.decrypt, desEcbDecrypt, if_neg (ecbDecrypt_guard hgood hblocks),
      if_neg hsmall, bytesToU64, hkey, Option.bind_eq_bind, Option.bind_some, hs, hunpad]
  | cbc =>
    have hiv := Memory.loadBigEndian_eq (hv.ivBytes hgood)
    obtain ⟨s, r, hs, hunpad, hrun⟩ := exists_loopThenUnpad
      (cbcDecryptStep (pack (m.bytes a.key 8))) hblocks hcap hv.data hv.out
      (pack (m.bytes a.iv 8)) outLen
    refine ⟨r, ?_, .inr (.inr ⟨hlen, hcap, _, _, hkey, hiv, hrun⟩)⟩
    simp only [Mode.decrypt, desCbcDecrypt, if_neg (cbcDecrypt_guard hgood hblocks),
      if_neg hsmall, bytesToU64, hkey, hiv, Option.bind_eq_bind, Option.bind_some, hs, hunpad]

/-- Two blocks decrypted onto an output that overlaps the ciphertext, all in one array. -/
theorem decrypt_in_bounds_overlap :
    let m : Memory Unit := ⟨fun _ => 40, fun _ i => BitVec.ofNat 8 i⟩
    let a : ModeArgs Unit := ⟨⟨(), 0⟩, 8#64, ⟨(), 8⟩, 8#64, ⟨(), 16⟩, 16#64, ⟨(), 20⟩, 16#64⟩
    ∃ r, Mode.cbc.decrypt m a 0#64 = some r ∧ DecryptRuns .cbc m a 0#64 r := by
  intro m a
  obtain ⟨r, hr, ⟨hbad, -⟩ | ⟨-, hsmall, -⟩ | ⟨-, -, hrun⟩⟩ :=
    decrypt_in_bounds (show Mode.cbc.Valid m a from
      ⟨by decide, fun _ => by decide, by decide, by decide⟩) 0#64
  · exact absurd hbad (by decide)
  · exact absurd hsmall (by decide)
  · exact ⟨r, hr, hrun⟩

end DesModesBounds
