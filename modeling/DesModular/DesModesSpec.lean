import DesModular.DesModes
import DesModular.Pkcs7
import DesModular.Transducer

/-!
# What the mode functions compute

Each function of `DesModes` is related to an operation on byte strings: the
block loop to a transducer on words, the two padding functions to `Pkcs7`. The
layout of the buffers enters only through bounds and overlap.
-/
namespace DesModesSpec

open MachineWord ByteOrder ByteMemory BoundedLoop Transducer DesBlock DesModes
open DesApi (Size DesStatus)

variable {β : Type}

/-! ## The padding check -/

/-- The data is empty or not made of whole blocks. -/
def PartialBlocks (dataLen : Size) : Prop := dataLen = 0#64 ∨ dataLen % 8#64 ≠ 0#64

instance (dataLen : Size) : Decidable (PartialBlocks dataLen) :=
  inferInstanceAs (Decidable (_ ∨ _))

theorem not_partialBlocks_iff {dataLen : Size} :
    ¬PartialBlocks dataLen ↔ ∃ k, dataLen.toNat = 8 * (k + 1) := by
  have height : (8#64 : Size).toNat = 8 := rfl
  have hmod : dataLen % 8#64 = 0#64 ↔ dataLen.toNat % 8 = 0 := by
    rw [← BitVec.toNat_inj, BitVec.toNat_umod, height]
    rfl
  have hzero : dataLen = 0#64 ↔ dataLen.toNat = 0 := by
    rw [← BitVec.toNat_inj]
    rfl
  rw [PartialBlocks, not_or, not_not, hmod, hzero]
  constructor
  · rintro ⟨hpos, hmul⟩
    exact ⟨dataLen.toNat / 8 - 1, by omega⟩
  · rintro ⟨k, hk⟩
    omega

/-- The check of `n` bytes compares the last `n` bytes with a run of the pad byte. -/
theorem paddingMatches_eq {m : Memory β} {data : Pointer β} {dataLen : Size} (padByte : U8)
    (hdata : m.InBounds data dataLen.toNat) (n : Nat) (hn : n ≤ dataLen.toNat) :
    paddingMatches m data dataLen padByte n =
      some (decide (m.bytes (data.add (dataLen.toNat - n)) n = List.replicate n padByte)) := by
  have hlt := dataLen.isLt
  induction n with
  | zero => rfl
  | succ n ih =>
    have hindex : (dataLen - 1#64 - BitVec.ofNat 64 n).toNat = dataLen.toNat - (n + 1) := by
      simp only [BitVec.toNat_sub, BitVec.toNat_ofNat]
      omega
    have hload := Memory.load_eq (hdata.add (k := dataLen.toNat - (n + 1)) (l := 1) (by omega))
    have hsplit := Memory.bytes_add m (data.add (dataLen.toNat - (n + 1))) 1 n
    have hnext : dataLen.toNat - (n + 1) + 1 = dataLen.toNat - n := by omega
    rw [Memory.bytes_one, Pointer.add_add, hnext, Nat.add_comm 1 n] at hsplit
    rw [paddingMatches, ih (by omega), hindex, hload, hsplit, List.replicate_succ,
      List.singleton_append]
    by_cases htail : m.bytes (data.add (dataLen.toNat - n)) n = List.replicate n padByte
    · simp [htail, beq_eq_decide]
    · simp [htail]

/-- What `unpad` reports for a decrypted string, as the caller sees it. -/
def unpadResult (m : Memory β) (bytes : Bytes) (outLen : Size) : ModeResult β :=
  match Pkcs7.unpad 8 bytes with
  | some n => ⟨.ok, m, BitVec.ofNat 64 n⟩
  | none => ⟨.errInvalidPadding, m, outLen⟩

theorem unpadResult_some {m : Memory β} {bytes : Bytes} {n : Nat}
    (h : Pkcs7.unpad 8 bytes = some n) (outLen : Size) :
    unpadResult m bytes outLen = ⟨.ok, m, BitVec.ofNat 64 n⟩ := by
  simp only [unpadResult, h]

theorem unpadResult_mem (m : Memory β) (bytes : Bytes) (outLen : Size) :
    (unpadResult m bytes outLen).mem = m := by
  cases h : Pkcs7.unpad 8 bytes <;> simp only [unpadResult, h]

theorem unpadResult_status (m : Memory β) (bytes : Bytes) (outLen : Size) :
    (unpadResult m bytes outLen).status = .ok ∨
      (unpadResult m bytes outLen).status = .errInvalidPadding := by
  cases h : Pkcs7.unpad 8 bytes <;> simp [unpadResult, h]

theorem unpadResult_none {m : Memory β} {bytes : Bytes} (h : Pkcs7.unpad 8 bytes = none)
    (outLen : Size) : unpadResult m bytes outLen = ⟨.errInvalidPadding, m, outLen⟩ := by
  simp only [unpadResult, h]

/-- On whole blocks the check never leaves its buffer and decides the padding. -/
theorem desPkcs7Unpad_eq {m : Memory β} {data : Pointer β} {dataLen : Size} {k : Nat}
    (hlen : dataLen.toNat = 8 * (k + 1)) (hdata : m.InBounds data dataLen.toNat) (outLen : Size) :
    desPkcs7Unpad m data dataLen outLen =
      some (unpadResult m (m.bytes data dataLen.toNat) outLen) := by
  have hlt := dataLen.isLt
  have hguard : ¬(dataLen = 0#64 ∨ dataLen % 8#64 ≠ 0#64) := not_partialBlocks_iff.mpr ⟨k, hlen⟩
  have hlast : (dataLen - 1#64).toNat = dataLen.toNat - 1 := by
    simp only [BitVec.toNat_sub, BitVec.toNat_ofNat]
    omega
  have hload := Memory.load_eq (hdata.add (k := dataLen.toNat - 1) (l := 1) (by omega))
  have hlastByte : (m.bytes data dataLen.toNat).getD ((m.bytes data dataLen.toNat).length - 1) 0#8 =
      m.byte data.block (data.offset + (dataLen.toNat - 1)) := by
    rw [Memory.length_bytes, List.getD_eq_getElem _ _ (by rw [Memory.length_bytes]; omega),
      Memory.getElem_bytes]
  simp only [Pointer.add_block, Pointer.add_offset] at hload
  generalize m.byte data.block (data.offset + (dataLen.toNat - 1)) = padByte at hlastByte hload
  have hunpad := Pkcs7.unpad_of_last 8 hlastByte
  have hvalue : padByte = 0#8 ∨ 8#8 < padByte ↔ padByte.toNat = 0 ∨ 8 < padByte.toNat := by
    have height : (8#8 : U8).toNat = 8 := rfl
    rw [BitVec.lt_def, height, ← BitVec.toNat_inj]
    rfl
  simp only [desPkcs7Unpad, if_neg hguard, hlast, hload, Option.bind_eq_bind, Option.bind_some]
  by_cases hbad : padByte = 0#8 ∨ 8#8 < padByte
  · rw [if_pos (hvalue.mp hbad)] at hunpad
    rw [if_pos hbad, unpadResult_none hunpad]
    rfl
  · have hrange : ¬(padByte.toNat = 0 ∨ 8 < padByte.toNat) := fun h => hbad (hvalue.mpr h)
    have hkeep : dataLen.toNat - (dataLen.toNat - padByte.toNat) = padByte.toNat := by omega
    rw [if_neg hrange, Memory.length_bytes, Memory.drop_bytes m data (Nat.sub_le _ _), hkeep]
      at hunpad
    rw [if_neg hbad, paddingMatches_eq padByte hdata padByte.toNat (by omega), Option.bind_some]
    by_cases hrun : m.bytes (data.add (dataLen.toNat - padByte.toNat)) padByte.toNat =
        List.replicate padByte.toNat padByte
    · have hsub : dataLen - padByte.setWidth 64 =
          BitVec.ofNat 64 (dataLen.toNat - padByte.toNat) := by
        apply BitVec.eq_of_toNat_eq
        simp only [BitVec.toNat_sub, BitVec.toNat_setWidth, BitVec.toNat_ofNat]
        omega
      rw [if_pos hrun] at hunpad
      rw [if_pos (decide_eq_true hrun), unpadResult_some hunpad, hsub]
      rfl
    · rw [if_neg hrun] at hunpad
      rw [if_neg (by simpa using hrun), unpadResult_none hunpad]
      rfl

/-! ## The block loop -/

/-- Writing at `out` never touches bytes of the source above the same offset: the two
ranges of `len` bytes are apart, or `out` starts first. -/
def Trails (src out : Pointer β) (len : Nat) : Prop :=
  src.block ≠ out.block ∨ out.offset ≤ src.offset ∨ src.offset + len ≤ out.offset

theorem Trails.refl (p : Pointer β) (len : Nat) : Trails p p len := .inr (.inl (Nat.le_refl _))

theorem Trails.of_apart {src out : Pointer β} {len n : Nat} (h : Apart out n src len) :
    Trails src out len := by
  obtain h | h | h := h
  · exact .inl (Ne.symm h)
  · exact .inr (.inl (by omega))
  · exact .inr (.inr h)

theorem Trails.apart {src out : Pointer β} {len k n : Nat} (h : Trails src out len)
    (hn : k + 8 + n ≤ len) : Apart (out.add k) 8 (src.add (k + 8)) n := by
  obtain h | h | h := h
  · exact .inl (Ne.symm h)
  · refine .inr (.inl ?_)
    simp only [Pointer.add_offset]
    omega
  · refine .inr (.inr ?_)
    simp only [Pointer.add_offset]
    omega

/-- The first of `n + 1` words of a range, and the others. -/
theorem toWords_bytes_succ (m : Memory β) (p : Pointer β) (n : Nat) :
    toWords (n + 1) (m.bytes p (8 * (n + 1))) =
      pack (m.bytes p 8) :: toWords n (m.bytes (p.add 8) (8 * n)) := by
  rw [toWords, Memory.take_bytes m p (by omega), Memory.drop_bytes m p (by omega)]
  rfl

/-- The offset of block `k` does not wrap. -/
theorem toNat_blockOffset {len : Size} {k n : Nat} (hlen : len.toNat = 8 * (k + n)) :
    (BitVec.ofNat 64 (8 * k)).toNat = 8 * k := by
  have hlt := len.isLt
  rw [BitVec.toNat_ofNat]
  omega

/-- The loop is still going at block `k` when blocks are left from there on. -/
theorem blockPending_iff {τ : Type} {len : Size} {k n : Nat} (hlen : len.toNat = 8 * (k + n))
    (m : Memory β) (carry : τ) :
    blockPending len ⟨BitVec.ofNat 64 (8 * k), m, carry⟩ = true ↔ 0 < n := by
  simp only [blockPending, decide_eq_true_iff, BitVec.lt_def, toNat_blockOffset hlen]
  omega

variable [DecidableEq β]

/-- One iteration in bounds: a word is read, stepped and written. -/
theorem blockBody_eq {τ : Type} (step : τ → U64 → τ × U64) {src out : Pointer β} {m : Memory β}
    (offset : Size) (carry : τ) (hsrc : m.InBounds (src.add offset.toNat) 8)
    (hout : m.InBounds (out.add offset.toNat) 8) :
    let next := step carry (pack (m.bytes (src.add offset.toNat) 8))
    blockBody step src out ⟨offset, m, carry⟩ =
      some ⟨offset + 8#64, m.write (out.add offset.toNat) (unpack 8 next.2), next.1⟩ := by
  simp only [blockBody, bytesToU64, u64ToBytes, Memory.loadBigEndian_eq hsrc,
    Memory.storeBigEndian_eq hout, Option.bind_eq_bind, Option.bind_some, Option.pure_def]

/-- The iteration at block `k` goes on to block `k + 1`. -/
theorem blockBody_block {τ : Type} (step : τ → U64 → τ × U64) {src out : Pointer β} {len : Size}
    {k n : Nat} (hlen : len.toNat = 8 * (k + (n + 1))) {m : Memory β}
    (hsrc : m.InBounds src len.toNat) (hout : m.InBounds out len.toNat) (carry : τ) :
    let next := step carry (pack (m.bytes (src.add (8 * k)) 8))
    blockBody step src out ⟨BitVec.ofNat 64 (8 * k), m, carry⟩ =
      some ⟨BitVec.ofNat 64 (8 * (k + 1)), m.write (out.add (8 * k)) (unpack 8 next.2),
        next.1⟩ := by
  have hoff := toNat_blockOffset hlen
  have hnext : BitVec.ofNat 64 (8 * k) + 8#64 = BitVec.ofNat 64 (8 * (k + 1)) := by
    rw [Nat.mul_add, BitVec.ofNat_add]
  have hbody := blockBody_eq step (BitVec.ofNat 64 (8 * k)) carry
    (hsrc.add (by omega)) (hout.add (by omega))
  simpa only [hoff, hnext] using hbody

/-- From block `k` on, the loop writes what the transducer outputs on the words
still unread, and these are the words of the memory it started from. -/
theorem blockLoop_from {τ : Type} (step : τ → U64 → τ × U64) {src out : Pointer β} {len : Size}
    (hlayout : Trails src out len.toNat) (n k fuel : Nat) (m : Memory β) (carry : τ)
    (hlen : len.toNat = 8 * (k + n)) (hfuel : n ≤ fuel) (hsrc : m.InBounds src len.toNat)
    (hout : m.InBounds out len.toNat) :
    ∃ s, whileLoop (blockPending len) (blockBody step src out) fuel
        ⟨BitVec.ofNat 64 (8 * k), m, carry⟩ = some s ∧
      s.mem = m.write (out.add (8 * k))
        (ofWords (output step carry (toWords n (m.bytes (src.add (8 * k)) (8 * n))))) := by
  induction n generalizing k fuel m carry with
  | zero =>
    have hdone : blockPending len ⟨BitVec.ofNat 64 (8 * k), m, carry⟩ = false := by
      simpa using blockPending_iff hlen m carry
    exact ⟨_, whileLoop_done hdone fuel, by simp [toWords]⟩
  | succ n ih =>
    obtain ⟨fuel, rfl⟩ : ∃ f, fuel = f + 1 := ⟨fuel - 1, by omega⟩
    have hpending := (blockPending_iff hlen m carry).mpr (Nat.succ_pos n)
    have hbody := blockBody_block step hlen hsrc hout carry
    generalize hstep : step carry (pack (m.bytes (src.add (8 * k)) 8)) = next at hbody
    have hunread : (m.write (out.add (8 * k)) (unpack 8 next.2)).bytes (src.add (8 * (k + 1)))
        (8 * n) = m.bytes (src.add (8 * (k + 1))) (8 * n) := by
      apply Memory.bytes_write_apart
      rw [length_unpack]
      exact hlayout.apart (by omega)
    obtain ⟨s, hs, hmem⟩ := ih (k + 1) fuel (m.write (out.add (8 * k)) (unpack 8 next.2)) next.1
      (by omega) (by omega) hsrc hout
    have hjoin := Memory.write_append m (out.add (8 * k)) (unpack 8 next.2)
      (ofWords (output step next.1 (toWords n (m.bytes (src.add (8 * (k + 1))) (8 * n)))))
    rw [length_unpack, Pointer.add_add, ← Nat.mul_succ] at hjoin
    refine ⟨s, ?_, ?_⟩
    · rw [whileLoop_next hpending hbody fuel]
      exact hs
    · rw [hmem, hunread, hjoin, toWords_bytes_succ, Pointer.add_add, ← Nat.mul_succ, output_cons,
        hstep, ofWords_cons]

/-- The bytes a block loop writes for the bytes it reads. -/
def applyStep {τ : Type} (step : τ → U64 → τ × U64) (carry : τ) (bytes : Bytes) : Bytes :=
  ofWords (output step carry (toWords (bytes.length / 8) bytes))

theorem blockLoop_eq {τ : Type} (step : τ → U64 → τ × U64) {src out : Pointer β} {len : Size}
    (hlayout : Trails src out len.toNat) {n : Nat} (hlen : len.toNat = 8 * n) {m : Memory β}
    (hsrc : m.InBounds src len.toNat) (hout : m.InBounds out len.toNat) (carry : τ) :
    ∃ s, blockLoop step src out len m carry = some s ∧
      s.mem = m.write out (applyStep step carry (m.bytes src len.toNat)) := by
  obtain ⟨s, hs, hmem⟩ := blockLoop_from step hlayout n 0 len.toNat m carry (by omega) (by omega)
    hsrc hout
  have hdiv : 8 * n / 8 = n := by omega
  refine ⟨s, hs, ?_⟩
  rw [hmem, applyStep, Memory.length_bytes, hlen, hdiv]
  rfl

@[simp] theorem length_applyStep {τ : Type} (step : τ → U64 → τ × U64) (carry : τ)
    (bytes : Bytes) : (applyStep step carry bytes).length = 8 * (bytes.length / 8) := by
  simp [applyStep]

/-- Loops whose steps undo each other undo each other on whole blocks. -/
theorem applyStep_applyStep {τ : Type} {back forth : τ → U64 → τ × U64} (h : Undoes back forth)
    (carry : τ) {bytes : Bytes} (hlen : bytes.length % 8 = 0) :
    applyStep back carry (applyStep forth carry bytes) = bytes := by
  have hdiv : 8 * (bytes.length / 8) / 8 = bytes.length / 8 := by omega
  have hwords := toWords_ofWords (output forth carry (toWords (bytes.length / 8) bytes))
  rw [length_output, length_toWords] at hwords
  rw [applyStep, length_applyStep, hdiv, applyStep, hwords, output_output h,
    ofWords_toWords _ _ (by omega)]

/-- The loop over two parts, the second from the value carried past the first. -/
theorem applyStep_append {τ : Type} (step : τ → U64 → τ × U64) (carry : τ) {front : Bytes}
    (hlen : front.length % 8 = 0) (rest : Bytes) :
    applyStep step carry (front ++ rest) = applyStep step carry front ++
      applyStep step (final step carry (toWords (front.length / 8) front)) rest := by
  have hcount : (front ++ rest).length / 8 = front.length / 8 + rest.length / 8 := by
    rw [List.length_append]
    omega
  rw [applyStep, hcount, toWords_append (by omega), output_append, ofWords_append, applyStep,
    applyStep]

theorem blocks_applyStep {τ : Type} (step : τ → U64 → τ × U64) (carry : τ) (bytes : Bytes) :
    blocks (applyStep step carry bytes) =
      (output step carry (toWords (bytes.length / 8) bytes)).map (unpack 8) := blocks_ofWords _

/-! ## Padding -/

/-- The number of padding bytes, in `size_t` arithmetic. -/
theorem toNat_padLength (dataLen : Size) :
    (8#64 - dataLen % 8#64).toNat = Pkcs7.padCount 8 dataLen.toNat := by
  have height : (8#64 : Size).toNat = 8 := rfl
  have hlt : dataLen.toNat % 8 < 8 := Nat.mod_lt _ (by decide)
  rw [BitVec.toNat_sub, BitVec.toNat_umod, height, Pkcs7.padCount]
  omega

theorem toNat_padByte (dataLen : Size) :
    ((desPaddedLen dataLen - dataLen).setWidth 8).toNat = Pkcs7.padCount 8 dataLen.toNat := by
  have hle := Pkcs7.padCount_le 8 dataLen.toNat
  rw [desPaddedLen, BitVec.add_comm, BitVec.add_sub_cancel, BitVec.toNat_setWidth,
    toNat_padLength]
  omega

/-- Short of the last block below `2 ^ 64` the padded length does not wrap. -/
theorem toNat_desPaddedLen {dataLen : Size}
    (h : dataLen.toNat + Pkcs7.padCount 8 dataLen.toNat < 2 ^ 64) :
    (desPaddedLen dataLen).toNat = dataLen.toNat + Pkcs7.padCount 8 dataLen.toNat := by
  rw [desPaddedLen, BitVec.toNat_add, toNat_padLength]
  exact Nat.mod_eq_of_lt h

/-- Past it the padded length is 0. -/
theorem desPaddedLen_wrap {dataLen : Size}
    (h : 2 ^ 64 ≤ dataLen.toNat + Pkcs7.padCount 8 dataLen.toNat) :
    desPaddedLen dataLen = 0#64 := by
  have hblocks := Pkcs7.length_add_padCount (by decide : 0 < 8) dataLen.toNat
  have hlt := dataLen.isLt
  have hle := Pkcs7.padCount_le 8 dataLen.toNat
  apply BitVec.eq_of_toNat_eq
  rw [desPaddedLen, BitVec.toNat_add, toNat_padLength, BitVec.toNat_ofNat]
  omega

/-- Every capacity is enough for it. -/
theorem wrap_fits {dataLen : Size}
    (h : 2 ^ 64 ≤ dataLen.toNat + Pkcs7.padCount 8 dataLen.toNat) (outCap : Size) :
    ¬outCap < desPaddedLen dataLen := by
  rw [desPaddedLen_wrap h, BitVec.lt_def]
  exact Nat.not_lt_zero _

/-- The padding bytes would end beyond any array shorter than `2 ^ 64`. -/
theorem desPkcs7Pad_wrap {m : Memory β} {data out : Pointer β} {dataLen : Size}
    (h : 2 ^ 64 ≤ dataLen.toNat + Pkcs7.padCount 8 dataLen.toNat)
    (hsize : m.size out.block < out.offset + 2 ^ 64) (outCap outLen : Size) :
    desPkcs7Pad m data dataLen out outCap outLen = none := by
  have hset (m' : Memory β) (hm : m'.size = m.size) (b : U8) :
      m'.memset (out.add dataLen.toNat) b (Pkcs7.padCount 8 dataLen.toNat) = none := by
    apply if_neg
    rw [Memory.InBounds, hm, Pointer.add_block, Pointer.add_offset]
    omega
  simp only [desPkcs7Pad, if_neg (wrap_fits h outCap), toNat_padByte, Option.bind_eq_bind]
  by_cases hcopy : m.InBounds out dataLen.toNat ∧ m.InBounds data dataLen.toNat ∧
      Apart out dataLen.toNat data dataLen.toNat
  · rw [Memory.memcpy, if_pos hcopy, Option.bind_some,
      hset (m.write out (m.bytes data dataLen.toNat)) rfl, Option.bind_none]
  · rw [Memory.memcpy, if_neg hcopy, Option.bind_none]

theorem desPkcs7Pad_small {m : Memory β} {data out : Pointer β} {dataLen outCap : Size}
    (h : outCap < desPaddedLen dataLen) (outLen : Size) :
    desPkcs7Pad m data dataLen out outCap outLen = some ⟨.errBufferTooSmall, m, outLen⟩ := by
  simp only [desPkcs7Pad, if_pos h]

/-- With room for the padded length, `out` receives the padded data, also where the
padding bytes come to lie over the data. -/
theorem desPkcs7Pad_copied {m : Memory β} {data out : Pointer β} {dataLen outCap : Size}
    (hwrap : dataLen.toNat + Pkcs7.padCount 8 dataLen.toNat < 2 ^ 64)
    (hcap : dataLen.toNat + Pkcs7.padCount 8 dataLen.toNat ≤ outCap.toNat)
    (hdata : m.InBounds data dataLen.toNat) (hout : m.InBounds out outCap.toNat)
    (hapart : Apart out dataLen.toNat data dataLen.toNat) (outLen : Size) :
    desPkcs7Pad m data dataLen out outCap outLen =
      some ⟨.ok, m.write out (Pkcs7.pad 8 (m.bytes data dataLen.toNat)), desPaddedLen dataLen⟩ := by
  have hfits : ¬outCap < desPaddedLen dataLen := by
    rw [BitVec.lt_def, toNat_desPaddedLen hwrap]
    omega
  have hcopy := Memory.memcpy_eq (hout.mono (k := dataLen.toNat) (by omega)) hdata hapart
  have hset := Memory.memset_eq (m := m.write out (m.bytes data dataLen.toNat))
    (hout.add (k := dataLen.toNat) (l := Pkcs7.padCount 8 dataLen.toNat) hcap)
    ((desPaddedLen dataLen - dataLen).setWidth 8)
  have hbyte : (desPaddedLen dataLen - dataLen).setWidth 8 =
      BitVec.ofNat 8 (Pkcs7.padCount 8 dataLen.toNat) := by
    rw [← toNat_padByte, BitVec.ofNat_toNat, BitVec.setWidth_eq]
  have hjoin := Memory.write_append m out (m.bytes data dataLen.toNat)
    (List.replicate (Pkcs7.padCount 8 dataLen.toNat)
      (BitVec.ofNat 8 (Pkcs7.padCount 8 dataLen.toNat)))
  rw [Memory.length_bytes] at hjoin
  simp only [desPkcs7Pad, if_neg hfits, hcopy, Option.bind_eq_bind, Option.bind_some,
    toNat_padByte, hset, Option.pure_def]
  rw [hbyte, hjoin, Pkcs7.pad, Memory.length_bytes]

theorem desPkcs7Pad_ok {m : Memory β} {data out : Pointer β} {dataLen outCap : Size}
    (hwrap : dataLen.toNat + Pkcs7.padCount 8 dataLen.toNat < 2 ^ 64)
    (hcap : dataLen.toNat + Pkcs7.padCount 8 dataLen.toNat ≤ outCap.toNat)
    (hdata : m.InBounds data dataLen.toNat) (hout : m.InBounds out outCap.toNat)
    (hapart : Apart out outCap.toNat data dataLen.toNat) (outLen : Size) :
    desPkcs7Pad m data dataLen out outCap outLen =
      some ⟨.ok, m.write out (Pkcs7.pad 8 (m.bytes data dataLen.toNat)), desPaddedLen dataLen⟩ :=
  desPkcs7Pad_copied hwrap hcap hdata hout (hapart.mono (by omega) (Nat.le_refl _)) outLen

end DesModesSpec
