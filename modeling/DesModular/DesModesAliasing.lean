import DesModular.DesModeBuffers

/-!
# Decryption over overlapping buffers

Key, IV, ciphertext and output lie in one array. If the output does not start after
the ciphertext, a decryption is not affected by any overlap.
-/
namespace DesModesAliasing

open MachineWord ByteOrder ByteMemory DesModes DesModesSpec DesModeCalls DesModeBuffers
open DesApi (Size DesStatus)

/-- A region of the array, copied to a buffer of its own. -/
def copyRegion (m : Memory Unit) (p : Pointer Unit) (len : Size) : Buffer where
  bytes := m.bytes p len.toNat
  fits := by
    rw [Memory.length_bytes]
    exact len.isLt

/-- The same call with its four regions copied to separate buffers. -/
def separate (m : Memory Unit) (a : ModeArgs Unit) : Buffers where
  key := copyRegion m a.key a.keyLen
  iv := copyRegion m a.iv a.ivLen
  data := copyRegion m a.data a.dataLen
  out := copyRegion m a.out a.outCap

theorem length_copyRegion (m : Memory Unit) (p : Pointer Unit) (len : Size) :
    (copyRegion m p len).bytes.length = len.toNat := Memory.length_bytes m p len.toNat

theorem bytes_copyRegion (m : Memory Unit) (p : Pointer Unit) {len : Size} (h : len = 8#64) :
    (copyRegion m p len).bytes = m.bytes p 8 := by
  subst h
  rfl

/-- The copies hold what the call reads, so both decrypt to the same bytes. -/
theorem plainBytes_separate (mode : Mode) {m : Memory Unit} {a : ModeArgs Unit}
    (hkey : a.keyLen = 8#64) (hiv : a.ivLen = 8#64) :
    mode.decryptBytes (separate m a).key.bytes (separate m a).iv.bytes (separate m a).data.bytes =
      mode.plainBytes m a := by
  rw [separate, bytes_copyRegion m a.key hkey, bytes_copyRegion m a.iv hiv]
  rfl

/-- The call with separate buffers. -/
theorem decrypt_separate (mode : Mode) {m : Memory Unit} {a : ModeArgs Unit}
    (hkey : a.keyLen = 8#64) (hiv : a.ivLen = 8#64) {k : Nat}
    (hk : a.dataLen.toNat = 8 * (k + 1)) (hcap : a.dataLen ≤ a.outCap) (outLen : Size) :
    decryptBuffers mode (separate m a) outLen =
      some (unpadOutcome (separate m a).out (mode.plainBytes m a) outLen) := by
  have hkeyLen : (separate m a).key.bytes.length = 8 := by
    rw [separate, length_copyRegion, hkey]
    rfl
  have hivLen : (separate m a).iv.bytes.length = 8 := by
    rw [separate, length_copyRegion, hiv]
    rfl
  have hdataLen : (separate m a).data.bytes.length = 8 * (k + 1) :=
    (length_copyRegion m a.data a.dataLen).trans hk
  have hroom : (separate m a).data.bytes.length ≤ (separate m a).out.bytes.length := by
    rw [hdataLen, ← hk, separate, length_copyRegion]
    exact hcap
  rw [decryptBuffers_eq mode hkeyLen hivLen hdataLen hroom, plainBytes_separate mode hkey hiv]

/-- Status, reported length and the decrypted bytes are those of the call with
separate buffers. -/
theorem decrypt_overlapping (mode : Mode) (m : Memory Unit) (a : ModeArgs Unit) (outLen : Size)
    (hv : mode.Valid m a) (hkey : a.keyLen = 8#64) (hiv : a.ivLen = 8#64)
    (hpos : a.dataLen ≠ 0#64) (hblocks : a.dataLen % 8#64 = 0#64) (hcap : a.dataLen ≤ a.outCap)
    (hstart : a.out.offset ≤ a.data.offset) :
    ∃ r d, mode.decrypt m a outLen = some r ∧
      decryptBuffers mode (separate m a) outLen = some d ∧
      r.status = d.status ∧ r.outLen = d.outLen ∧
      r.mem.bytes a.out a.dataLen.toNat = (d.out.take a.dataLen.toNat).bytes := by
  have hwhole : ¬PartialBlocks a.dataLen := not_or.mpr ⟨hpos, not_not.mpr hblocks⟩
  obtain ⟨k, hk⟩ := not_partialBlocks_iff.mp hwhole
  have hgood : ¬mode.BadLength a := by
    rintro (h | ⟨-, h⟩)
    · exact h hkey
    · exact h hiv
  have hlength : (mode.plainBytes m a).length = a.dataLen.toNat :=
    DesModesContract.length_plainBytes m hk
  have hread := Memory.bytes_write m a.out (mode.plainBytes m a)
  rw [hlength] at hread
  have hroom : (mode.plainBytes m a).length ≤ (separate m a).out.bytes.length := by
    rw [hlength, separate, length_copyRegion]
    exact hcap
  refine ⟨_, _, decrypt_write hv hgood hwhole hcap (.inr (.inl hstart)) outLen,
    decrypt_separate mode hkey hiv hk hcap outLen, ?_⟩
  rw [unpadOutcome_eq _ _ _ (m.write a.out (mode.plainBytes m a))]
  refine ⟨rfl, rfl, ?_⟩
  rw [unpadResult_mem, hread, Buffer.bytes_take, Buffer.bytes_overwrite _ hroom,
    List.take_left' hlength]

/-- The output four bytes before the ciphertext, over the key and part of the IV. -/
theorem decrypt_overlapping_four_bytes :
    let m : Memory Unit := ⟨fun _ => 40, fun _ i => BitVec.ofNat 8 i⟩
    let a : ModeArgs Unit := ⟨⟨(), 8⟩, 8#64, ⟨(), 20⟩, 8#64, ⟨(), 12⟩, 16#64, ⟨(), 8⟩, 16#64⟩
    ∃ r d, Mode.cbc.decrypt m a 0#64 = some r ∧
      decryptBuffers .cbc (separate m a) 0#64 = some d ∧
      r.status = d.status ∧ r.outLen = d.outLen ∧
      r.mem.bytes a.out a.dataLen.toNat = (d.out.take a.dataLen.toNat).bytes := by
  intro m a
  exact decrypt_overlapping .cbc m a 0#64 ⟨by decide, fun _ => by decide, by decide, by decide⟩ rfl
    rfl (by decide) (by decide) (by decide) (by decide)

end DesModesAliasing
