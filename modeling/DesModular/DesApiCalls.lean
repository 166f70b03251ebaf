import DesModular.DesModesContract

/-!
# Calls of the byte interface

`des_encrypt`, `des_decrypt` and `des_key_schedule` for any lengths and any layout of
their buffers: what they leave behind, and how they belong together.
-/
namespace DesApiCalls

open MachineWord ByteOrder ByteMemory DesKeySchedule DesBlock DesApi DesModesContract

variable {β : Type} [DecidableEq β]

/-- `des_encrypt` or `des_decrypt`, by the order of the subkeys. -/
def blockCall (order : DesKeyOrder) (m : Memory β) (key : Pointer β) (keyLen : Size)
    (input : Pointer β) (inputLen : Size) (out : Pointer β) : Option (DesStatus × Memory β) :=
  match order with
  | .forward => desEncrypt m key keyLen input inputLen out
  | .reverse => desDecrypt m key keyLen input inputLen out

variable {m : Memory β} {key input out : Pointer β} {keyLen inputLen : Size}

theorem blockCall_badLength (order : DesKeyOrder) (h : keyLen ≠ 8#64 ∨ inputLen ≠ 8#64)
    (m : Memory β) (key input out : Pointer β) :
    blockCall order m key keyLen input inputLen out = some (.errInvalidLength, m) := by
  cases order with
  | forward => simp only [blockCall, desEncrypt, if_pos h]
  | reverse => simp only [blockCall, desDecrypt, if_pos h]

/-- Both words are read before the result is written, so every overlap is allowed. -/
theorem blockCall_ok (order : DesKeyOrder) (hkey : m.InBounds key 8) (hinput : m.InBounds input 8)
    (hout : m.InBounds out 8) :
    blockCall order m key 8#64 input 8#64 out = some (.ok, m.write out
      (unpack 8 (desRun (pack (m.bytes input 8)) (pack (m.bytes key 8)) order))) := by
  have hguard : ¬((8#64 : Size) ≠ 8#64 ∨ (8#64 : Size) ≠ 8#64) := by simp
  cases order with
  | forward => exact desEncrypt_ok hkey hinput hout
  | reverse =>
    simp only [blockCall, desDecrypt, if_neg hguard, bytesToU64, u64ToBytes,
      Memory.loadBigEndian_eq hinput, Memory.loadBigEndian_eq hkey,
      Memory.storeBigEndian_eq hout, Option.bind_eq_bind, Option.bind_some, Option.pure_def,
      desDecryptBlock]

theorem differsOnlyIn_write (m : Memory β) (p : Pointer β) {bytes : Bytes} {n : Nat}
    (h : bytes.length = n) : DiffersOnlyIn m (m.write p bytes) p n := by
  subst h
  exact ⟨rfl, fun b i houtside => Memory.write_byte_outside m p bytes houtside⟩

/-- The opposite call on what a call has written, when the key was not written over. -/
theorem blockCall_opposite (order : DesKeyOrder) (hkey : m.InBounds key 8)
    (hout : m.InBounds out 8) (hapart : Apart out 8 key 8) {bytes : Bytes}
    (hbytes : bytes.length = 8) :
    blockCall order.opposite
      (m.write out (unpack 8 (desRun (pack bytes) (pack (m.bytes key 8)) order))) key 8#64 out 8#64
      out = some (.ok, m.write out bytes) := by
  have hread := Memory.bytes_write m out
    (unpack 8 (desRun (pack bytes) (pack (m.bytes key 8)) order))
  have hkept := Memory.bytes_write_apart m out key
    (unpack 8 (desRun (pack bytes) (pack (m.bytes key 8)) order)) 8
    (by rw [length_unpack]; exact hapart)
  rw [length_unpack] at hread
  rw [blockCall_ok _ ((Memory.write_inBounds ..).mpr hkey) ((Memory.write_inBounds ..).mpr hout)
    ((Memory.write_inBounds ..).mpr hout), hread, hkept, pack_unpack_eight, desRun, desRun,
    desProcessBlock_opposite, unpack_pack_eight hbytes, Memory.write_write _ _ (by simp [hbytes])]

/-- The byte interface, for any lengths and any layout of the buffers. A call with a wrong
length reports it and changes nothing, any other writes exactly the eight bytes of `out`:
the block transform of what the buffers held before the call, under the subkeys that
`des_key_schedule` returns for the key. Unless it wrote over the key, the opposite call in
place puts the input there. -/
theorem byte_interface (m : Memory β) (key input out : Pointer β) (keyLen inputLen : Size)
    (roundKeys : Vector U64 16) (hkey : m.InBounds key keyLen.toNat)
    (hinput : m.InBounds input inputLen.toNat) (hout : m.InBounds out 8) :
    (∀ order, ∃ status m', blockCall order m key keyLen input inputLen out = some (status, m') ∧
      (status = .errInvalidLength ↔ keyLen ≠ 8#64 ∨ inputLen ≠ 8#64) ∧
      (status = .ok ↔ keyLen = 8#64 ∧ inputLen = 8#64) ∧
      (status ≠ .ok → m' = m) ∧ DiffersOnlyIn m m' out 8) ∧
    (keyLen ≠ 8#64 →
      desKeySchedule m key keyLen roundKeys = some (.errInvalidLength, roundKeys)) ∧
    (keyLen = 8#64 → ∃ subkeys, desKeySchedule m key keyLen roundKeys = some (.ok, subkeys) ∧
      (inputLen = 8#64 → ∀ order, ∃ m',
        blockCall order m key keyLen input inputLen out = some (.ok, m') ∧
        m'.bytes out 8 = unpack 8 (desProcessBlock (pack (m.bytes input 8)) subkeys order) ∧
        (Apart out 8 key 8 → blockCall order.opposite m' key keyLen out inputLen out =
          some (.ok, m.write out (m.bytes input 8))))) := by
  refine ⟨?_, ?_, ?_⟩
  · intro order
    by_cases hlen : keyLen = 8#64 ∧ inputLen = 8#64
    · obtain ⟨rfl, rfl⟩ := hlen
      refine ⟨_, _, blockCall_ok order hkey hinput hout, by simp, by simp, by simp, ?_⟩
      exact differsOnlyIn_write m out (length_unpack 8 _)
    · have hbad : keyLen ≠ 8#64 ∨ inputLen ≠ 8#64 := not_and_or.mp hlen
      refine ⟨_, _, blockCall_badLength order hbad m key input out, by simp [hbad], by simp [hlen],
        fun _ => rfl, ?_⟩
      exact DiffersOnlyIn.refl m out 8
  · intro hbad
    simp only [desKeySchedule, if_pos hbad]
  · rintro rfl
    refine ⟨desGenerateRoundKeys (pack (m.bytes key 8)), ?_, ?_⟩
    · simp only [desKeySchedule, if_neg (not_not.mpr rfl), bytesToU64,
        Memory.loadBigEndian_eq (show m.InBounds key 8 from hkey), Option.bind_eq_bind,
        Option.bind_some, Option.pure_def]
    · rintro rfl order
      refine ⟨_, blockCall_ok order hkey hinput hout, ?_, ?_⟩
      · have hread := Memory.bytes_write m out
          (unpack 8 (desRun (pack (m.bytes input 8)) (pack (m.bytes key 8)) order))
        rw [length_unpack] at hread
        exact hread
      · intro hapart
        exact blockCall_opposite order hkey hout hapart (Memory.length_bytes m input 8)

/-- A block in place, behind its key. -/
theorem byte_interface_in_place :
    let m : Memory Unit := ⟨fun _ => 16, fun _ i => BitVec.ofNat 8 i⟩
    ∃ m', blockCall .forward m ⟨(), 0⟩ 8#64 ⟨(), 8⟩ 8#64 ⟨(), 8⟩ = some (.ok, m') ∧
      blockCall .reverse m' ⟨(), 0⟩ 8#64 ⟨(), 8⟩ 8#64 ⟨(), 8⟩ =
        some (.ok, m.write ⟨(), 8⟩ (m.bytes ⟨(), 8⟩ 8)) := by
  intro m
  obtain ⟨-, -, hcalls⟩ := byte_interface m ⟨(), 0⟩ ⟨(), 8⟩ ⟨(), 8⟩ 8#64 8#64
    (Vector.replicate 16 0#64) (by decide) (by decide) (by decide)
  obtain ⟨subkeys, -, hblock⟩ := hcalls rfl
  obtain ⟨m', hm', -, hback⟩ := hblock rfl .forward
  exact ⟨m', hm', hback (by decide)⟩

end DesApiCalls
