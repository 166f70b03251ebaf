import DesModular.DesModeCalls

/-!
# Errors and frame of the mode functions

Which status a call returns, and what it leaves unchanged, for any memory that
holds the caller's buffers.
-/
namespace DesModesContract

open MachineWord ByteOrder ByteMemory DesModes DesModesSpec DesModeCalls
open DesApi (Size DesStatus)

variable {β : Type}

/-- Two memories that differ at most in the `n` bytes at `p`. -/
structure DiffersOnlyIn (m m' : Memory β) (p : Pointer β) (n : Nat) : Prop where
  size : m'.size = m.size
  byte : ∀ b i, ¬(b = p.block ∧ p.offset ≤ i ∧ i < p.offset + n) → m'.byte b i = m.byte b i

theorem DiffersOnlyIn.refl (m : Memory β) (p : Pointer β) (n : Nat) : DiffersOnlyIn m m p n :=
  ⟨rfl, fun _ _ _ => rfl⟩

/-- The padding of a string is well formed when padding some data produces it. -/
def WellPadded (bytes : Bytes) : Prop := ∃ data, Pkcs7.pad 8 data = bytes

structure EncryptContract (mode : Mode) (m : Memory β) (a : ModeArgs β) (outLen : Size)
    (r : ModeResult β) : Prop where
  invalidLength : r.status = .errInvalidLength ↔ mode.BadLength a
  bufferTooSmall : r.status = .errBufferTooSmall ↔
    ¬mode.BadLength a ∧ a.outCap < desPaddedLen a.dataLen
  ok : r.status = .ok ↔ ¬mode.BadLength a ∧ desPaddedLen a.dataLen ≤ a.outCap
  neverPadding : r.status ≠ .errInvalidPadding
  outLen : r.status ≠ .ok → r.outLen = outLen
  untouched : r.status = .errInvalidLength ∨ r.status = .errBufferTooSmall → r.mem = m
  frame : DiffersOnlyIn m r.mem a.out (desPaddedLen a.dataLen).toNat

/-- The bytes written by a decryption are the ones whose padding counts. -/
structure DecryptContract (mode : Mode) (m : Memory β) (a : ModeArgs β) (outLen : Size)
    (r : ModeResult β) : Prop where
  invalidLength : r.status = .errInvalidLength ↔ mode.BadLength a ∨ PartialBlocks a.dataLen
  bufferTooSmall : r.status = .errBufferTooSmall ↔
    ¬(mode.BadLength a ∨ PartialBlocks a.dataLen) ∧ a.outCap < a.dataLen
  ok : r.status = .ok ↔ ¬(mode.BadLength a ∨ PartialBlocks a.dataLen) ∧ a.dataLen ≤ a.outCap ∧
    WellPadded (mode.plainBytes m a)
  invalidPadding : r.status = .errInvalidPadding ↔
    ¬(mode.BadLength a ∨ PartialBlocks a.dataLen) ∧ a.dataLen ≤ a.outCap ∧
      ¬WellPadded (mode.plainBytes m a)
  decrypted : r.status = .ok ∨ r.status = .errInvalidPadding →
    r.mem.bytes a.out a.dataLen.toNat = mode.plainBytes m a
  outLen : r.status ≠ .ok → r.outLen = outLen
  untouched : r.status = .errInvalidLength ∨ r.status = .errBufferTooSmall → r.mem = m
  frame : DiffersOnlyIn m r.mem a.out a.dataLen.toNat

/-! ## Early errors -/

theorem encryptContract_badLength {mode : Mode} {a : ModeArgs β} (h : mode.BadLength a)
    (m : Memory β) (outLen : Size) :
    EncryptContract mode m a outLen ⟨.errInvalidLength, m, outLen⟩ where
  invalidLength := ⟨fun _ => h, fun _ => rfl⟩
  bufferTooSmall := ⟨nofun, fun hs => absurd h hs.1⟩
  ok := ⟨nofun, fun hs => absurd h hs.1⟩
  neverPadding := nofun
  outLen := fun _ => rfl
  untouched := fun _ => rfl
  frame := .refl m _ _

theorem encryptContract_small {mode : Mode} {a : ModeArgs β} (hlen : ¬mode.BadLength a)
    (h : a.outCap < desPaddedLen a.dataLen) (m : Memory β) (outLen : Size) :
    EncryptContract mode m a outLen ⟨.errBufferTooSmall, m, outLen⟩ where
  invalidLength := ⟨nofun, fun hs => absurd hs hlen⟩
  bufferTooSmall := ⟨fun _ => ⟨hlen, h⟩, fun _ => rfl⟩
  ok := ⟨nofun, fun hs => absurd h (BitVec.not_lt.mpr hs.2)⟩
  neverPadding := nofun
  outLen := fun _ => rfl
  untouched := fun _ => rfl
  frame := .refl m _ _

theorem decryptContract_badLength {mode : Mode} {a : ModeArgs β}
    (h : mode.BadLength a ∨ PartialBlocks a.dataLen) (m : Memory β) (outLen : Size) :
    DecryptContract mode m a outLen ⟨.errInvalidLength, m, outLen⟩ where
  invalidLength := ⟨fun _ => h, fun _ => rfl⟩
  bufferTooSmall := ⟨nofun, fun hs => absurd h hs.1⟩
  ok := ⟨nofun, fun hs => absurd h hs.1⟩
  invalidPadding := ⟨nofun, fun hs => absurd h hs.1⟩
  decrypted := fun hs => by obtain hs | hs := hs <;> cases hs
  outLen := fun _ => rfl
  untouched := fun _ => rfl
  frame := .refl m _ _

theorem decryptContract_small {mode : Mode} {a : ModeArgs β}
    (hlen : ¬(mode.BadLength a ∨ PartialBlocks a.dataLen)) (h : a.outCap < a.dataLen)
    (m : Memory β) (outLen : Size) :
    DecryptContract mode m a outLen ⟨.errBufferTooSmall, m, outLen⟩ where
  invalidLength := ⟨nofun, fun hs => absurd hs hlen⟩
  bufferTooSmall := ⟨fun _ => ⟨hlen, h⟩, fun _ => rfl⟩
  ok := ⟨nofun, fun hs => absurd h (BitVec.not_lt.mpr hs.2.1)⟩
  invalidPadding := ⟨nofun, fun hs => absurd h (BitVec.not_lt.mpr hs.2.1)⟩
  decrypted := fun hs => by obtain hs | hs := hs <;> cases hs
  outLen := fun _ => rfl
  untouched := fun _ => rfl
  frame := .refl m _ _

/-! ## Well-formed padding -/

/-- A string of whole blocks is unpadded exactly when its padding is well formed. -/
theorem wellPadded_iff {bytes : Bytes} {k : Nat} (hlen : bytes.length = 8 * (k + 1)) :
    WellPadded bytes ↔ ∃ n, Pkcs7.unpad 8 bytes = some n := by
  constructor
  · rintro ⟨data, hpad⟩
    exact ⟨data.length, (Pkcs7.unpad_eq_some_iff (by decide) (by decide) hlen).mpr
      ⟨data, hpad, rfl⟩⟩
  · rintro ⟨n, hn⟩
    obtain ⟨data, hpad, -⟩ := (Pkcs7.unpad_eq_some_iff (by decide) (by decide) hlen).mp hn
    exact ⟨data, hpad⟩

theorem length_plainBytes {mode : Mode} (m : Memory β) {a : ModeArgs β} {k : Nat}
    (hk : a.dataLen.toNat = 8 * (k + 1)) : (mode.plainBytes m a).length = a.dataLen.toNat := by
  rw [Mode.plainBytes, length_decryptBytes, Memory.length_bytes]
  omega

/-! ## Encryption -/

variable [DecidableEq β]

theorem differsOnlyIn_write (m : Memory β) (p : Pointer β) {bs : Bytes} {n : Nat}
    (h : bs.length ≤ n) : DiffersOnlyIn m (m.write p bs) p n := by
  refine ⟨rfl, ?_⟩
  intro b i hout
  apply Memory.write_byte_outside
  rintro ⟨hb, hl, hu⟩
  exact hout ⟨hb, hl, by omega⟩

theorem encryptContract_ok {mode : Mode} {m : Memory β} {a : ModeArgs β} {bs : Bytes}
    (hlen : ¬mode.BadLength a) (h : desPaddedLen a.dataLen ≤ a.outCap)
    (hbs : bs.length = (desPaddedLen a.dataLen).toNat) (outLen : Size) :
    EncryptContract mode m a outLen ⟨.ok, m.write a.out bs, desPaddedLen a.dataLen⟩ where
  invalidLength := ⟨nofun, fun hs => absurd hs hlen⟩
  bufferTooSmall := ⟨nofun, fun hs => absurd hs.2 (BitVec.not_lt.mpr h)⟩
  ok := ⟨fun _ => ⟨hlen, h⟩, fun _ => rfl⟩
  neverPadding := nofun
  outLen := fun hs => absurd rfl hs
  untouched := fun hs => by obtain hs | hs := hs <;> cases hs
  frame := differsOnlyIn_write m a.out (Nat.le_of_eq hbs)

/-- Every call with buffers of the stated lengths returns, and meets the contract. -/
theorem encrypt_contract {mode : Mode} {m : Memory β} {a : ModeArgs β} (hv : mode.Valid m a)
    (hwrap : a.dataLen.toNat + Pkcs7.padCount 8 a.dataLen.toNat < 2 ^ 64)
    (hapart : Apart a.out a.outCap.toNat a.data a.dataLen.toNat) (outLen : Size) :
    ∃ r, mode.encrypt m a outLen = some r ∧ EncryptContract mode m a outLen r := by
  by_cases hlen : mode.BadLength a
  · exact ⟨_, encrypt_badLength hlen m outLen, encryptContract_badLength hlen m outLen⟩
  · by_cases hsmall : a.outCap < desPaddedLen a.dataLen
    · exact ⟨_, encrypt_small hlen hsmall m outLen, encryptContract_small hlen hsmall m outLen⟩
    · have hfits : desPaddedLen a.dataLen ≤ a.outCap := BitVec.not_lt.mp hsmall
      have hsize := toNat_desPaddedLen hwrap
      have hcap : a.dataLen.toNat + Pkcs7.padCount 8 a.dataLen.toNat ≤ a.outCap.toNat := by
        rw [← hsize]
        exact hfits
      refine ⟨_, encrypt_write hv hlen hwrap hcap hapart outLen,
        encryptContract_ok hlen hfits ?_ outLen⟩
      rw [length_encryptBytes, Pkcs7.length_pad, Memory.length_bytes, hsize,
        Pkcs7.length_add_padCount (by decide), Nat.mul_div_cancel_left _ (by decide)]

/-! ## Decryption -/

theorem decryptContract_unpad {mode : Mode} {m : Memory β} {a : ModeArgs β} {k : Nat}
    (hlen : ¬(mode.BadLength a ∨ PartialBlocks a.dataLen)) (h : a.dataLen ≤ a.outCap)
    (hk : a.dataLen.toNat = 8 * (k + 1))
    (hbytes : (mode.plainBytes m a).length = a.dataLen.toNat) (outLen : Size) :
    DecryptContract mode m a outLen
      (unpadResult (m.write a.out (mode.plainBytes m a)) (mode.plainBytes m a) outLen) := by
  have hpadded := wellPadded_iff (hbytes.trans hk)
  have hread := Memory.bytes_write m a.out (mode.plainBytes m a)
  rw [hbytes] at hread
  have hframe := differsOnlyIn_write m a.out (Nat.le_of_eq hbytes)
  have hfits := BitVec.not_lt.mpr h
  cases hunpad : Pkcs7.unpad 8 (mode.plainBytes m a) with
  | some n =>
    have hwell : WellPadded (mode.plainBytes m a) := hpadded.mpr ⟨n, hunpad⟩
    rw [unpadResult_some hunpad]
    exact {
      invalidLength := ⟨nofun, fun hs => absurd hs hlen⟩
      bufferTooSmall := ⟨nofun, fun hs => absurd hs.2 hfits⟩
      ok := ⟨fun _ => ⟨hlen, h, hwell⟩, fun _ => rfl⟩
      invalidPadding := ⟨nofun, fun hs => absurd hwell hs.2.2⟩
      decrypted := fun _ => hread
      outLen := fun hs => absurd rfl hs
      untouched := fun hs => by obtain hs | hs := hs <;> cases hs
      frame := hframe }
  | none =>
    have hbad : ¬WellPadded (mode.plainBytes m a) := by
      intro hwell
      obtain ⟨n, hn⟩ := hpadded.mp hwell
      rw [hunpad] at hn
      cases hn
    rw [unpadResult_none hunpad]
    exact {
      invalidLength := ⟨nofun, fun hs => absurd hs hlen⟩
      bufferTooSmall := ⟨nofun, fun hs => absurd hs.2 hfits⟩
      ok := ⟨nofun, fun hs => absurd hs.2.2 hbad⟩
      invalidPadding := ⟨fun _ => ⟨hlen, h, hbad⟩, fun _ => rfl⟩
      decrypted := fun _ => hread
      outLen := fun _ => rfl
      untouched := fun hs => by obtain hs | hs := hs <;> cases hs
      frame := hframe }

theorem decrypt_contract {mode : Mode} {m : Memory β} {a : ModeArgs β} (hv : mode.Valid m a)
    (hlayout : Trails a.data a.out a.dataLen.toNat) (outLen : Size) :
    ∃ r, mode.decrypt m a outLen = some r ∧ DecryptContract mode m a outLen r := by
  by_cases hlen : mode.BadLength a ∨ PartialBlocks a.dataLen
  · exact ⟨_, decrypt_badLength hlen m outLen, decryptContract_badLength hlen m outLen⟩
  · obtain ⟨hgood, hblocks⟩ := not_or.mp hlen
    by_cases hsmall : a.outCap < a.dataLen
    · exact ⟨_, decrypt_small hgood hblocks hsmall m outLen,
        decryptContract_small hlen hsmall m outLen⟩
    · have hfits : a.dataLen ≤ a.outCap := BitVec.not_lt.mp hsmall
      obtain ⟨k, hk⟩ := not_partialBlocks_iff.mp hblocks
      exact ⟨_, decrypt_write hv hgood hblocks hfits hlayout outLen,
        decryptContract_unpad hlen hfits hk (length_plainBytes m hk) outLen⟩

/-- Errors and frame of all four functions. Encryption needs its output apart from the
plaintext, decryption allows `out` to overlap anything it does not run into. -/
theorem mode_contract (mode : Mode) (m : Memory β) (a : ModeArgs β) (outLen : Size)
    (hv : mode.Valid m a) :
    (a.dataLen.toNat + Pkcs7.padCount 8 a.dataLen.toNat < 2 ^ 64 →
      Apart a.out a.outCap.toNat a.data a.dataLen.toNat →
      ∃ r, mode.encrypt m a outLen = some r ∧ EncryptContract mode m a outLen r) ∧
    (Trails a.data a.out a.dataLen.toNat →
      ∃ r, mode.decrypt m a outLen = some r ∧ DecryptContract mode m a outLen r) :=
  ⟨fun hwrap hapart => encrypt_contract hv hwrap hapart outLen,
    fun hlayout => decrypt_contract hv hlayout outLen⟩

/-- One array with the key, the IV, one block of data and two of output. -/
theorem mode_contract_one_array :
    let m : Memory Unit := ⟨fun _ => 40, fun _ i => BitVec.ofNat 8 i⟩
    let a : ModeArgs Unit := ⟨⟨(), 0⟩, 8#64, ⟨(), 8⟩, 8#64, ⟨(), 16⟩, 8#64, ⟨(), 24⟩, 16#64⟩
    (∃ r, Mode.cbc.encrypt m a 0#64 = some r ∧ EncryptContract .cbc m a 0#64 r) ∧
      ∃ r, Mode.cbc.decrypt m a 0#64 = some r ∧ DecryptContract .cbc m a 0#64 r := by
  intro m a
  have hv : Mode.cbc.Valid m a := ⟨by decide, fun _ => by decide, by decide, by decide⟩
  obtain ⟨hencrypt, hdecrypt⟩ := mode_contract .cbc m a 0#64 hv
  exact ⟨hencrypt (by decide) (by decide), hdecrypt (.of_apart (n := 16) (by decide))⟩

end DesModesContract
