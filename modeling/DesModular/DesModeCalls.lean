import DesModular.DesModesSpec

/-!
# The four mode functions as operations on byte strings

Encryption and decryption for both modes, with every case of their results: the
two early errors, and the bytes written once the arguments are accepted.
-/
namespace DesModeCalls

open MachineWord ByteOrder ByteMemory Transducer DesBlock DesModes DesModesSpec
open DesApi (Size DesStatus)

inductive Mode where
  | ecb | cbc
  deriving DecidableEq, Repr

/-- The arguments of a call, with `data` the plaintext or the ciphertext. ECB takes
no IV. -/
structure ModeArgs (β : Type) where
  key : Pointer β
  keyLen : Size
  iv : Pointer β
  ivLen : Size
  data : Pointer β
  dataLen : Size
  out : Pointer β
  outCap : Size

/-! ## Bytes in, bytes out -/

/-- The ciphertext blocks of a string of whole blocks. -/
def Mode.encryptBytes (mode : Mode) (key iv bytes : Bytes) : Bytes :=
  match mode with
  | .ecb => applyStep (ecbEncryptStep (pack key)) () bytes
  | .cbc => applyStep (cbcEncryptStep (pack key)) (pack iv) bytes

def Mode.decryptBytes (mode : Mode) (key iv bytes : Bytes) : Bytes :=
  match mode with
  | .ecb => applyStep (ecbDecryptStep (pack key)) () bytes
  | .cbc => applyStep (cbcDecryptStep (pack key)) (pack iv) bytes

@[simp] theorem length_encryptBytes (mode : Mode) (key iv bytes : Bytes) :
    (mode.encryptBytes key iv bytes).length = 8 * (bytes.length / 8) := by
  cases mode <;> exact length_applyStep _ _ bytes

@[simp] theorem length_decryptBytes (mode : Mode) (key iv bytes : Bytes) :
    (mode.decryptBytes key iv bytes).length = 8 * (bytes.length / 8) := by
  cases mode <;> exact length_applyStep _ _ bytes

theorem length_decryptBytes_whole (mode : Mode) (key iv : Bytes) {bytes : Bytes} {n : Nat}
    (h : bytes.length = 8 * n) : (mode.decryptBytes key iv bytes).length = 8 * n := by
  rw [length_decryptBytes, h, Nat.mul_div_cancel_left _ (by decide)]

theorem ecbDecryptStep_undoes (keyValue : U64) :
    Undoes (ecbDecryptStep keyValue) (ecbEncryptStep keyValue) := by
  intro carry block
  simp only [ecbDecryptStep, ecbEncryptStep, desDecryptBlock_encrypt]

theorem ecbEncryptStep_undoes (keyValue : U64) :
    Undoes (ecbEncryptStep keyValue) (ecbDecryptStep keyValue) := by
  intro carry block
  simp only [ecbDecryptStep, ecbEncryptStep, desEncryptBlock_decrypt]

theorem cbcDecryptStep_undoes (keyValue : U64) :
    Undoes (cbcDecryptStep keyValue) (cbcEncryptStep keyValue) := by
  intro previous plain
  simp only [cbcDecryptStep, cbcEncryptStep, desDecryptBlock_encrypt,
    xor_cancel_right]

theorem cbcEncryptStep_undoes (keyValue : U64) :
    Undoes (cbcEncryptStep keyValue) (cbcDecryptStep keyValue) := by
  intro previous current
  simp only [cbcDecryptStep, cbcEncryptStep, xor_cancel_right, desEncryptBlock_decrypt]

theorem decryptBytes_encryptBytes (mode : Mode) (key iv : Bytes) {bytes : Bytes}
    (h : bytes.length % 8 = 0) :
    mode.decryptBytes key iv (mode.encryptBytes key iv bytes) = bytes := by
  cases mode with
  | ecb => exact applyStep_applyStep (ecbDecryptStep_undoes _) _ h
  | cbc => exact applyStep_applyStep (cbcDecryptStep_undoes _) _ h

theorem encryptBytes_decryptBytes (mode : Mode) (key iv : Bytes) {bytes : Bytes}
    (h : bytes.length % 8 = 0) :
    mode.encryptBytes key iv (mode.decryptBytes key iv bytes) = bytes := by
  cases mode with
  | ecb => exact applyStep_applyStep (ecbEncryptStep_undoes _) _ h
  | cbc => exact applyStep_applyStep (cbcEncryptStep_undoes _) _ h

/-! ## The chaining value -/

/-- The block before a block is the IV or a block of the ciphertext. -/
theorem length_previous {iv cipher : Bytes} (hiv : iv.length = 8) {i : Nat}
    (h : 8 * i ≤ cipher.length) : (if i = 0 then iv else blockAt cipher (i - 1)).length = 8 := by
  split
  · exact hiv
  · exact length_blockAt (by omega)

/-- Past `i` blocks the encryption loop carries the last one it wrote. -/
theorem final_encrypt (key iv : Bytes) {bytes : Bytes} {n i : Nat} (hlen : bytes.length = 8 * n)
    (hi : i ≤ n) :
    final (cbcEncryptStep (pack key)) (pack iv) ((toWords n bytes).take i) =
      pack (if i = 0 then iv else blockAt (Mode.cbc.encryptBytes key iv bytes) (i - 1)) := by
  have hdiv : bytes.length / 8 = n := by omega
  simp only [Mode.encryptBytes, applyStep, hdiv]
  cases i with
  | zero => rfl
  | succ i =>
    have hlast : i < (output (cbcEncryptStep (pack key)) (pack iv) (toWords n bytes)).length := by
      rwa [length_output, length_toWords]
    rw [if_neg (Nat.succ_ne_zero i), Nat.add_sub_cancel, blockAt_ofWords _ i hlast,
      pack_unpack_eight, final_eq_getElem_output (fun _ _ => rfl) _ _ i hlast]

/-- Past `i` blocks the decryption loop carries the last one it read. -/
theorem final_decrypt (key iv cipher : Bytes) {n i : Nat} (hi : i ≤ n) :
    final (cbcDecryptStep (pack key)) (pack iv) ((toWords n cipher).take i) =
      pack (if i = 0 then iv else blockAt cipher (i - 1)) := by
  cases i with
  | zero => rfl
  | succ i =>
    have hlast : i < (toWords n cipher).length := by rwa [length_toWords]
    rw [final_eq_getElem (fun _ _ => rfl) _ _ i hlast, getElem_toWords,
      if_neg (Nat.succ_ne_zero i), Nat.add_sub_cancel]

/-! ## Calls -/

variable {β : Type} [DecidableEq β]

def Mode.encrypt (mode : Mode) (m : Memory β) (a : ModeArgs β) (outLen : Size) :
    Option (ModeResult β) :=
  match mode with
  | .ecb => desEcbEncrypt m a.key a.keyLen a.data a.dataLen a.out a.outCap outLen
  | .cbc => desCbcEncrypt m a.key a.keyLen a.iv a.ivLen a.data a.dataLen a.out a.outCap outLen

def Mode.decrypt (mode : Mode) (m : Memory β) (a : ModeArgs β) (outLen : Size) :
    Option (ModeResult β) :=
  match mode with
  | .ecb => desEcbDecrypt m a.key a.keyLen a.data a.dataLen a.out a.outCap outLen
  | .cbc => desCbcDecrypt m a.key a.keyLen a.iv a.ivLen a.data a.dataLen a.out a.outCap outLen

section Arguments

omit [DecidableEq β]

/-- The key or the IV has the wrong length. -/
def Mode.BadLength (mode : Mode) (a : ModeArgs β) : Prop :=
  a.keyLen ≠ 8#64 ∨ mode = .cbc ∧ a.ivLen ≠ 8#64

instance (mode : Mode) (a : ModeArgs β) : Decidable (mode.BadLength a) :=
  inferInstanceAs (Decidable (_ ∨ _))

/-- Every buffer has the length the caller states. -/
structure Mode.Valid (mode : Mode) (m : Memory β) (a : ModeArgs β) : Prop where
  key : m.InBounds a.key a.keyLen.toNat
  iv : mode = .cbc → m.InBounds a.iv a.ivLen.toNat
  data : m.InBounds a.data a.dataLen.toNat
  out : m.InBounds a.out a.outCap.toNat

theorem Mode.Valid.keyBytes {mode : Mode} {m : Memory β} {a : ModeArgs β} (h : mode.Valid m a)
    (hlen : ¬mode.BadLength a) : m.InBounds a.key 8 := by
  have hkey : a.keyLen = 8#64 := by
    by_contra hne
    exact hlen (.inl hne)
  have hbounds := h.key
  rw [hkey] at hbounds
  exact hbounds

theorem Mode.Valid.ivBytes {m : Memory β} {a : ModeArgs β} (h : Mode.cbc.Valid m a)
    (hlen : ¬Mode.cbc.BadLength a) : m.InBounds a.iv 8 := by
  have hiv : a.ivLen = 8#64 := by
    by_contra hne
    exact hlen (.inr ⟨rfl, hne⟩)
  have hbounds := h.iv rfl
  rw [hiv] at hbounds
  exact hbounds

theorem keyLen_guard {mode : Mode} {a : ModeArgs β} (h : ¬mode.BadLength a) :
    ¬a.keyLen ≠ 8#64 := fun hkey => h (.inl hkey)

theorem ivLen_guard {a : ModeArgs β} (h : ¬Mode.cbc.BadLength a) : ¬a.ivLen ≠ 8#64 :=
  fun hiv => h (.inr ⟨rfl, hiv⟩)

theorem ecbDecrypt_guard {a : ModeArgs β} (hlen : ¬Mode.ecb.BadLength a)
    (hblocks : ¬PartialBlocks a.dataLen) :
    ¬(a.keyLen ≠ 8#64 ∨ a.dataLen = 0#64 ∨ a.dataLen % 8#64 ≠ 0#64) :=
  not_or.mpr ⟨keyLen_guard hlen, hblocks⟩

theorem cbcDecrypt_guard {a : ModeArgs β} (hlen : ¬Mode.cbc.BadLength a)
    (hblocks : ¬PartialBlocks a.dataLen) :
    ¬(a.keyLen ≠ 8#64 ∨ a.ivLen ≠ 8#64 ∨ a.dataLen = 0#64 ∨ a.dataLen % 8#64 ≠ 0#64) :=
  not_or.mpr ⟨keyLen_guard hlen, not_or.mpr ⟨ivLen_guard hlen, hblocks⟩⟩

end Arguments

/-! ## Encryption -/

/-- The block loop over its own output, after the padding was written there. -/
theorem blockLoop_inPlace {τ : Type} (step : τ → U64 → τ × U64) {out : Pointer β} {len : Size}
    {padded : Bytes} {n : Nat} (hpadded : padded.length = 8 * n) (hlen : len.toNat = padded.length)
    {m : Memory β} (hout : m.InBounds out padded.length) (carry : τ) :
    ∃ s, blockLoop step out out len (m.write out padded) carry = some s ∧
      s.mem = m.write out (applyStep step carry padded) := by
  have hbounds : (m.write out padded).InBounds out len.toNat := by
    rw [hlen]
    exact hout
  obtain ⟨s, hs, hmem⟩ := blockLoop_eq step (Trails.refl out _) (hlen.trans hpadded) hbounds hbounds
    carry
  have hdiv : 8 * n / 8 = n := by omega
  refine ⟨s, hs, ?_⟩
  rw [hmem, hlen, Memory.bytes_write, Memory.write_write]
  rw [length_applyStep, hpadded, hdiv]

theorem encrypt_badLength {mode : Mode} {a : ModeArgs β} (h : mode.BadLength a) (m : Memory β)
    (outLen : Size) : mode.encrypt m a outLen = some ⟨.errInvalidLength, m, outLen⟩ := by
  cases mode with
  | ecb =>
    obtain h | ⟨hmode, -⟩ := h
    · simp only [Mode.encrypt, desEcbEncrypt, if_pos h]
    · cases hmode
  | cbc =>
    have hguard : a.keyLen ≠ 8#64 ∨ a.ivLen ≠ 8#64 := h.imp_right And.right
    simp only [Mode.encrypt, desCbcEncrypt, if_pos hguard]

theorem encrypt_small {mode : Mode} {a : ModeArgs β} (hlen : ¬mode.BadLength a)
    (h : a.outCap < desPaddedLen a.dataLen) (m : Memory β) (outLen : Size) :
    mode.encrypt m a outLen = some ⟨.errBufferTooSmall, m, outLen⟩ := by
  cases mode with
  | ecb =>
    simp only [Mode.encrypt, desEcbEncrypt, if_neg (keyLen_guard hlen), desPkcs7Pad_small h,
      Option.bind_eq_bind, Option.bind_some]
    rfl
  | cbc =>
    have hguard : ¬(a.keyLen ≠ 8#64 ∨ a.ivLen ≠ 8#64) :=
      not_or.mpr ⟨keyLen_guard hlen, ivLen_guard hlen⟩
    simp only [Mode.encrypt, desCbcEncrypt, if_neg hguard, desPkcs7Pad_small h,
      Option.bind_eq_bind, Option.bind_some]
    rfl

/-- A padded length that wraps never leads to a result. -/
theorem encrypt_wrap {mode : Mode} {m : Memory β} {a : ModeArgs β} (hlen : ¬mode.BadLength a)
    (h : 2 ^ 64 ≤ a.dataLen.toNat + Pkcs7.padCount 8 a.dataLen.toNat)
    (hsize : m.size a.out.block < a.out.offset + 2 ^ 64) (outLen : Size) :
    mode.encrypt m a outLen = none := by
  cases mode with
  | ecb =>
    simp only [Mode.encrypt, desEcbEncrypt, if_neg (keyLen_guard hlen), desPkcs7Pad_wrap h hsize,
      Option.bind_eq_bind, Option.bind_none]
  | cbc =>
    have hguard : ¬(a.keyLen ≠ 8#64 ∨ a.ivLen ≠ 8#64) :=
      not_or.mpr ⟨keyLen_guard hlen, ivLen_guard hlen⟩
    simp only [Mode.encrypt, desCbcEncrypt, if_neg hguard, desPkcs7Pad_wrap h hsize,
      Option.bind_eq_bind, Option.bind_none]

/-- Accepted arguments: the padded data is enciphered into `out`. The key and the IV
are read after the padding was written. -/
theorem encrypt_copied {mode : Mode} {m : Memory β} {a : ModeArgs β} (hv : mode.Valid m a)
    (hlen : ¬mode.BadLength a)
    (hwrap : a.dataLen.toNat + Pkcs7.padCount 8 a.dataLen.toNat < 2 ^ 64)
    (hcap : a.dataLen.toNat + Pkcs7.padCount 8 a.dataLen.toNat ≤ a.outCap.toNat)
    (hapart : Apart a.out a.dataLen.toNat a.data a.dataLen.toNat) (outLen : Size) :
    let padded := Pkcs7.pad 8 (m.bytes a.data a.dataLen.toNat)
    let paddedMem := m.write a.out padded
    mode.encrypt m a outLen = some ⟨.ok, m.write a.out
      (mode.encryptBytes (paddedMem.bytes a.key 8) (paddedMem.bytes a.iv 8) padded),
      desPaddedLen a.dataLen⟩ := by
  intro padded paddedMem
  have hpad := desPkcs7Pad_copied hwrap hcap hv.data hv.out hapart 0#64
  have hlength : padded.length = a.dataLen.toNat + Pkcs7.padCount 8 a.dataLen.toNat := by
    simp [padded]
  have hblocks := hlength.trans (Pkcs7.length_add_padCount (by decide) a.dataLen.toNat)
  have hsize : (desPaddedLen a.dataLen).toNat = padded.length := by
    rw [toNat_desPaddedLen hwrap, hlength]
  have hout : m.InBounds a.out padded.length := hv.out.mono (by omega)
  have hkey := Memory.loadBigEndian_eq (m := paddedMem) (hv.keyBytes hlen)
  cases mode with
  | ecb =>
    obtain ⟨s, hs, hmem⟩ := blockLoop_inPlace (ecbEncryptStep (pack (paddedMem.bytes a.key 8)))
      hblocks hsize hout ()
    simp only [Mode.encrypt, desEcbEncrypt, if_neg (keyLen_guard hlen), hpad, Option.bind_eq_bind,
      Option.bind_some, bytesToU64]
    rw [if_neg (not_not.mpr rfl), hkey, Option.bind_some, hs, Option.bind_some, hmem]
    rfl
  | cbc =>
    have hguard : ¬(a.keyLen ≠ 8#64 ∨ a.ivLen ≠ 8#64) :=
      not_or.mpr ⟨keyLen_guard hlen, ivLen_guard hlen⟩
    have hiv := Memory.loadBigEndian_eq (m := paddedMem) (hv.ivBytes hlen)
    obtain ⟨s, hs, hmem⟩ := blockLoop_inPlace (cbcEncryptStep (pack (paddedMem.bytes a.key 8)))
      hblocks hsize hout (pack (paddedMem.bytes a.iv 8))
    simp only [Mode.encrypt, desCbcEncrypt, if_neg hguard, hpad, Option.bind_eq_bind,
      Option.bind_some, bytesToU64]
    rw [if_neg (not_not.mpr rfl), hkey, Option.bind_some, hiv, Option.bind_some, hs,
      Option.bind_some, hmem]
    rfl

theorem encrypt_write {mode : Mode} {m : Memory β} {a : ModeArgs β} (hv : mode.Valid m a)
    (hlen : ¬mode.BadLength a)
    (hwrap : a.dataLen.toNat + Pkcs7.padCount 8 a.dataLen.toNat < 2 ^ 64)
    (hcap : a.dataLen.toNat + Pkcs7.padCount 8 a.dataLen.toNat ≤ a.outCap.toNat)
    (hapart : Apart a.out a.outCap.toNat a.data a.dataLen.toNat) (outLen : Size) :
    let padded := Pkcs7.pad 8 (m.bytes a.data a.dataLen.toNat)
    let paddedMem := m.write a.out padded
    mode.encrypt m a outLen = some ⟨.ok, m.write a.out
      (mode.encryptBytes (paddedMem.bytes a.key 8) (paddedMem.bytes a.iv 8) padded),
      desPaddedLen a.dataLen⟩ :=
  encrypt_copied hv hlen hwrap hcap (hapart.mono (by omega) (Nat.le_refl _)) outLen

/-! ## Decryption -/

theorem decrypt_badLength {mode : Mode} {a : ModeArgs β}
    (h : mode.BadLength a ∨ PartialBlocks a.dataLen) (m : Memory β) (outLen : Size) :
    mode.decrypt m a outLen = some ⟨.errInvalidLength, m, outLen⟩ := by
  cases mode with
  | ecb =>
    have hguard : a.keyLen ≠ 8#64 ∨ a.dataLen = 0#64 ∨ a.dataLen % 8#64 ≠ 0#64 := by
      obtain (h | ⟨hmode, -⟩) | h := h
      · exact .inl h
      · cases hmode
      · exact .inr h
    simp only [Mode.decrypt, desEcbDecrypt, if_pos hguard]
  | cbc =>
    have hguard : a.keyLen ≠ 8#64 ∨ a.ivLen ≠ 8#64 ∨ a.dataLen = 0#64 ∨
        a.dataLen % 8#64 ≠ 0#64 := by
      obtain (h | ⟨-, h⟩) | h := h
      · exact .inl h
      · exact .inr (.inl h)
      · exact .inr (.inr h)
    simp only [Mode.decrypt, desCbcDecrypt, if_pos hguard]

theorem decrypt_small {mode : Mode} {a : ModeArgs β} (hlen : ¬mode.BadLength a)
    (hblocks : ¬PartialBlocks a.dataLen) (h : a.outCap < a.dataLen) (m : Memory β)
    (outLen : Size) : mode.decrypt m a outLen = some ⟨.errBufferTooSmall, m, outLen⟩ := by
  cases mode with
  | ecb => simp only [Mode.decrypt, desEcbDecrypt, if_neg (ecbDecrypt_guard hlen hblocks), if_pos h]
  | cbc => simp only [Mode.decrypt, desCbcDecrypt, if_neg (cbcDecrypt_guard hlen hblocks), if_pos h]

/-- The bytes a decryption writes, before their padding is looked at. -/
def Mode.plainBytes (mode : Mode) (m : Memory β) (a : ModeArgs β) : Bytes :=
  mode.decryptBytes (m.bytes a.key 8) (m.bytes a.iv 8) (m.bytes a.data a.dataLen.toNat)

/-- Accepted arguments: every block is deciphered into `out`, which then decides the
padding. Key and IV may overlap `out`, and so may the ciphertext if `out` starts
first. -/
theorem decrypt_write {mode : Mode} {m : Memory β} {a : ModeArgs β} (hv : mode.Valid m a)
    (hlen : ¬mode.BadLength a) (hblocks : ¬PartialBlocks a.dataLen) (hcap : a.dataLen ≤ a.outCap)
    (hlayout : Trails a.data a.out a.dataLen.toNat) (outLen : Size) :
    mode.decrypt m a outLen =
      some (unpadResult (m.write a.out (mode.plainBytes m a)) (mode.plainBytes m a) outLen) := by
  obtain ⟨k, hk⟩ := not_partialBlocks_iff.mp hblocks
  have hfits : ¬a.outCap < a.dataLen := by
    rw [BitVec.not_lt]
    exact hcap
  have hout : m.InBounds a.out a.dataLen.toNat := hv.out.mono hcap
  have hkey := Memory.loadBigEndian_eq (hv.keyBytes hlen)
  have hlength : (mode.plainBytes m a).length = a.dataLen.toNat := by
    rw [Mode.plainBytes, length_decryptBytes, Memory.length_bytes]
    omega
  have hread := Memory.bytes_write m a.out (mode.plainBytes m a)
  rw [hlength] at hread
  cases mode with
  | ecb =>
    obtain ⟨s, hs, hmem⟩ := blockLoop_eq (ecbDecryptStep (pack (m.bytes a.key 8))) hlayout hk
      hv.data hout ()
    simp only [Mode.decrypt, desEcbDecrypt, if_neg (ecbDecrypt_guard hlen hblocks), if_neg hfits,
      bytesToU64, hkey, Option.bind_eq_bind, Option.bind_some, hs]
    rw [desPkcs7Unpad_eq hk (by rw [hmem]; exact hout), hmem]
    exact congrArg (fun bytes => some (unpadResult _ bytes outLen)) hread
  | cbc =>
    have hiv := Memory.loadBigEndian_eq (hv.ivBytes hlen)
    obtain ⟨s, hs, hmem⟩ := blockLoop_eq (cbcDecryptStep (pack (m.bytes a.key 8))) hlayout hk
      hv.data hout (pack (m.bytes a.iv 8))
    simp only [Mode.decrypt, desCbcDecrypt, if_neg (cbcDecrypt_guard hlen hblocks), if_neg hfits,
      bytesToU64, hkey, hiv, Option.bind_eq_bind, Option.bind_some, hs]
    rw [desPkcs7Unpad_eq hk (by rw [hmem]; exact hout), hmem]
    exact congrArg (fun bytes => some (unpadResult _ bytes outLen)) hread

end DesModeCalls
