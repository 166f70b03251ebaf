import DesModular.DesModesAliasing

/-!
# Encryption over overlapping buffers

The encrypting functions write the padded data to `out` before they read the key and the
IV. In one array an encryption is defined unless the plaintext lies under its own copy,
and it uses the key and the IV as they are once the padded data was written.
-/
namespace DesModesOverlap

open MachineWord ByteOrder ByteMemory DesModes DesModesSpec DesModeCalls DesModeBuffers
open DesModesAliasing DesModesContract
open DesApi (Size DesStatus)

/-- Arguments of an encryption that pass every check. -/
structure Admitted (mode : Mode) (m : Memory Unit) (a : ModeArgs Unit) : Prop where
  valid : mode.Valid m a
  keyLen : a.keyLen = 8#64
  ivLen : a.ivLen = 8#64
  noWrap : a.dataLen.toNat + Pkcs7.padCount 8 a.dataLen.toNat < 2 ^ 64
  room : a.dataLen.toNat + Pkcs7.padCount 8 a.dataLen.toNat ≤ a.outCap.toNat

def paddedData (m : Memory Unit) (a : ModeArgs Unit) : Bytes :=
  Pkcs7.pad 8 (m.bytes a.data a.dataLen.toNat)

/-- The memory the key and the IV are read from. -/
def paddedMemory (m : Memory Unit) (a : ModeArgs Unit) : Memory Unit :=
  m.write a.out (paddedData m a)

/-- Separate buffers with the key and the IV as the call reads them. -/
def afterPadding (m : Memory Unit) (a : ModeArgs Unit) : Buffers :=
  { separate m a with
    key := copyRegion (paddedMemory m a) a.key a.keyLen
    iv := copyRegion (paddedMemory m a) a.iv a.ivLen }

variable {mode : Mode} {m : Memory Unit} {a : ModeArgs Unit}

theorem length_paddedData (m : Memory Unit) (a : ModeArgs Unit) :
    (paddedData m a).length = a.dataLen.toNat + Pkcs7.padCount 8 a.dataLen.toNat := by
  rw [paddedData, Pkcs7.length_pad, Memory.length_bytes]

theorem length_paddedData_blocks (m : Memory Unit) (a : ModeArgs Unit) :
    (paddedData m a).length = 8 * (a.dataLen.toNat / 8 + 1) :=
  (length_paddedData m a).trans (Pkcs7.length_add_padCount (by decide) a.dataLen.toNat)

theorem Admitted.not_badLength (h : Admitted mode m a) : ¬mode.BadLength a := by
  rintro (hbad | ⟨-, hbad⟩)
  · exact hbad h.keyLen
  · exact hbad h.ivLen

theorem Admitted.not_small (h : Admitted mode m a) : ¬a.outCap < desPaddedLen a.dataLen := by
  rw [BitVec.lt_def, toNat_desPaddedLen h.noWrap, Nat.not_lt]
  exact h.room

/-- A plaintext under its own copy: `memcpy` is not defined. -/
theorem Admitted.encrypt_none (h : Admitted mode m a)
    (hoverlap : ¬Apart a.out a.dataLen.toNat a.data a.dataLen.toNat) (outLen : Size) :
    mode.encrypt m a outLen = none := by
  have hcopy : m.memcpy a.out a.data a.dataLen.toNat = none :=
    if_neg fun hcopied => hoverlap hcopied.2.2
  have hpad : ∀ len, desPkcs7Pad m a.data a.dataLen a.out a.outCap len = none := by
    intro len
    simp only [desPkcs7Pad, if_neg h.not_small, hcopy, Option.bind_eq_bind, Option.bind_none]
  cases mode with
  | ecb =>
    simp only [Mode.encrypt, desEcbEncrypt, if_neg (keyLen_guard h.not_badLength), hpad,
      Option.bind_eq_bind, Option.bind_none]
  | cbc =>
    have hguard : ¬(a.keyLen ≠ 8#64 ∨ a.ivLen ≠ 8#64) :=
      not_or.mpr ⟨keyLen_guard h.not_badLength, ivLen_guard h.not_badLength⟩
    simp only [Mode.encrypt, desCbcEncrypt, if_neg hguard, hpad, Option.bind_eq_bind,
      Option.bind_none]

/-- The enciphered padding. -/
def cipherData (mode : Mode) (m : Memory Unit) (a : ModeArgs Unit) : Bytes :=
  mode.encryptBytes ((paddedMemory m a).bytes a.key 8) ((paddedMemory m a).bytes a.iv 8)
    (paddedData m a)

theorem length_cipherData (mode : Mode) (m : Memory Unit) (a : ModeArgs Unit) :
    (cipherData mode m a).length = (paddedData m a).length := by
  rw [cipherData, length_encryptBytes, length_paddedData_blocks,
    Nat.mul_div_cancel_left _ (by decide)]

theorem Admitted.encrypt_some (h : Admitted mode m a)
    (hapart : Apart a.out a.dataLen.toNat a.data a.dataLen.toNat) (outLen : Size) :
    mode.encrypt m a outLen =
      some ⟨.ok, m.write a.out (cipherData mode m a), desPaddedLen a.dataLen⟩ :=
  encrypt_copied h.valid h.not_badLength h.noWrap h.room hapart outLen

/-- The call with the buffers of `afterPadding`. -/
theorem Admitted.encrypt_afterPadding (h : Admitted mode m a) (outLen : Size) :
    encryptBuffers mode (afterPadding m a) outLen =
      some ⟨.ok, (separate m a).out.overwrite (cipherData mode m a), desPaddedLen a.dataLen⟩ := by
  have hkey : (afterPadding m a).key.bytes = (paddedMemory m a).bytes a.key 8 :=
    bytes_copyRegion _ _ h.keyLen
  have hiv : (afterPadding m a).iv.bytes = (paddedMemory m a).bytes a.iv 8 :=
    bytes_copyRegion _ _ h.ivLen
  have hdata : (afterPadding m a).data.bytes.length = a.dataLen.toNat :=
    length_copyRegion m a.data a.dataLen
  have hout : (afterPadding m a).out.bytes.length = a.outCap.toNat :=
    length_copyRegion m a.out a.outCap
  have hlen : (afterPadding m a).data.len = a.dataLen := by
    apply BitVec.eq_of_toNat_eq
    rw [Buffer.toNat_len, hdata]
  have hcall := encryptBuffers_ok mode (b := afterPadding m a)
    (by rw [hkey, Memory.length_bytes]) (by rw [hiv, Memory.length_bytes])
    (by rw [hdata]; exact h.noWrap) (by rw [hdata, hout]; exact h.room) outLen
  rw [hkey, hiv, hlen] at hcall
  exact hcall

/-! ## What the call sees of the key -/

/-- A region apart from the padded data is as it was. -/
theorem copyRegion_apart {p : Pointer Unit} {len : Size}
    (h : Apart a.out (paddedData m a).length p len.toNat) :
    copyRegion (paddedMemory m a) p len = copyRegion m p len :=
  Buffer.ext (Memory.bytes_write_apart m a.out p (paddedData m a) len.toNat h)

/-- Eight bytes at the start of `out` are the first block of the padded data. -/
theorem bytes_copyRegion_out {len : Size} (h : len = 8#64) :
    (copyRegion (paddedMemory m a) a.out len).bytes = (paddedData m a).take 8 := by
  have hread := Memory.bytes_write m a.out (paddedData m a)
  have hle : 8 ≤ (paddedData m a).length := by
    rw [length_paddedData_blocks]
    omega
  rw [bytes_copyRegion _ _ h, paddedMemory, ← Memory.take_bytes _ a.out hle, hread]

/-- Encryption in one array, for every layout. It is defined exactly when the plaintext is
apart from its copy, and then gives the bytes that separate buffers would give for the key
and the IV as they are under the padded data: unchanged if they are apart from it, and the
first padded block of the message if they are where `out` begins. -/
theorem encrypt_overlapping (mode : Mode) (m : Memory Unit) (a : ModeArgs Unit) (outLen : Size)
    (h : Admitted mode m a) :
    (mode.encrypt m a outLen = none ↔ ¬Apart a.out a.dataLen.toNat a.data a.dataLen.toNat) ∧
    (Apart a.out a.dataLen.toNat a.data a.dataLen.toNat →
      ∃ r e, mode.encrypt m a outLen = some r ∧
        encryptBuffers mode (afterPadding m a) outLen = some e ∧
        r.status = .ok ∧ e.status = .ok ∧ r.outLen = e.outLen ∧
        r.mem.bytes a.out (paddedData m a).length = (e.out.take (paddedData m a).length).bytes ∧
        DiffersOnlyIn m r.mem a.out (paddedData m a).length) ∧
    (Apart a.out (paddedData m a).length a.key 8 → (afterPadding m a).key = (separate m a).key) ∧
    (Apart a.out (paddedData m a).length a.iv 8 → (afterPadding m a).iv = (separate m a).iv) ∧
    (a.key = a.out → (afterPadding m a).key.bytes = (paddedData m a).take 8) ∧
    (a.iv = a.out → (afterPadding m a).iv.bytes = (paddedData m a).take 8) := by
  refine ⟨⟨?_, fun hoverlap => h.encrypt_none hoverlap outLen⟩, ?_, ?_, ?_, ?_, ?_⟩
  · intro hnone hapart
    rw [h.encrypt_some hapart] at hnone
    cases hnone
  · intro hapart
    have hread := Memory.bytes_write m a.out (cipherData mode m a)
    have hroom : (cipherData mode m a).length ≤ (separate m a).out.bytes.length := by
      rw [length_cipherData, length_paddedData, separate, length_copyRegion]
      exact h.room
    refine ⟨_, _, h.encrypt_some hapart outLen, h.encrypt_afterPadding outLen, rfl, rfl, rfl,
      ?_, rfl, ?_⟩
    · rw [length_cipherData] at hread
      rw [hread, Buffer.bytes_take, Buffer.bytes_overwrite _ hroom,
        List.take_left' (length_cipherData mode m a)]
    · intro b i houtside
      rw [← length_cipherData mode m a] at houtside
      exact Memory.write_byte_outside m a.out _ houtside
  · intro hapart
    exact copyRegion_apart (by rw [h.keyLen]; exact hapart)
  · intro hapart
    exact copyRegion_apart (by rw [h.ivLen]; exact hapart)
  · intro hkey
    simp only [afterPadding, hkey]
    exact bytes_copyRegion_out h.keyLen
  · intro hiv
    simp only [afterPadding, hiv]
    exact bytes_copyRegion_out h.ivLen

/-- The output over the key, and over the plaintext. -/
theorem encrypt_overlapping_three_bytes :
    let m : Memory Unit := ⟨fun _ => 64, fun _ i => BitVec.ofNat 8 i⟩
    let a : ModeArgs Unit := ⟨⟨(), 8⟩, 8#64, ⟨(), 40⟩, 8#64, ⟨(), 48⟩, 3#64, ⟨(), 8⟩, 8#64⟩
    let b : ModeArgs Unit := ⟨⟨(), 8⟩, 8#64, ⟨(), 40⟩, 8#64, ⟨(), 48⟩, 3#64, ⟨(), 46⟩, 8#64⟩
    (afterPadding m a).key.bytes = (paddedData m a).take 8 ∧
      Mode.cbc.encrypt m b 0#64 = none := by
  intro m a b
  have ha : Admitted .cbc m a :=
    ⟨⟨by decide, fun _ => by decide, by decide, by decide⟩, rfl, rfl, by decide, by decide⟩
  have hb : Admitted .cbc m b :=
    ⟨⟨by decide, fun _ => by decide, by decide, by decide⟩, rfl, rfl, by decide, by decide⟩
  obtain ⟨-, -, -, -, hkey, -⟩ := encrypt_overlapping .cbc m a 0#64 ha
  obtain ⟨hnone, -⟩ := encrypt_overlapping .cbc m b 0#64 hb
  exact ⟨hkey rfl, hnone.mpr (by decide)⟩

/-! ## There and back in one array -/

/-- The arguments that decrypt, in place, what an encryption left in `out`. -/
def backArgs (a : ModeArgs Unit) : ModeArgs Unit :=
  { a with data := a.out, dataLen := desPaddedLen a.dataLen }

theorem Admitted.toNat_paddedLen (h : Admitted mode m a) :
    (desPaddedLen a.dataLen).toNat = (paddedData m a).length := by
  rw [toNat_desPaddedLen h.noWrap, length_paddedData]

/-- Deciphering in place, with the key and the IV out of the way, gives the padded data. -/
theorem plainBytes_backArgs (mode : Mode) {m : Memory Unit} {a : ModeArgs Unit}
    (h : Admitted mode m a) (hkey : Apart a.out (paddedData m a).length a.key 8)
    (hiv : mode = .cbc → Apart a.out (paddedData m a).length a.iv 8) :
    mode.plainBytes (m.write a.out (cipherData mode m a)) (backArgs a) = paddedData m a := by
  have hlen := length_cipherData mode m a
  have hwhole : (paddedData m a).length % 8 = 0 := by
    rw [length_paddedData_blocks]
    exact Nat.mul_mod_right _ _
  have hread := Memory.bytes_write m a.out (cipherData mode m a)
  have hkept : ∀ {p : Pointer Unit} {bytes : Bytes}, bytes.length = (paddedData m a).length →
      Apart a.out (paddedData m a).length p 8 → (m.write a.out bytes).bytes p 8 = m.bytes p 8 := by
    intro p bytes hbytes hapart
    exact Memory.bytes_write_apart m a.out p bytes 8 (hbytes ▸ hapart)
  simp only [Mode.plainBytes, backArgs, h.toNat_paddedLen]
  rw [← hlen, hread, hkept hlen hkey]
  cases mode with
  | ecb =>
    rw [cipherData, paddedMemory, hkept rfl hkey]
    exact decryptBytes_encryptBytes .ecb _ _ hwhole
  | cbc =>
    rw [hkept hlen (hiv rfl), cipherData, paddedMemory, hkept rfl hkey, hkept rfl (hiv rfl)]
    exact decryptBytes_encryptBytes .cbc _ _ hwhole

/-- Encrypting into `out` and decrypting `out` in place, in one array, where `out` may lie
anywhere that is apart from the plaintext and from the key and the IV: the message is in
`out` with its padding behind it, and nothing else has changed. -/
theorem encrypt_decrypt_in_place (mode : Mode) (m : Memory Unit) (a : ModeArgs Unit)
    (outLen outLen' : Size) (h : Admitted mode m a)
    (hdata : Apart a.out a.dataLen.toNat a.data a.dataLen.toNat)
    (hkey : Apart a.out (paddedData m a).length a.key 8)
    (hiv : mode = .cbc → Apart a.out (paddedData m a).length a.iv 8) :
    ∃ r d, mode.encrypt m a outLen = some r ∧ r.status = .ok ∧
      r.outLen = (backArgs a).dataLen ∧
      mode.decrypt r.mem (backArgs a) outLen' = some d ∧ d.status = .ok ∧
      d.outLen = a.dataLen ∧ d.mem = m.write a.out (paddedData m a) ∧
      d.mem.bytes a.out a.dataLen.toNat = m.bytes a.data a.dataLen.toNat := by
  have hlength : (backArgs a).dataLen.toNat = 8 * (a.dataLen.toNat / 8 + 1) :=
    h.toNat_paddedLen.trans (length_paddedData_blocks m a)
  have hfits : (backArgs a).dataLen ≤ (backArgs a).outCap := BitVec.not_lt.mp h.not_small
  have hvalid : mode.Valid (m.write a.out (cipherData mode m a)) (backArgs a) :=
    ⟨h.valid.key, h.valid.iv, h.valid.out.mono hfits, h.valid.out⟩
  have hdecrypt := decrypt_write hvalid h.not_badLength (not_partialBlocks_iff.mpr ⟨_, hlength⟩)
    hfits (Trails.refl _ _) outLen'
  have hunpad : Pkcs7.unpad 8 (paddedData m a) = some a.dataLen.toNat := by
    rw [paddedData, Pkcs7.unpad_pad (by decide) (by decide), Memory.length_bytes]
  have hback : (m.write a.out (cipherData mode m a)).write (backArgs a).out (paddedData m a) =
      m.write a.out (paddedData m a) :=
    Memory.write_write m a.out (length_cipherData mode m a).le
  have hread := Memory.bytes_write m a.out (paddedData m a)
  have hprefix : (m.write a.out (paddedData m a)).bytes a.out a.dataLen.toNat =
      m.bytes a.data a.dataLen.toNat := by
    have hle : a.dataLen.toNat ≤ (paddedData m a).length := by
      rw [length_paddedData]
      exact Nat.le_add_right _ _
    rw [← Memory.take_bytes _ a.out hle, hread, paddedData, Pkcs7.pad]
    exact List.take_left' (Memory.length_bytes _ _ _)
  rw [plainBytes_backArgs mode h hkey hiv, hback, unpadResult_some hunpad] at hdecrypt
  refine ⟨_, _, h.encrypt_some hdata outLen, rfl, rfl, hdecrypt, rfl, ?_, rfl, hprefix⟩
  rw [BitVec.ofNat_toNat, BitVec.setWidth_eq]

/-- Three bytes in the array of an IV, a key and the output, the output last. -/
theorem encrypt_decrypt_in_place_three_bytes :
    let m : Memory Unit := ⟨fun _ => 64, fun _ i => BitVec.ofNat 8 i⟩
    let a : ModeArgs Unit := ⟨⟨(), 4⟩, 8#64, ⟨(), 8⟩, 8#64, ⟨(), 10⟩, 3#64, ⟨(), 16⟩, 8#64⟩
    ∃ r d, Mode.cbc.encrypt m a 0#64 = some r ∧
      Mode.cbc.decrypt r.mem (backArgs a) 0#64 = some d ∧
      d.mem.bytes ⟨(), 16⟩ 3 = [10, 11, 12] := by
  intro m a
  have h : Admitted .cbc m a :=
    ⟨⟨by decide, fun _ => by decide, by decide, by decide⟩, rfl, rfl, by decide, by decide⟩
  obtain ⟨r, d, hr, -, -, hd, -, -, -, hread⟩ := encrypt_decrypt_in_place .cbc m a 0#64 0#64 h
    (by decide) (by decide) (fun _ => by decide)
  exact ⟨r, d, hr, hd, hread⟩

end DesModesOverlap
