import DesModular.DesModeBuffers

/-!
# Encryption and decryption of messages

Decryption undoes encryption, and accepts nothing else. Each block of a ciphertext
is one call of `des_encrypt`.
-/
namespace DesModesRoundTrip

open MachineWord ByteOrder ByteMemory Transducer DesBlock DesModes DesModesSpec DesModeCalls
open DesModeBuffers
open DesApi (Size DesStatus)

/-- The ciphertext of a message, as a byte string. -/
def cipherBytes (mode : Mode) (key iv message : Buffer) : Bytes :=
  mode.encryptBytes key.bytes iv.bytes (Pkcs7.pad 8 message.bytes)

/-- The padded length of a message, as a number. -/
def paddedLength (message : Buffer) : Nat :=
  message.bytes.length + Pkcs7.padCount 8 message.bytes.length

theorem paddedLength_eq (message : Buffer) :
    paddedLength message = 8 * (message.bytes.length / 8 + 1) :=
  Pkcs7.length_add_padCount (by decide) message.bytes.length

theorem length_padded (message : Buffer) :
    (Pkcs7.pad 8 message.bytes).length = paddedLength message := Pkcs7.length_pad 8 message.bytes

theorem length_padded_mod (message : Buffer) : (Pkcs7.pad 8 message.bytes).length % 8 = 0 := by
  rw [length_padded, paddedLength_eq]
  exact Nat.mul_mod_right 8 _

theorem length_cipherBytes (mode : Mode) (key iv message : Buffer) :
    (cipherBytes mode key iv message).length = paddedLength message := by
  rw [cipherBytes, length_encryptBytes, length_padded, paddedLength_eq,
    Nat.mul_div_cancel_left _ (by decide)]

theorem toNat_paddedLen {message : Buffer} (h : paddedLength message < 2 ^ 64) :
    (desPaddedLen message.len).toNat = paddedLength message := by
  have hlen := message.toNat_len
  have hsize : (desPaddedLen message.len).toNat =
      message.len.toNat + Pkcs7.padCount 8 message.len.toNat :=
    toNat_desPaddedLen (by rw [hlen]; exact h)
  rw [hsize, hlen, paddedLength]

theorem paddedLen_le_iff {message : Buffer} (h : paddedLength message < 2 ^ 64) (out : Buffer) :
    desPaddedLen message.len ≤ out.len ↔ paddedLength message ≤ out.bytes.length := by
  rw [BitVec.le_def, toNat_paddedLen h, Buffer.toNat_len]

/-- Reading back the start of a buffer that was just written. -/
theorem take_overwrite (out : Buffer) {bs : Bytes} (h : bs.length ≤ out.bytes.length) {n : Nat}
    (hn : n ≤ bs.length) : ((out.overwrite bs).take n).bytes = bs.take n := by
  rw [Buffer.bytes_take, Buffer.bytes_overwrite _ h, List.take_append_of_le_length hn]

variable (mode : Mode) {key iv : Buffer}

/-- A call with enough room leaves the ciphertext at the start of `out`. -/
theorem encryptBuffers_cipher (hkey : key.bytes.length = 8) (hiv : iv.bytes.length = 8)
    {message out : Buffer} (hwrap : paddedLength message < 2 ^ 64)
    (hcap : paddedLength message ≤ out.bytes.length) (outLen : Size) :
    ∃ e, encryptBuffers mode ⟨key, iv, message, out⟩ outLen = some e ∧ e.status = .ok ∧
      e.outLen = desPaddedLen message.len ∧
      (e.out.take e.outLen.toNat).bytes = cipherBytes mode key iv message := by
  refine ⟨_, encryptBuffers_ok mode (b := ⟨key, iv, message, out⟩) hkey hiv hwrap hcap outLen,
    rfl, rfl, ?_⟩
  have hlen := length_cipherBytes mode key iv message
  have hread :
      ((out.overwrite (cipherBytes mode key iv message)).take (paddedLength message)).bytes =
        (cipherBytes mode key iv message).take (paddedLength message) :=
    take_overwrite out (by omega) (by omega)
  rw [List.take_of_length_le (by omega)] at hread
  simp only [toNat_paddedLen hwrap]
  exact hread

/-- Decrypting the ciphertext of a message returns the message. -/
theorem decryptBuffers_cipher (hkey : key.bytes.length = 8) (hiv : iv.bytes.length = 8)
    {message cipher out : Buffer} (hcipher : cipher.bytes = cipherBytes mode key iv message)
    (hcap : paddedLength message ≤ out.bytes.length) (outLen : Size) :
    decryptBuffers mode ⟨key, iv, cipher, out⟩ outLen =
      some ⟨.ok, out.overwrite (Pkcs7.pad 8 message.bytes), message.len⟩ := by
  have hlen : cipher.bytes.length = paddedLength message := by
    rw [hcipher, length_cipherBytes]
  have hplain : mode.decryptBytes key.bytes iv.bytes cipher.bytes = Pkcs7.pad 8 message.bytes := by
    rw [hcipher]
    exact decryptBytes_encryptBytes mode key.bytes iv.bytes (length_padded_mod message)
  rw [decryptBuffers_eq mode (b := ⟨key, iv, cipher, out⟩) hkey hiv
    (hlen.trans (paddedLength_eq message)) (Nat.le_trans (Nat.le_of_eq hlen) hcap), hplain]
  simp only [unpadOutcome, Pkcs7.unpad_pad (by decide : 0 < 8) (by decide), Buffer.len]

theorem take_padded (out message : Buffer) (hcap : paddedLength message ≤ out.bytes.length) :
    (out.overwrite (Pkcs7.pad 8 message.bytes)).take message.bytes.length = message := by
  have hlen := length_padded message
  have hle : message.bytes.length ≤ paddedLength message := Nat.le_add_right _ _
  apply Buffer.ext
  rw [take_overwrite out (by omega) (by omega), Pkcs7.pad]
  exact List.take_left' rfl

/-! ## Round trip -/

/-- Every message is recovered from its ciphertext, whatever the buffers held. -/
theorem decrypt_encrypt (key iv message out plainOut : Buffer) (outLen outLen' : Size)
    (hkey : key.bytes.length = 8) (hiv : iv.bytes.length = 8)
    (hwrap : message.bytes.length + Pkcs7.padCount 8 message.bytes.length < 2 ^ 64)
    (hcap : desPaddedLen message.len ≤ out.len)
    (hplain : desPaddedLen message.len ≤ plainOut.len) :
    ∃ e, encryptBuffers mode ⟨key, iv, message, out⟩ outLen = some e ∧ e.status = .ok ∧
      e.outLen = desPaddedLen message.len ∧
      ∃ d, decryptBuffers mode ⟨key, iv, e.out.take e.outLen.toNat, plainOut⟩ outLen' = some d ∧
        d.status = .ok ∧ d.outLen = message.len ∧ d.out.take message.bytes.length = message := by
  have hcap' := (paddedLen_le_iff hwrap out).mp hcap
  have hplain' := (paddedLen_le_iff hwrap plainOut).mp hplain
  obtain ⟨e, he, hok, hlen, hcipher⟩ :=
    encryptBuffers_cipher mode hkey hiv hwrap hcap' outLen
  exact ⟨e, he, hok, hlen, _, decryptBuffers_cipher mode hkey hiv hcipher hplain' outLen', rfl, rfl,
    take_padded plainOut message hplain'⟩

/-- Eight zero bytes, for small examples. -/
def zeroBlock : Buffer := ⟨List.replicate 8 0#8, by decide⟩

/-- A message of three bytes in CBC. -/
theorem decrypt_encrypt_three_bytes :
    let message : Buffer := ⟨[1#8, 2#8, 3#8], by decide⟩
    ∃ e, encryptBuffers .cbc ⟨zeroBlock, zeroBlock, message, zeroBlock⟩ 0#64 = some e ∧
      e.status = .ok ∧ e.outLen = desPaddedLen message.len ∧
      ∃ d, decryptBuffers .cbc ⟨zeroBlock, zeroBlock, e.out.take e.outLen.toNat, zeroBlock⟩ 7#64 =
          some d ∧
        d.status = .ok ∧ d.outLen = message.len ∧ d.out.take message.bytes.length = message :=
  decrypt_encrypt .cbc zeroBlock zeroBlock ⟨[1#8, 2#8, 3#8], by decide⟩ zeroBlock zeroBlock 0#64
    7#64 (by decide) (by decide) (by decide) (by decide) (by decide)

/-! ## Accepted ciphertexts -/

/-- Some call of `encrypt` with this key, IV and message succeeds and leaves `cipher`
in the bytes it reports. -/
def Encrypts (key iv message cipher : Buffer) : Prop :=
  ∃ out outLen e, encryptBuffers mode ⟨key, iv, message, out⟩ outLen = some e ∧
    e.status = .ok ∧ e.out.take e.outLen.toNat = cipher

theorem encrypts_iff (hkey : key.bytes.length = 8) (hiv : iv.bytes.length = 8)
    (message cipher : Buffer) :
    Encrypts mode key iv message cipher ↔ cipher.bytes = cipherBytes mode key iv message := by
  constructor
  · rintro ⟨out, outLen, e, he, hok, hcipher⟩
    by_cases hwrap : paddedLength message < 2 ^ 64
    · by_cases hcap : desPaddedLen message.len ≤ out.len
      · obtain ⟨e', he', -, -, hbytes⟩ := encryptBuffers_cipher mode hkey hiv hwrap
          ((paddedLen_le_iff hwrap out).mp hcap) outLen
        obtain rfl := Option.some.inj (he.symm.trans he')
        rw [← hcipher, hbytes]
      · obtain ⟨e', he', hsmall⟩ := encryptBuffers_small mode (b := ⟨key, iv, message, out⟩)
          hkey hiv (BitVec.not_le.mp hcap) outLen
        obtain rfl := Option.some.inj (he.symm.trans he')
        rw [hok] at hsmall
        cases hsmall
    · have hnone := encryptBuffers_wrap mode (b := ⟨key, iv, message, out⟩) hkey hiv
        (Nat.le_of_not_lt hwrap) outLen
      rw [he] at hnone
      cases hnone
  · intro hcipher
    have hlen : cipher.bytes.length = paddedLength message := by
      rw [hcipher, length_cipherBytes]
    have hwrap : paddedLength message < 2 ^ 64 := hlen ▸ cipher.fits
    obtain ⟨e, he, hok, -, hbytes⟩ := encryptBuffers_cipher mode hkey hiv hwrap
      (Nat.le_of_eq hlen.symm) 0#64
    exact ⟨cipher, 0#64, e, he, hok, Buffer.ext (hbytes.trans hcipher.symm)⟩

/-- The ciphertext of a message determines it. -/
theorem cipherBytes_injective {message message' : Buffer}
    (h : cipherBytes mode key iv message = cipherBytes mode key iv message') :
    message = message' := by
  have hplain := congrArg (mode.decryptBytes key.bytes iv.bytes) h
  rw [cipherBytes, cipherBytes, decryptBytes_encryptBytes _ _ _ (length_padded_mod message),
    decryptBytes_encryptBytes _ _ _ (length_padded_mod message')] at hplain
  exact Buffer.ext (Pkcs7.pad_injective (by decide) (by decide) hplain)

/-- Well-formed padding under the cipher is the ciphertext of a message. -/
theorem cipherBytes_of_unpad {cipher : Buffer} {k n : Nat}
    (hlen : cipher.bytes.length = 8 * (k + 1))
    (h : Pkcs7.unpad 8 (mode.decryptBytes key.bytes iv.bytes cipher.bytes) = some n) :
    ∃ message : Buffer, cipher.bytes = cipherBytes mode key iv message := by
  have hplain := length_decryptBytes_whole mode key.bytes iv.bytes hlen
  obtain ⟨hn, hpad⟩ := Pkcs7.pad_of_unpad hplain h
  have hshort : ((mode.decryptBytes key.bytes iv.bytes cipher.bytes).take n).length < 2 ^ 64 := by
    have hfits := cipher.fits
    rw [List.length_take]
    omega
  refine ⟨⟨_, hshort⟩, ?_⟩
  rw [cipherBytes, hpad, encryptBytes_decryptBytes _ _ _ (by omega)]

/-- Decryption accepts exactly the ciphertexts of messages, and what it returns is the
one message, which encrypts to the same ciphertext again. -/
theorem decrypt_accepts_exactly (key iv cipher out : Buffer) (outLen : Size)
    (hkey : key.bytes.length = 8) (hiv : iv.bytes.length = 8) (hpos : 0 < cipher.bytes.length)
    (hblocks : cipher.bytes.length % 8 = 0) (hcap : cipher.bytes.length ≤ out.bytes.length) :
    ∃ d, decryptBuffers mode ⟨key, iv, cipher, out⟩ outLen = some d ∧
      (d.status = .ok ↔ ∃ message, Encrypts mode key iv message cipher) ∧
      (d.status = .ok → ∃ message, Encrypts mode key iv message cipher ∧
        (∀ message', Encrypts mode key iv message' cipher → message' = message) ∧
        d.outLen = message.len ∧ d.out.take message.bytes.length = message ∧
        (d.out.take cipher.bytes.length).bytes = Pkcs7.pad 8 message.bytes ∧
        ∀ (out' : Buffer) (outLen' : Size), cipher.bytes.length ≤ out'.bytes.length →
          ∃ e, encryptBuffers mode ⟨key, iv, d.out.take d.outLen.toNat, out'⟩ outLen' = some e ∧
            e.status = .ok ∧ e.out.take e.outLen.toNat = cipher) := by
  obtain ⟨k, hlen⟩ : ∃ k, cipher.bytes.length = 8 * (k + 1) :=
    ⟨cipher.bytes.length / 8 - 1, by omega⟩
  by_cases hmessage : ∃ message : Buffer, cipher.bytes = cipherBytes mode key iv message
  · obtain ⟨message, hcipher⟩ := hmessage
    have hlength : cipher.bytes.length = paddedLength message := by
      rw [hcipher, length_cipherBytes]
    have hroom : paddedLength message ≤ out.bytes.length := by omega
    have hwrap : paddedLength message < 2 ^ 64 := hlength ▸ cipher.fits
    have hencrypts : Encrypts mode key iv message cipher :=
      (encrypts_iff mode hkey hiv message cipher).mpr hcipher
    have htake : (out.overwrite (Pkcs7.pad 8 message.bytes)).take message.len.toNat = message := by
      rw [Buffer.toNat_len]
      exact take_padded out message hroom
    refine ⟨_, decryptBuffers_cipher mode hkey hiv hcipher hroom outLen,
      ⟨fun _ => ⟨message, hencrypts⟩, fun _ => rfl⟩, fun _ => ⟨message, hencrypts, ?_, rfl,
      take_padded out message hroom, ?_, ?_⟩⟩
    · intro message' h'
      have hcipher' := (encrypts_iff mode hkey hiv message' cipher).mp h'
      exact cipherBytes_injective mode (hcipher'.symm.trans hcipher)
    · have hpadded := length_padded message
      rw [take_overwrite out (by omega) (by omega)]
      exact List.take_of_length_le (by omega)
    · intro out' outLen' hroom'
      simp only [htake]
      obtain ⟨e, he, hok, -, hbytes⟩ := encryptBuffers_cipher mode hkey hiv hwrap
        (by omega : paddedLength message ≤ out'.bytes.length) outLen'
      exact ⟨e, he, hok, Buffer.ext (hbytes.trans hcipher.symm)⟩
  · have hnone : Pkcs7.unpad 8 (mode.decryptBytes key.bytes iv.bytes cipher.bytes) = none := by
      cases hunpad : Pkcs7.unpad 8 (mode.decryptBytes key.bytes iv.bytes cipher.bytes) with
      | none => rfl
      | some n => exact absurd (cipherBytes_of_unpad mode hlen hunpad) hmessage
    have hbad :
        (unpadOutcome out (mode.decryptBytes key.bytes iv.bytes cipher.bytes) outLen).status =
          .errInvalidPadding := by
      simp only [unpadOutcome, hnone]
    refine ⟨_, decryptBuffers_eq mode (b := ⟨key, iv, cipher, out⟩) hkey hiv hlen hcap outLen,
      ⟨fun hok => ?_, fun h => ?_⟩, fun hok => ?_⟩
    · rw [hbad] at hok
      cases hok
    · obtain ⟨message, h⟩ := h
      exact absurd ⟨message, (encrypts_iff mode hkey hiv message cipher).mp h⟩ hmessage
    · rw [hbad] at hok
      cases hok

/-- The two blocks of a message of eight zeros. -/
def twoBlocks : Buffer where
  bytes := cipherBytes .cbc zeroBlock zeroBlock zeroBlock
  fits := by
    rw [length_cipherBytes]
    decide

/-- A ciphertext that is accepted. -/
theorem decrypt_accepts_exactly_twoBlocks :
    ∃ d, decryptBuffers .cbc ⟨zeroBlock, zeroBlock, twoBlocks, twoBlocks⟩ 0#64 = some d ∧
      d.status = .ok ∧ d.outLen = 8#64 ∧ d.out.take 8 = zeroBlock := by
  have hlength : twoBlocks.bytes.length = 16 := by
    rw [twoBlocks, length_cipherBytes]
    decide
  have hencrypts : Encrypts .cbc zeroBlock zeroBlock zeroBlock twoBlocks :=
    (encrypts_iff .cbc (by decide) (by decide) zeroBlock twoBlocks).mpr rfl
  obtain ⟨d, hd, haccepts, hresult⟩ := decrypt_accepts_exactly .cbc zeroBlock zeroBlock twoBlocks
    twoBlocks 0#64 (by decide) (by decide) (by omega) (by omega) (Nat.le_refl _)
  have hok := haccepts.mpr ⟨zeroBlock, hencrypts⟩
  obtain ⟨message, -, hunique, hlen, hout, -⟩ := hresult hok
  obtain rfl := hunique zeroBlock hencrypts
  exact ⟨d, hd, hok, hlen.trans (by decide), hout⟩

end DesModesRoundTrip
