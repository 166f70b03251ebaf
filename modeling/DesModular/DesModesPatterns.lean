import DesModular.DesModesBlocks

/-!
# What ciphertexts reveal

Which blocks of ciphertexts are equal: within one ciphertext, under two IVs, and
for two messages under one IV. Each answer rests on the cipher being injective
under its key.
-/
namespace DesModesPatterns

open MachineWord ByteOrder Transducer DesBlock DesModes DesModesSpec DesModeCalls DesModeBuffers
open DesModesRoundTrip DesModesBlocks
open DesApi (Size DesStatus)

/-- Enciphered blocks are equal exactly if the blocks are. -/
theorem enciphered_eq_iff (keyValue : U64) {a b : Bytes} (ha : a.length = 8) (hb : b.length = 8) :
    unpack 8 (desEncryptBlock (pack a) keyValue) = unpack 8 (desEncryptBlock (pack b) keyValue) ↔
      a = b := by
  rw [unpack_injective.eq_iff, (desEncryptBlock_injective keyValue).eq_iff, pack_eq_iff ha hb]

/-! ## Within one ciphertext -/

/-- Two blocks of a ciphertext are equal exactly if the cipher was applied to equal blocks:
those of the padded message in ECB, and their exclusive or with the blocks before in CBC. -/
theorem block_equality (key iv message out : Buffer) (outLen : Size)
    (hkey : key.bytes.length = 8) (hiv : iv.bytes.length = 8)
    (hwrap : message.bytes.length + Pkcs7.padCount 8 message.bytes.length < 2 ^ 64)
    (hcap : desPaddedLen message.len ≤ out.len) :
    (∃ e, encryptBuffers .ecb ⟨key, iv, message, out⟩ outLen = some e ∧ e.status = .ok ∧
      ∀ i < message.bytes.length / 8 + 1, ∀ j < message.bytes.length / 8 + 1,
        blockAt e.out.bytes i = blockAt e.out.bytes j ↔
          blockAt (Pkcs7.pad 8 message.bytes) i = blockAt (Pkcs7.pad 8 message.bytes) j) ∧
    ∃ e, encryptBuffers .cbc ⟨key, iv, message, out⟩ outLen = some e ∧ e.status = .ok ∧
      ∀ i < message.bytes.length / 8 + 1, ∀ j < message.bytes.length / 8 + 1,
        blockAt e.out.bytes i = blockAt e.out.bytes j ↔
          xorBytes (blockAt (Pkcs7.pad 8 message.bytes) i)
              (if i = 0 then iv.bytes else blockAt e.out.bytes (i - 1)) =
            xorBytes (blockAt (Pkcs7.pad 8 message.bytes) j)
              (if j = 0 then iv.bytes else blockAt e.out.bytes (j - 1)) := by
  have hpattern : ∀ mode : Mode, ∃ e, encryptBuffers mode ⟨key, iv, message, out⟩ outLen = some e ∧
      e.status = .ok ∧
      ∀ i < message.bytes.length / 8 + 1, ∀ j < message.bytes.length / 8 + 1,
        blockAt e.out.bytes i = blockAt e.out.bytes j ↔
          cipherInput mode iv.bytes (Pkcs7.pad 8 message.bytes) e.out.bytes i =
            cipherInput mode iv.bytes (Pkcs7.pad 8 message.bytes) e.out.bytes j := by
    intro mode
    obtain ⟨e, he, hok, -, hblocks⟩ := encryptBuffers_blocks mode hkey hiv hwrap hcap outLen
    refine ⟨e, he, hok, ?_⟩
    intro i hi j hj
    obtain ⟨hilen, hiblock⟩ := hblocks i hi
    obtain ⟨hjlen, hjblock⟩ := hblocks j hj
    rw [hiblock, hjblock, enciphered_eq_iff _ hilen hjlen]
  exact ⟨hpattern .ecb, hpattern .cbc⟩

/-- A block of zeros and its block of padding. -/
theorem block_equality_zeroBlock :
    let out : Buffer := ⟨List.replicate 16 0#8, by decide⟩
    ∃ e, encryptBuffers .ecb ⟨zeroBlock, zeroBlock, zeroBlock, out⟩ 0#64 = some e ∧
      e.status = .ok ∧ blockAt e.out.bytes 0 ≠ blockAt e.out.bytes 1 := by
  obtain ⟨⟨e, he, hok, hblocks⟩, -⟩ := block_equality zeroBlock zeroBlock zeroBlock
    ⟨List.replicate 16 0#8, by decide⟩ 0#64 (by decide) (by decide) (by decide) (by decide)
  refine ⟨e, he, hok, fun h => ?_⟩
  have hpadded := (hblocks 0 (by decide) 1 (by decide)).mp h
  simp [zeroBlock, blockAt, Pkcs7.pad, Pkcs7.padCount] at hpadded

/-! ## Two IVs -/

/-- Different chaining values stay different, and so do the blocks they lead to. -/
theorem cbcEncryptStep_ne (keyValue c c' plain : U64) (h : c ≠ c') :
    (cbcEncryptStep keyValue c plain).1 ≠ (cbcEncryptStep keyValue c' plain).1 ∧
      (cbcEncryptStep keyValue c plain).2 ≠ (cbcEncryptStep keyValue c' plain).2 := by
  have hne : desEncryptBlock (plain ^^^ c) keyValue ≠ desEncryptBlock (plain ^^^ c') keyValue := by
    intro he
    have hinput : plain ^^^ c = plain ^^^ c' := (desEncryptBlock_injective keyValue).eq_iff.mp he
    exact h ((BitVec.xor_right_inj plain).mp hinput)
  exact ⟨hne, hne⟩

/-- The blocks of a string, under two chaining values. -/
theorem blockAt_encryptBytes_ne (key : Bytes) {iv iv' : Bytes} (hiv : iv.length = 8)
    (hiv' : iv'.length = 8) (hne : iv ≠ iv') {bytes : Bytes} {n i : Nat}
    (hlen : bytes.length = 8 * n) (hi : i < n) :
    blockAt (Mode.cbc.encryptBytes key iv bytes) i ≠
      blockAt (Mode.cbc.encryptBytes key iv' bytes) i := by
  have hpack : pack iv ≠ pack iv' := fun h => hne ((pack_eq_iff hiv hiv').mp h)
  have hdiv : bytes.length / 8 = n := by omega
  have hwords (carry : U64) :
      i < (output (cbcEncryptStep (pack key)) carry (toWords n bytes)).length := by
    simpa using hi
  simp only [Mode.encryptBytes, applyStep, hdiv]
  rw [blockAt_ofWords _ i (hwords _), blockAt_ofWords _ i (hwords _), Ne,
    unpack_injective.eq_iff]
  exact output_related (fun c c' x h => cbcEncryptStep_ne (pack key) c c' x h) hpack _ i _ _

/-- Two different IVs lead to ciphertexts of one length that differ in every block. -/
theorem distinct_ivs (key iv iv' message out out' : Buffer) (outLen outLen' : Size)
    (hkey : key.bytes.length = 8) (hiv : iv.bytes.length = 8) (hiv' : iv'.bytes.length = 8)
    (hne : iv ≠ iv')
    (hwrap : message.bytes.length + Pkcs7.padCount 8 message.bytes.length < 2 ^ 64)
    (hcap : desPaddedLen message.len ≤ out.len) (hcap' : desPaddedLen message.len ≤ out'.len) :
    ∃ e e', encryptBuffers .cbc ⟨key, iv, message, out⟩ outLen = some e ∧ e.status = .ok ∧
      encryptBuffers .cbc ⟨key, iv', message, out'⟩ outLen' = some e' ∧ e'.status = .ok ∧
      e.outLen = e'.outLen ∧ e.outLen.toNat = 8 * (message.bytes.length / 8 + 1) ∧
      ∀ i < message.bytes.length / 8 + 1,
        blockAt (e.out.take e.outLen.toNat).bytes i ≠
          blockAt (e'.out.take e'.outLen.toNat).bytes i := by
  obtain ⟨e, he, hok, hlen, hcipher⟩ := encryptBuffers_cipher .cbc hkey hiv hwrap
    ((paddedLen_le_iff hwrap out).mp hcap) outLen
  obtain ⟨e', he', hok', hlen', hcipher'⟩ := encryptBuffers_cipher .cbc hkey hiv' hwrap
    ((paddedLen_le_iff hwrap out').mp hcap') outLen'
  have hpadded : (Pkcs7.pad 8 message.bytes).length = 8 * (message.bytes.length / 8 + 1) :=
    (length_padded message).trans (paddedLength_eq message)
  refine ⟨e, e', he, hok, he', hok', hlen.trans hlen'.symm, ?_, ?_⟩
  · rw [hlen]
    exact (toNat_paddedLen hwrap).trans (paddedLength_eq message)
  · intro i hi
    rw [hcipher, hcipher']
    exact blockAt_encryptBytes_ne key.bytes hiv hiv' (fun h => hne (Buffer.ext h)) hpadded hi

theorem distinct_ivs_zeroBlock :
    let out : Buffer := ⟨List.replicate 16 0#8, by decide⟩
    let iv' : Buffer := ⟨List.replicate 8 1#8, by decide⟩
    ∃ e e', encryptBuffers .cbc ⟨zeroBlock, zeroBlock, zeroBlock, out⟩ 0#64 = some e ∧
      encryptBuffers .cbc ⟨zeroBlock, iv', zeroBlock, out⟩ 0#64 = some e' ∧
      blockAt (e.out.take e.outLen.toNat).bytes 1 ≠
        blockAt (e'.out.take e'.outLen.toNat).bytes 1 := by
  have hne : zeroBlock ≠ ⟨List.replicate 8 1#8, by decide⟩ :=
    fun h => absurd (congrArg Buffer.bytes h) (by decide)
  obtain ⟨e, e', he, -, he', -, -, -, hblocks⟩ := distinct_ivs zeroBlock zeroBlock
    ⟨List.replicate 8 1#8, by decide⟩ zeroBlock ⟨List.replicate 16 0#8, by decide⟩
    ⟨List.replicate 16 0#8, by decide⟩ 0#64 0#64 (by decide) (by decide) (by decide) hne
    (by decide) (by decide) (by decide)
  exact ⟨e, e', he, he', hblocks 1 (by decide)⟩

/-! ## Two messages -/

/-- Under one key and IV two ciphertexts agree for as many blocks as the padded strings. -/
theorem agreement_cipherBytes (key iv message message' : Buffer) :
    agreement (blocks (cipherBytes .cbc key iv message))
        (blocks (cipherBytes .cbc key iv message')) =
      agreement (blocks (Pkcs7.pad 8 message.bytes)) (blocks (Pkcs7.pad 8 message'.bytes)) := by
  have hwhole (message : Buffer) : (Pkcs7.pad 8 message.bytes).length =
      8 * ((Pkcs7.pad 8 message.bytes).length / 8) := by
    have hmod := length_padded_mod message
    omega
  simp only [cipherBytes, Mode.encryptBytes, blocks_applyStep]
  rw [agreement_map unpack_injective, agreement_output (cbcDecryptStep_undoes _).injective,
    blocks_eq (hwhole message), blocks_eq (hwhole message'), agreement_map unpack_injective]

/-- What the reuse of an IV reveals: how many leading blocks of the padded messages are the
same, and nothing less than equal messages gives equal ciphertexts. -/
theorem iv_reuse (key iv message message' out out' : Buffer) (outLen outLen' : Size)
    (hkey : key.bytes.length = 8) (hiv : iv.bytes.length = 8)
    (hwrap : message.bytes.length + Pkcs7.padCount 8 message.bytes.length < 2 ^ 64)
    (hwrap' : message'.bytes.length + Pkcs7.padCount 8 message'.bytes.length < 2 ^ 64)
    (hcap : desPaddedLen message.len ≤ out.len) (hcap' : desPaddedLen message'.len ≤ out'.len) :
    ∃ e e', encryptBuffers .cbc ⟨key, iv, message, out⟩ outLen = some e ∧ e.status = .ok ∧
      encryptBuffers .cbc ⟨key, iv, message', out'⟩ outLen' = some e' ∧ e'.status = .ok ∧
      agreement (blocks (e.out.take e.outLen.toNat).bytes)
          (blocks (e'.out.take e'.outLen.toNat).bytes) =
        agreement (blocks (Pkcs7.pad 8 message.bytes)) (blocks (Pkcs7.pad 8 message'.bytes)) ∧
      (e.out.take e.outLen.toNat = e'.out.take e'.outLen.toNat ↔ message = message') := by
  obtain ⟨e, he, hok, -, hcipher⟩ := encryptBuffers_cipher .cbc hkey hiv hwrap
    ((paddedLen_le_iff hwrap out).mp hcap) outLen
  obtain ⟨e', he', hok', -, hcipher'⟩ := encryptBuffers_cipher .cbc hkey hiv hwrap'
    ((paddedLen_le_iff hwrap' out').mp hcap') outLen'
  refine ⟨e, e', he, hok, he', hok', ?_, ?_⟩
  · rw [hcipher, hcipher', agreement_cipherBytes]
  · constructor
    · intro h
      have hbytes := congrArg Buffer.bytes h
      rw [hcipher, hcipher'] at hbytes
      exact cipherBytes_injective .cbc hbytes
    · intro h
      subst h
      exact Buffer.ext (hcipher.trans hcipher'.symm)

/-- Two messages that are the same in their first block, and in no other. -/
theorem iv_reuse_one_block :
    let message : Buffer := ⟨List.replicate 16 7#8, by decide⟩
    let message' : Buffer := ⟨List.replicate 8 7#8 ++ List.replicate 8 9#8, by decide⟩
    let out : Buffer := ⟨List.replicate 24 0#8, by decide⟩
    ∃ e e', encryptBuffers .cbc ⟨zeroBlock, zeroBlock, message, out⟩ 0#64 = some e ∧
      encryptBuffers .cbc ⟨zeroBlock, zeroBlock, message', out⟩ 0#64 = some e' ∧
      agreement (blocks (e.out.take e.outLen.toNat).bytes)
        (blocks (e'.out.take e'.outLen.toNat).bytes) = 1 ∧
      e.out.take e.outLen.toNat ≠ e'.out.take e'.outLen.toNat := by
  intro message message' out
  obtain ⟨e, e', he, -, he', -, hagree, hequal⟩ := iv_reuse zeroBlock zeroBlock message message'
    out out 0#64 0#64 (by decide) (by decide) (by decide) (by decide) (by decide) (by decide)
  have hne : message ≠ message' := fun h => absurd (congrArg Buffer.bytes h) (by decide)
  exact ⟨e, e', he, he', hagree.trans (by decide), mt hequal.mp hne⟩

end DesModesPatterns
