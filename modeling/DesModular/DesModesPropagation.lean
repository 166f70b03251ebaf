import DesModular.DesModesRoundTrip

/-!
# Error propagation

Which blocks of the decrypted bytes change when one block of a ciphertext changes,
or the IV. The padding is read from the last block, so an error far enough before
the end leaves the result of the call as it was.
-/
namespace DesModesPropagation

open MachineWord ByteOrder Transducer DesBlock DesModes DesModesSpec DesModeCalls DesModeBuffers
open DesModesRoundTrip
open DesApi (Size DesStatus)

/-- `D(C_i)` in ECB and `D(C_i) ^ C_{i-1}` in CBC, with the IV for `C_{i-1}` of the first
block. Blocks are counted from 0. -/
def plainBlock (mode : Mode) (key iv cipher : Bytes) (i : Nat) : Bytes :=
  let deciphered := unpack 8 (desDecryptBlock (pack (blockAt cipher i)) (pack key))
  match mode with
  | .ecb => deciphered
  | .cbc => xorBytes deciphered (if i = 0 then iv else blockAt cipher (i - 1))

/-- Every block of the decrypted bytes is read off the ciphertext. -/
theorem blockAt_decryptBytes (mode : Mode) (key : Bytes) {iv cipher : Bytes} (hiv : iv.length = 8)
    {n i : Nat} (hlen : cipher.length = 8 * n) (hi : i < n) :
    blockAt (mode.decryptBytes key iv cipher) i = plainBlock mode key iv cipher i := by
  have hdiv : cipher.length / 8 = n := by omega
  have hwords : i < (toWords n cipher).length := by rwa [length_toWords]
  cases mode with
  | ecb =>
    have hout : i < (output (ecbDecryptStep (pack key)) () (toWords n cipher)).length := by
      rwa [length_output]
    simp only [Mode.decryptBytes, applyStep, hdiv]
    rw [blockAt_ofWords _ i hout, getElem_output _ _ _ i hwords, getElem_toWords]
    rfl
  | cbc =>
    have hout : i < (output (cbcDecryptStep (pack key)) (pack iv) (toWords n cipher)).length := by
      rwa [length_output]
    simp only [Mode.decryptBytes, applyStep, hdiv, plainBlock]
    rw [blockAt_ofWords _ i hout, getElem_output _ _ _ i hwords, getElem_toWords, cbcDecryptStep,
      unpack_xor, final_decrypt key iv cipher hi.le,
      unpack_pack_eight (length_previous hiv (by omega))]

/-- The padding of whole blocks is that of the last one. -/
theorem unpad_lastBlock {bytes : Bytes} {k : Nat} (h : bytes.length = 8 * (k + 1)) :
    Pkcs7.unpad 8 bytes = (Pkcs7.unpad 8 (blockAt bytes k)).map (8 * k + ·) := by
  have hlast : blockAt bytes k = bytes.drop (8 * k) := by
    apply List.take_of_length_le
    rw [List.length_drop]
    omega
  have hfront : (bytes.take (8 * k)).length = 8 * k := by
    rw [List.length_take]
    omega
  have hsize : 8 ≤ (blockAt bytes k).length := (length_blockAt h.ge).ge
  have hunpad := Pkcs7.unpad_append (by decide : 0 < 8) hsize (bytes.take (8 * k))
  rwa [hfront, hlast, List.take_append_drop, ← hlast] at hunpad

/-- Strings that end in the same block have the same padding. -/
theorem unpad_congr {a b : Bytes} {k : Nat} (ha : a.length = 8 * (k + 1))
    (hb : b.length = 8 * (k + 1)) (h : blockAt a k = blockAt b k) :
    Pkcs7.unpad 8 a = Pkcs7.unpad 8 b := by
  rw [unpad_lastBlock ha, unpad_lastBlock hb, h]

/-! ## Two calls -/

variable (mode : Mode) {key iv iv' cipher cipher' out out' : Buffer}

/-- Two calls of decryption on ciphertexts of one length: their blocks, and when their
results are the same. -/
theorem decryptBuffers_two (hkey : key.bytes.length = 8) (hiv : iv.bytes.length = 8)
    (hiv' : iv'.bytes.length = 8) {k : Nat} (hlen : cipher.bytes.length = 8 * (k + 1))
    (hlen' : cipher'.bytes.length = 8 * (k + 1)) (hcap : 8 * (k + 1) ≤ out.bytes.length)
    (hcap' : 8 * (k + 1) ≤ out'.bytes.length) (outLen : Size) :
    ∃ d d', decryptBuffers mode ⟨key, iv, cipher, out⟩ outLen = some d ∧
      decryptBuffers mode ⟨key, iv', cipher', out'⟩ outLen = some d' ∧
      (∀ i < k + 1, blockAt d.out.bytes i = plainBlock mode key.bytes iv.bytes cipher.bytes i) ∧
      (∀ i < k + 1, blockAt d'.out.bytes i =
        plainBlock mode key.bytes iv'.bytes cipher'.bytes i) ∧
      (plainBlock mode key.bytes iv'.bytes cipher'.bytes k =
          plainBlock mode key.bytes iv.bytes cipher.bytes k →
        d'.status = d.status ∧ d'.outLen = d.outLen) := by
  have hblocks : ∀ {iv cipher out : Buffer}, iv.bytes.length = 8 →
      cipher.bytes.length = 8 * (k + 1) → 8 * (k + 1) ≤ out.bytes.length → ∀ i < k + 1,
      blockAt (unpadOutcome out (mode.decryptBytes key.bytes iv.bytes cipher.bytes)
          outLen).out.bytes i =
        plainBlock mode key.bytes iv.bytes cipher.bytes i := by
    intro iv cipher out hiv hlen hcap i hi
    have hplain := length_decryptBytes_whole mode key.bytes iv.bytes hlen
    rw [← blockAt_decryptBytes mode key.bytes hiv hlen hi,
      unpadOutcome_eq out _ outLen (Buffers.memory ⟨key, iv, cipher, out⟩)]
    simp only [Buffer.bytes_overwrite out (Nat.le_trans hplain.le hcap)]
    exact blockAt_append (by omega) _
  refine ⟨_, _, decryptBuffers_eq mode (b := ⟨key, iv, cipher, out⟩) hkey hiv hlen
      (hlen.trans_le hcap) outLen,
    decryptBuffers_eq mode (b := ⟨key, iv', cipher', out'⟩) hkey hiv' hlen'
      (hlen'.trans_le hcap') outLen,
    hblocks hiv hlen hcap, hblocks hiv' hlen' hcap', ?_⟩
  intro hlast
  have hunpad : Pkcs7.unpad 8 (mode.decryptBytes key.bytes iv'.bytes cipher'.bytes) =
      Pkcs7.unpad 8 (mode.decryptBytes key.bytes iv.bytes cipher.bytes) := by
    apply unpad_congr (k := k)
    · exact length_decryptBytes_whole mode key.bytes iv'.bytes hlen'
    · exact length_decryptBytes_whole mode key.bytes iv.bytes hlen
    · rw [blockAt_decryptBytes mode key.bytes hiv' hlen' (Nat.lt_succ_self k),
        blockAt_decryptBytes mode key.bytes hiv hlen (Nat.lt_succ_self k), hlast]
  simp only [unpadOutcome, hunpad]
  split
  · exact ⟨rfl, rfl⟩
  · exact ⟨rfl, rfl⟩

/-- One call of decryption: its blocks, and the result, which is read off the last one. -/
theorem decrypt_call (hkey : key.bytes.length = 8) (hiv : iv.bytes.length = 8) {k : Nat}
    (hlen : cipher.bytes.length = 8 * (k + 1))
    (hcap : 8 * (k + 1) ≤ out.bytes.length) (outLen : Size) :
    ∃ d, decryptBuffers mode ⟨key, iv, cipher, out⟩ outLen = some d ∧
      (∀ i < k + 1, blockAt d.out.bytes i = plainBlock mode key.bytes iv.bytes cipher.bytes i) ∧
      d.status = (if (Pkcs7.unpad 8 (blockAt d.out.bytes k)).isSome then .ok
        else .errInvalidPadding) ∧
      ∀ n, Pkcs7.unpad 8 (blockAt d.out.bytes k) = some n → d.outLen.toNat = 8 * k + n := by
  have hdecrypt := decryptBuffers_eq mode (b := ⟨key, iv, cipher, out⟩) hkey hiv hlen
    (hlen.trans_le hcap) outLen
  obtain ⟨d, -, hd, -, hblocks, -⟩ :=
    decryptBuffers_two mode hkey hiv hiv hlen hlen hcap hcap outLen
  have houtcome := Option.some.inj (hd.symm.trans hdecrypt)
  have hplain := length_decryptBytes_whole mode key.bytes iv.bytes hlen
  have hlast : blockAt d.out.bytes k =
      blockAt (mode.decryptBytes key.bytes iv.bytes cipher.bytes) k := by
    rw [hblocks k (Nat.lt_succ_self k), blockAt_decryptBytes mode key.bytes hiv hlen
      (Nat.lt_succ_self k)]
  have hsize : (blockAt d.out.bytes k).length ≤ 8 := length_blockAt_le _ _
  have hfits := cipher.fits
  simp only [unpadOutcome, unpad_lastBlock hplain, ← hlast] at houtcome
  refine ⟨d, hd, hblocks, ?_, ?_⟩
  · generalize Pkcs7.unpad 8 (blockAt d.out.bytes k) = padding at houtcome ⊢
    rw [houtcome]
    cases padding <;> rfl
  · intro n hn
    obtain ⟨t, ht, ht8, hsum⟩ := Pkcs7.exists_of_unpad hn
    rw [hn, Option.map_some] at houtcome
    rw [houtcome, BitVec.toNat_ofNat]
    omega

/-! ## One block in error -/

/-- Block `j` of a ciphertext is changed by a mask, and nothing else is. -/
structure BlockError (j : Nat) (mask cipher cipher' : Bytes) : Prop where
  whole : cipher.length % 8 = 0
  inside : j < cipher.length / 8
  length_eq : cipher'.length = cipher.length
  length_mask : mask.length = 8
  mask_ne : mask ≠ List.replicate 8 0#8
  changed : blockAt cipher' j = xorBytes (blockAt cipher j) mask
  kept : ∀ i < cipher.length / 8, i ≠ j → blockAt cipher' i = blockAt cipher i

theorem xorBytes_mask_ne {a mask : Bytes} (ha : a.length = 8) (hmask : mask.length = 8)
    (hne : mask ≠ List.replicate 8 0#8) : xorBytes a mask ≠ a := by
  intro h
  have hpack : pack a ^^^ pack mask = pack a ^^^ 0#64 := by
    rw [← pack_xorBytes (ha.trans hmask.symm), h, BitVec.xor_zero]
  have hzero : pack mask = 0#64 := (BitVec.xor_right_inj (pack a)).mp hpack
  apply hne
  rw [← unpack_pack_eight hmask, hzero]
  rfl

section Error

variable {j : Nat} {mask ciphertext ciphertext' : Bytes}
variable (h : BlockError j mask ciphertext ciphertext') (keyBytes : Bytes) {ivBytes : Bytes}

include h

theorem BlockError.deciphered_ne :
    unpack 8 (desDecryptBlock (pack (blockAt ciphertext' j)) (pack keyBytes)) ≠
      unpack 8 (desDecryptBlock (pack (blockAt ciphertext j)) (pack keyBytes)) := by
  have hwhole := h.whole
  have hinside := h.inside
  have hlength := h.length_eq
  have hblock : (blockAt ciphertext j).length = 8 := length_blockAt (by omega)
  have hblock' : (blockAt ciphertext' j).length = 8 := length_blockAt (by omega)
  rw [Ne, unpack_injective.eq_iff, (desDecryptBlock_injective _).eq_iff, pack_eq_iff hblock' hblock,
    h.changed]
  exact xorBytes_mask_ne hblock h.length_mask h.mask_ne

/-- The block in error deciphers to another block. -/
theorem BlockError.plainBlock_ne (hiv : ivBytes.length = 8) :
    plainBlock mode keyBytes ivBytes ciphertext' j ≠
      plainBlock mode keyBytes ivBytes ciphertext j := by
  cases mode with
  | ecb => exact h.deciphered_ne keyBytes
  | cbc =>
    have hinside := h.inside
    have hprevious : (if j = 0 then ivBytes else blockAt ciphertext' (j - 1)) =
        (if j = 0 then ivBytes else blockAt ciphertext (j - 1)) := by
      split
      · rfl
      · exact h.kept (j - 1) (by omega) (by omega)
    have hlength : 8 ≤ (if j = 0 then ivBytes else blockAt ciphertext (j - 1)).length :=
      (length_previous hiv (by omega)).ge
    simp only [plainBlock, hprevious]
    generalize (if j = 0 then ivBytes else blockAt ciphertext (j - 1)) = previous at hlength ⊢
    intro he
    have hcancel := congrArg (fun bytes => xorBytes bytes previous) he
    rw [xorBytes_cancel (by rwa [length_unpack]), xorBytes_cancel (by rwa [length_unpack])]
      at hcancel
    exact h.deciphered_ne keyBytes hcancel

/-- A block that reads no block in error is the same. -/
theorem BlockError.plainBlock_eq {i : Nat} (hi : i < ciphertext.length / 8) (hne : i ≠ j)
    (hnext : mode = .cbc → i ≠ j + 1) :
    plainBlock mode keyBytes ivBytes ciphertext' i =
      plainBlock mode keyBytes ivBytes ciphertext i := by
  cases mode with
  | ecb => simp only [plainBlock, h.kept i hi hne]
  | cbc =>
    have hne' : i ≠ j + 1 := hnext rfl
    simp only [plainBlock, h.kept i hi hne]
    split
    · rfl
    next hpos => rw [h.kept (i - 1) (by omega) (by omega)]

/-- CBC adds the block before, with its error, to the block after it. -/
theorem BlockError.plainBlock_next (hnext : j + 1 < ciphertext.length / 8) :
    plainBlock .cbc keyBytes ivBytes ciphertext' (j + 1) =
      xorBytes (plainBlock .cbc keyBytes ivBytes ciphertext (j + 1)) mask := by
  simp only [plainBlock, h.kept (j + 1) hnext (Nat.succ_ne_self j), if_neg (Nat.succ_ne_zero j),
    Nat.add_sub_cancel, h.changed]
  exact (xorBytes_assoc _ _ _).symm

end Error

/-- An error in the IV reaches the first block alone. -/
theorem plainBlock_iv (keyBytes : Bytes) {ivBytes ivBytes' mask : Bytes}
    (h : ivBytes' = xorBytes ivBytes mask) (ciphertext : Bytes) :
    plainBlock .cbc keyBytes ivBytes' ciphertext 0 =
        xorBytes (plainBlock .cbc keyBytes ivBytes ciphertext 0) mask ∧
      ∀ i, 0 < i → plainBlock .cbc keyBytes ivBytes' ciphertext i =
        plainBlock .cbc keyBytes ivBytes ciphertext i := by
  constructor
  · simp only [plainBlock, if_pos, h]
    exact (xorBytes_assoc _ _ _).symm
  · intro i hi
    simp only [plainBlock, if_neg hi.ne']

/-! ## Calls on data in error -/

theorem BlockError.length_whole {j : Nat} {mask cipher cipher' : Bytes}
    (h : BlockError j mask cipher cipher') : ∃ k, cipher.length = 8 * (k + 1) := by
  have hwhole := h.whole
  have hinside := h.inside
  exact ⟨cipher.length / 8 - 1, by omega⟩

/-- Decrypting a ciphertext with an error in block `j`, in either mode. -/
theorem decrypt_blockError (mode : Mode) {key iv cipher cipher' out out' : Buffer} {j : Nat}
    {mask : Bytes} (hkey : key.bytes.length = 8) (hiv : iv.bytes.length = 8)
    (herror : BlockError j mask cipher.bytes cipher'.bytes)
    (hcap : cipher.bytes.length ≤ out.bytes.length)
    (hcap' : cipher.bytes.length ≤ out'.bytes.length) (outLen : Size) :
    ∃ d d', decryptBuffers mode ⟨key, iv, cipher, out⟩ outLen = some d ∧
      decryptBuffers mode ⟨key, iv, cipher', out'⟩ outLen = some d' ∧
      blockAt d'.out.bytes j ≠ blockAt d.out.bytes j ∧
      (mode = .cbc → j + 1 < cipher.bytes.length / 8 →
        blockAt d'.out.bytes (j + 1) = xorBytes (blockAt d.out.bytes (j + 1)) mask) ∧
      (∀ i < cipher.bytes.length / 8, i ≠ j → (mode = .cbc → i ≠ j + 1) →
        blockAt d'.out.bytes i = blockAt d.out.bytes i) ∧
      (j + 1 < cipher.bytes.length / 8 → (mode = .cbc → j + 2 < cipher.bytes.length / 8) →
        d'.status = d.status ∧ d'.outLen = d.outLen) := by
  obtain ⟨k, hlen⟩ := herror.length_whole
  have hcount : cipher.bytes.length / 8 = k + 1 := by omega
  have hinside : j < k + 1 := hcount ▸ herror.inside
  obtain ⟨d, d', hd, hd', hblocks, hblocks', hresult⟩ := decryptBuffers_two mode hkey hiv hiv hlen
    (herror.length_eq.trans hlen) (hlen ▸ hcap) (hlen ▸ hcap') outLen
  rw [hcount]
  refine ⟨d, d', hd, hd', ?_, ?_, ?_, ?_⟩
  · rw [hblocks j hinside, hblocks' j hinside]
    exact herror.plainBlock_ne mode key.bytes hiv
  · rintro rfl hnext
    rw [hblocks (j + 1) hnext, hblocks' (j + 1) hnext]
    exact herror.plainBlock_next key.bytes (hcount ▸ hnext)
  · intro i hi hne hnext
    rw [hblocks i hi, hblocks' i hi]
    exact herror.plainBlock_eq mode key.bytes (hcount ▸ hi) hne hnext
  · -- the padding check reads the last block alone
    intro hlast hlast'
    apply hresult
    apply herror.plainBlock_eq mode key.bytes (by omega) (by omega)
    intro hmode
    have hlast'' := hlast' hmode
    omega

/-- Decrypting under an IV with an error in it. -/
theorem decrypt_ivError {key iv iv' cipher out out' : Buffer} {k : Nat} {mask : Bytes}
    (hkey : key.bytes.length = 8) (hiv : iv.bytes.length = 8) (hmask : mask.length = 8)
    (hiv' : iv'.bytes = xorBytes iv.bytes mask) (hlen : cipher.bytes.length = 8 * (k + 1))
    (hcap : cipher.bytes.length ≤ out.bytes.length)
    (hcap' : cipher.bytes.length ≤ out'.bytes.length) (outLen : Size) :
    ∃ d d', decryptBuffers .cbc ⟨key, iv, cipher, out⟩ outLen = some d ∧
      decryptBuffers .cbc ⟨key, iv', cipher, out'⟩ outLen = some d' ∧
      blockAt d'.out.bytes 0 = xorBytes (blockAt d.out.bytes 0) mask ∧
      ∀ i < cipher.bytes.length / 8, 0 < i → blockAt d'.out.bytes i = blockAt d.out.bytes i := by
  have hcount : cipher.bytes.length / 8 = k + 1 := by omega
  have hlength : iv'.bytes.length = 8 := by
    rw [hiv', length_xorBytes, hiv, hmask]
    rfl
  obtain ⟨d, d', hd, hd', hblocks, hblocks', -⟩ := decryptBuffers_two .cbc hkey hiv hlength hlen
    hlen (hlen ▸ hcap) (hlen ▸ hcap') outLen
  obtain ⟨hfirst, hothers⟩ := plainBlock_iv key.bytes hiv' cipher.bytes
  rw [hcount]
  refine ⟨d, d', hd, hd', ?_, ?_⟩
  · rw [hblocks 0 (Nat.succ_pos k), hblocks' 0 (Nat.succ_pos k), hfirst]
  · intro i hi hpos
    rw [hblocks i hi, hblocks' i hi, hothers i hpos]

/-- What an error in block `j` of a ciphertext, or in the IV, does to the decrypted bytes:
ECB changes block `j`, CBC changes block `j` and adds the error to block `j + 1`, and an
error in the IV is added to the first block. The result of the call depends on the last
block alone. -/
theorem error_propagation (key iv cipher cipher' out out' : Buffer) (outLen : Size) (j : Nat)
    (mask : Bytes) (hkey : key.bytes.length = 8) (hiv : iv.bytes.length = 8)
    (herror : BlockError j mask cipher.bytes cipher'.bytes)
    (hcap : cipher.bytes.length ≤ out.bytes.length)
    (hcap' : cipher.bytes.length ≤ out'.bytes.length) :
    (∃ d d', decryptBuffers .ecb ⟨key, iv, cipher, out⟩ outLen = some d ∧
      decryptBuffers .ecb ⟨key, iv, cipher', out'⟩ outLen = some d' ∧
      blockAt d'.out.bytes j ≠ blockAt d.out.bytes j ∧
      (∀ i < cipher.bytes.length / 8, i ≠ j → blockAt d'.out.bytes i = blockAt d.out.bytes i) ∧
      (j + 1 < cipher.bytes.length / 8 → d'.status = d.status ∧ d'.outLen = d.outLen)) ∧
    (∃ d d', decryptBuffers .cbc ⟨key, iv, cipher, out⟩ outLen = some d ∧
      decryptBuffers .cbc ⟨key, iv, cipher', out'⟩ outLen = some d' ∧
      blockAt d'.out.bytes j ≠ blockAt d.out.bytes j ∧
      (j + 1 < cipher.bytes.length / 8 →
        blockAt d'.out.bytes (j + 1) = xorBytes (blockAt d.out.bytes (j + 1)) mask) ∧
      (∀ i < cipher.bytes.length / 8, i ≠ j → i ≠ j + 1 →
        blockAt d'.out.bytes i = blockAt d.out.bytes i) ∧
      (j + 2 < cipher.bytes.length / 8 → d'.status = d.status ∧ d'.outLen = d.outLen)) ∧
    ∀ iv' : Buffer, iv'.bytes = xorBytes iv.bytes mask →
      ∃ d d', decryptBuffers .cbc ⟨key, iv, cipher, out⟩ outLen = some d ∧
        decryptBuffers .cbc ⟨key, iv', cipher, out'⟩ outLen = some d' ∧
        blockAt d'.out.bytes 0 = xorBytes (blockAt d.out.bytes 0) mask ∧
        ∀ i < cipher.bytes.length / 8, 0 < i →
          blockAt d'.out.bytes i = blockAt d.out.bytes i := by
  refine ⟨?_, ?_, ?_⟩
  · obtain ⟨d, d', hd, hd', hchanged, -, hkept, hresult⟩ :=
      decrypt_blockError .ecb hkey hiv herror hcap hcap' outLen
    exact ⟨d, d', hd, hd', hchanged, fun i hi hne => hkept i hi hne nofun,
      fun hlast => hresult hlast nofun⟩
  · obtain ⟨d, d', hd, hd', hchanged, hnext, hkept, hresult⟩ :=
      decrypt_blockError .cbc hkey hiv herror hcap hcap' outLen
    exact ⟨d, d', hd, hd', hchanged, hnext rfl, fun i hi hne hne' => hkept i hi hne (fun _ => hne'),
      fun hlast => hresult (by omega) (fun _ => hlast)⟩
  · intro iv' hiv'
    obtain ⟨k, hlen⟩ := herror.length_whole
    exact decrypt_ivError hkey hiv herror.length_mask hiv' hlen hcap hcap' outLen

/-- An error in the first of three blocks leaves the third block of the decrypted bytes. -/
theorem error_propagation_zeroBlocks :
    let cipher : Buffer := ⟨List.replicate 24 0#8, by decide⟩
    let cipher' : Buffer := ⟨List.replicate 8 1#8 ++ List.replicate 16 0#8, by decide⟩
    ∃ d d', decryptBuffers .cbc ⟨zeroBlock, zeroBlock, cipher, cipher⟩ 0#64 = some d ∧
      decryptBuffers .cbc ⟨zeroBlock, zeroBlock, cipher', cipher⟩ 0#64 = some d' ∧
      blockAt d'.out.bytes 1 = xorBytes (blockAt d.out.bytes 1) (List.replicate 8 1#8) ∧
      blockAt d'.out.bytes 2 = blockAt d.out.bytes 2 ∧ d'.status = d.status := by
  intro cipher cipher'
  have herror : BlockError 0 (List.replicate 8 1#8) cipher.bytes cipher'.bytes :=
    ⟨by decide, by decide, by decide, by decide, by decide, by decide, by decide⟩
  obtain ⟨-, ⟨d, d', hd, hd', -, hnext, hothers, hresult⟩, -⟩ := error_propagation zeroBlock
    zeroBlock cipher cipher' cipher cipher 0#64 0 (List.replicate 8 1#8) (by decide) (by decide)
    herror (by decide) (by decide)
  exact ⟨d, d', hd, hd', hnext (by decide), hothers 2 (by decide) (by decide) (by decide),
    (hresult (by decide)).1⟩

end DesModesPropagation
