import DesModular.DesModesRoundTrip

/-!
# Ciphertext blocks

Each block of a ciphertext is one call of `des_encrypt`, on a block of the padded
message in ECB and on its exclusive or with the block before in CBC.
-/
namespace DesModesBlocks

open MachineWord ByteOrder ByteMemory Transducer DesBlock DesModes DesModesSpec DesModeCalls
open DesModeBuffers DesModesRoundTrip
open DesApi (Size DesStatus)

/-- `P_i` in ECB and `P_i ^ C_{i-1}` in CBC, with the IV for `C_{i-1}` of the first block.
Blocks are counted from 0. -/
def cipherInput (mode : Mode) (iv padded cipher : Bytes) (i : Nat) : Bytes :=
  match mode with
  | .ecb => blockAt padded i
  | .cbc => xorBytes (blockAt padded i) (if i = 0 then iv else blockAt cipher (i - 1))

theorem length_cipherInput (mode : Mode) {iv padded cipher : Bytes} {i : Nat}
    (hiv : iv.length = 8) (hpadded : 8 * (i + 1) ≤ padded.length)
    (hcipher : 8 * i ≤ cipher.length) : (cipherInput mode iv padded cipher i).length = 8 := by
  have hblock : (blockAt padded i).length = 8 := length_blockAt hpadded
  cases mode with
  | ecb => exact hblock
  | cbc =>
    rw [cipherInput, length_xorBytes, hblock, length_previous hiv hcipher]
    rfl

/-- `des_encrypt` with three buffers of its own: the status and the output buffer. -/
def desEncryptBuffers (key plaintext out : Buffer) : Option (DesStatus × Bytes) :=
  let b : Buffers := ⟨key, key, plaintext, out⟩
  (DesApi.desEncrypt b.memory b.args.key b.args.keyLen b.args.data b.args.dataLen b.args.out).map
    (fun r => (r.1, r.2.bytes b.args.out out.bytes.length))

theorem desEncryptBuffers_eq {key plaintext out : Buffer} (hkey : key.bytes.length = 8)
    (hplaintext : plaintext.bytes.length = 8) (hout : out.bytes.length = 8) :
    desEncryptBuffers key plaintext out =
      some (.ok, unpack 8 (desEncryptBlock (pack plaintext.bytes) (pack key.bytes))) := by
  have hkeyLen : key.len = 8#64 := (key.len_eq_iff 8 (by decide)).mpr hkey
  have hplaintextLen : plaintext.len = 8#64 := (plaintext.len_eq_iff 8 (by decide)).mpr hplaintext
  let b : Buffers := ⟨key, key, plaintext, out⟩
  have hbounds : ∀ r, (b.region r).bytes.length = 8 → b.memory.InBounds ⟨r, 0⟩ 8 := by
    intro r hr
    rw [← hr, ← Buffer.toNat_len]
    exact inBounds_region b r
  have hcall := DesApi.desEncrypt_ok (hbounds .key hkey) (hbounds .data hplaintext)
    (hbounds .out hout)
  rw [bytes_region b .data hplaintext.symm, bytes_region b .key hkey.symm] at hcall
  have hread := Memory.bytes_write b.memory ⟨.out, 0⟩
    (unpack 8 (desEncryptBlock (pack plaintext.bytes) (pack key.bytes)))
  rw [length_unpack] at hread
  simp only [desEncryptBuffers, Buffers.args, hkeyLen, hplaintextLen, hout]
  rw [hcall, Option.map_some]
  exact congrArg (fun bytes => some (DesStatus.ok, bytes)) hread

/-- Every block of a string of `n` enciphered blocks is one application of the cipher. -/
theorem blockAt_encryptBytes (mode : Mode) (key : Bytes) {iv bytes : Bytes}
    (hiv : iv.length = 8) {n i : Nat} (hlen : bytes.length = 8 * n) (hi : i < n) :
    blockAt (mode.encryptBytes key iv bytes) i = unpack 8 (desEncryptBlock
      (pack (cipherInput mode iv bytes (mode.encryptBytes key iv bytes) i)) (pack key)) := by
  have hdiv : bytes.length / 8 = n := by omega
  have hwords : i < (toWords n bytes).length := by rw [length_toWords]; exact hi
  cases mode with
  | ecb =>
    have hout : i < (output (ecbEncryptStep (pack key)) () (toWords n bytes)).length := by
      rw [length_output]
      exact hwords
    simp only [Mode.encryptBytes, applyStep, hdiv]
    rw [blockAt_ofWords _ i hout, getElem_output _ _ _ i hwords, getElem_toWords]
    rfl
  | cbc =>
    have hout : i < (output (cbcEncryptStep (pack key)) (pack iv) (toWords n bytes)).length := by
      rw [length_output]
      exact hwords
    have hcarry := final_encrypt key iv hlen hi.le
    have hblock : (blockAt bytes i).length = 8 := length_blockAt (by omega)
    have hprevious : (if i = 0 then iv
        else blockAt (Mode.cbc.encryptBytes key iv bytes) (i - 1)).length = 8 :=
      length_previous hiv (by rw [length_encryptBytes]; omega)
    rw [cipherInput, pack_xorBytes (hblock.trans hprevious.symm), ← hcarry]
    simp only [Mode.encryptBytes, applyStep, hdiv]
    rw [blockAt_ofWords _ i hout, getElem_output _ _ _ i hwords, getElem_toWords]
    rfl

/-- The block of `out` at every place is enciphered from the block of the padded message
there and, in CBC, the one of `out` before it. -/
theorem encryptBuffers_blocks (mode : Mode) {key iv message out : Buffer}
    (hkey : key.bytes.length = 8) (hiv : iv.bytes.length = 8)
    (hwrap : paddedLength message < 2 ^ 64) (hcap : desPaddedLen message.len ≤ out.len)
    (outLen : Size) :
    ∃ e, encryptBuffers mode ⟨key, iv, message, out⟩ outLen = some e ∧ e.status = .ok ∧
      e.outLen.toNat = 8 * (message.bytes.length / 8 + 1) ∧
      ∀ i < message.bytes.length / 8 + 1,
        (cipherInput mode iv.bytes (Pkcs7.pad 8 message.bytes) e.out.bytes i).length = 8 ∧
        blockAt e.out.bytes i = unpack 8 (desEncryptBlock
          (pack (cipherInput mode iv.bytes (Pkcs7.pad 8 message.bytes) e.out.bytes i))
          (pack key.bytes)) := by
  have hroom : paddedLength message ≤ out.bytes.length := (paddedLen_le_iff hwrap out).mp hcap
  have hpadded : (Pkcs7.pad 8 message.bytes).length = 8 * (message.bytes.length / 8 + 1) :=
    (length_padded message).trans (paddedLength_eq message)
  have hlen : (cipherBytes mode key iv message).length = 8 * (message.bytes.length / 8 + 1) :=
    (length_cipherBytes mode key iv message).trans (paddedLength_eq message)
  have hblock : ∀ i < message.bytes.length / 8 + 1,
      blockAt (out.overwrite (cipherBytes mode key iv message)).bytes i =
        blockAt (cipherBytes mode key iv message) i := by
    intro i hi
    rw [Buffer.bytes_overwrite out (by rw [length_cipherBytes]; exact hroom)]
    exact blockAt_append (by omega) _
  refine ⟨_, encryptBuffers_ok mode (b := ⟨key, iv, message, out⟩) hkey hiv hwrap hroom outLen, rfl,
    (toNat_paddedLen hwrap).trans (paddedLength_eq message), ?_⟩
  intro i hi
  -- the blocks before are read in `out`, which starts with the ciphertext
  have hinput : cipherInput mode iv.bytes (Pkcs7.pad 8 message.bytes)
        (out.overwrite (cipherBytes mode key iv message)).bytes i =
      cipherInput mode iv.bytes (Pkcs7.pad 8 message.bytes)
        (cipherBytes mode key iv message) i := by
    simp only [cipherInput, hblock (i - 1) (by omega)]
  refine ⟨?_, ?_⟩
  · refine (congrArg List.length hinput).trans ?_
    exact length_cipherInput mode hiv (by omega) (by omega)
  · refine (hblock i hi).trans ((blockAt_encryptBytes mode key.bytes hiv hpadded hi).trans ?_)
    exact congrArg (fun input => unpack 8 (desEncryptBlock (pack input) (pack key.bytes)))
      hinput.symm

/-- The published definitions of both modes, in terms of `des_encrypt`. -/
theorem encrypt_blocks (mode : Mode) (key iv message out : Buffer) (outLen : Size)
    (hkey : key.bytes.length = 8) (hiv : iv.bytes.length = 8)
    (hwrap : message.bytes.length + Pkcs7.padCount 8 message.bytes.length < 2 ^ 64)
    (hcap : desPaddedLen message.len ≤ out.len) :
    ∃ e, encryptBuffers mode ⟨key, iv, message, out⟩ outLen = some e ∧ e.status = .ok ∧
      e.outLen.toNat = 8 * (message.bytes.length / 8 + 1) ∧
      ∀ i < message.bytes.length / 8 + 1, ∃ input : Buffer,
        input.bytes = cipherInput mode iv.bytes (Pkcs7.pad 8 message.bytes) e.out.bytes i ∧
        ∀ scratch : Buffer, scratch.bytes.length = 8 →
          desEncryptBuffers key input scratch = some (.ok, blockAt e.out.bytes i) := by
  obtain ⟨e, he, hok, hlen, hblocks⟩ := encryptBuffers_blocks mode hkey hiv hwrap hcap outLen
  refine ⟨e, he, hok, hlen, ?_⟩
  intro i hi
  obtain ⟨hinputLen, hblock⟩ := hblocks i hi
  refine ⟨⟨_, Nat.lt_of_le_of_lt hinputLen.le (by decide)⟩, rfl, ?_⟩
  intro scratch hscratch
  rw [desEncryptBuffers_eq hkey hinputLen hscratch, hblock]

/-- One full block and its block of padding. -/
theorem encrypt_blocks_zeroBlock :
    let out : Buffer := ⟨List.replicate 16 0#8, by decide⟩
    ∃ e, encryptBuffers .cbc ⟨zeroBlock, zeroBlock, zeroBlock, out⟩ 0#64 = some e ∧
      e.outLen.toNat = 16 ∧ ∃ input : Buffer,
        input.bytes = xorBytes (List.replicate 8 8#8) (blockAt e.out.bytes 0) ∧
        desEncryptBuffers zeroBlock input zeroBlock = some (.ok, blockAt e.out.bytes 1) := by
  obtain ⟨e, he, -, hlen, hblocks⟩ := encrypt_blocks .cbc zeroBlock zeroBlock zeroBlock
    ⟨List.replicate 16 0#8, by decide⟩ 0#64 (by decide) (by decide) (by decide) (by decide)
  obtain ⟨input, hinput, hcall⟩ := hblocks 1 (by decide)
  exact ⟨e, he, hlen, input, hinput, hcall zeroBlock (by decide)⟩

end DesModesBlocks
