import DesModular.ModesExperiments
import Mathlib.Algebra.BigOperators.Group.Finset.Piecewise

/-!
# What the mode experiments show

The numbers that the experiments print, for every key, IV and text that fits: which blocks
repeat, that two IVs change every block, and that a flipped bit damages one block in ECB and
two in CBC, the second in that bit alone.
-/
namespace ModesExperimentResults

open MachineWord ByteOrder ByteMemory BoundedLoop DesBlock DesModes DesModeCalls DesModeBuffers
open DesModesRoundTrip DesModesBlocks DesModesPatterns DesModesPropagation ModesExperiments

theorem length_encrypted {mode : Mode} {b : Buffers} {outLen : DesApi.Size} {e : Outcome}
    (h : encryptBuffers mode b outLen = some e) : e.out.bytes.length = b.out.bytes.length := by
  obtain ⟨r, -, rfl⟩ := Option.map_eq_some_iff.mp h
  exact Memory.length_bytes _ _ _

theorem length_decrypted {mode : Mode} {b : Buffers} {outLen : DesApi.Size} {d : Outcome}
    (h : decryptBuffers mode b outLen = some d) : d.out.bytes.length = b.out.bytes.length := by
  obtain ⟨r, -, rfl⟩ := Option.map_eq_some_iff.mp h
  exact Memory.length_bytes _ _ _

/-- What the experiments need: a key and an IV of eight bytes, and a text that leaves room
for its padding in an array. -/
structure Inputs (key iv text : Buffer) : Prop where
  key : key.bytes.length = 8
  iv : iv.bytes.length = 8
  text : text.bytes.length < bufferBytes

section

variable {key iv text : Buffer} (h : Inputs key iv text)

include h

theorem Inputs.padded_le : paddedLength text ≤ bufferBytes := by
  have htext := h.text
  have hmax : bufferBytes = 64 := rfl
  rw [paddedLength_eq]
  omega

/-- Encryption into one of the arrays. -/
theorem Inputs.encrypts (mode : Mode) {array : Buffer} (harray : array.bytes.length = bufferBytes) :
    ∃ e, encryptBuffers mode ⟨key, iv, text, array⟩ 0#64 = some e ∧ e.status = .ok ∧
      e.out.bytes.length = bufferBytes ∧ e.outLen.toNat = 8 * (text.bytes.length / 8 + 1) ∧
      (e.out.take e.outLen.toNat).bytes = cipherBytes mode key iv text ∧
      ∀ i < text.bytes.length / 8 + 1,
        (cipherInput mode iv.bytes (Pkcs7.pad 8 text.bytes) e.out.bytes i).length = 8 ∧
        blockAt e.out.bytes i = unpack 8 (desEncryptBlock
          (pack (cipherInput mode iv.bytes (Pkcs7.pad 8 text.bytes) e.out.bytes i))
          (pack key.bytes)) := by
  have hpadded := h.padded_le
  have hmax : bufferBytes = 64 := rfl
  have hwrap : paddedLength text < 2 ^ 64 := by omega
  have hroom : paddedLength text ≤ array.bytes.length := by omega
  obtain ⟨e, he, hok, hlen, hblocks⟩ := encryptBuffers_blocks mode h.key h.iv hwrap
    ((paddedLen_le_iff hwrap array).mpr hroom) 0#64
  obtain ⟨e', he', -, -, hcipher⟩ := encryptBuffers_cipher mode h.key h.iv hwrap hroom 0#64
  obtain rfl := Option.some.inj (he.symm.trans he')
  exact ⟨e, he, hok, (length_encrypted he).trans harray, hlen, hcipher, hblocks⟩

end

/-! ## Repeated blocks -/

/-- How many blocks after the first have the same input to the cipher. -/
def repeats (mode : Mode) (iv text : Buffer) (cipher : Bytes) : Nat :=
  (List.range ((text.bytes.length - 1) / 8)).countP fun i =>
    cipherInput mode iv.bytes (Pkcs7.pad 8 text.bytes) cipher (i + 1) =
      cipherInput mode iv.bytes (Pkcs7.pad 8 text.bytes) cipher 0

section

variable {key iv text : Buffer} (h : Inputs key iv text)

include h

/-- Which blocks of a ciphertext repeat the first. -/
theorem Inputs.countRepeatedBlocks (mode : Mode) {e : Outcome}
    (hlen : e.out.bytes.length = bufferBytes)
    (hblocks : ∀ i < text.bytes.length / 8 + 1,
      (cipherInput mode iv.bytes (Pkcs7.pad 8 text.bytes) e.out.bytes i).length = 8 ∧
      blockAt e.out.bytes i = unpack 8 (desEncryptBlock
        (pack (cipherInput mode iv.bytes (Pkcs7.pad 8 text.bytes) e.out.bytes i))
        (pack key.bytes))) :
    ModesExperiments.countRepeatedBlocks e.out.bytes text.bytes.length =
      some (repeats mode iv text e.out.bytes) := by
  have htext := h.text
  have hmax : bufferBytes = 64 := rfl
  rw [countRepeatedBlocks_eq (by omega)]
  congr 1
  apply List.countP_congr
  intro i hi
  have hlt := List.mem_range.mp hi
  obtain ⟨hnext, hcipher⟩ := hblocks (i + 1) (by omega)
  obtain ⟨hfirst, hcipher'⟩ := hblocks 0 (by omega)
  rw [decide_eq_true_iff, decide_eq_true_iff, hcipher, hcipher', enciphered_eq_iff _ hnext hfirst]

end

theorem getElem_blockAt (bytes : Bytes) (i : Nat) {k : Nat} (hk : k < (blockAt bytes i).length)
    (h : 8 * i + k < bytes.length) : (blockAt bytes i)[k] = bytes[8 * i + k] := by
  simp only [blockAt, List.getElem_take, List.getElem_drop]

theorem maskBlock_ne {i : Nat} (hi : i < 8) {mask : U8} (hmask : mask ≠ 0#8) :
    maskBlock i mask ≠ List.replicate 8 0#8 := by
  intro hzero
  have hlength : i < (maskBlock i mask).length := by
    rw [maskBlock, List.length_set, List.length_replicate]
    exact hi
  have hbyte := List.getElem_of_eq hzero hlength
  rw [List.getElem_replicate] at hbyte
  simp only [maskBlock, List.getElem_set_self] at hbyte
  exact hmask hbyte

/-- One changed byte is an error in its block. -/
theorem blockError_set {bytes : Bytes} {n p : Nat} (hlen : bytes.length = 8 * n) (hp : p < 8 * n)
    {mask : U8} (hmask : mask ≠ 0#8) :
    BlockError (p / 8) (maskBlock (p % 8) mask) bytes
      (bytes.set p (bytes.getD p 0#8 ^^^ mask)) := by
  have hlength : (maskBlock (p % 8) mask).length = 8 := by
    rw [maskBlock, List.length_set, List.length_replicate]
  refine ⟨by omega, by omega, List.length_set, hlength,
    maskBlock_ne (Nat.mod_lt _ (by decide)) hmask, ?_, ?_⟩
  · have hblock : (blockAt bytes (p / 8)).length = 8 := length_blockAt (by omega)
    have hblock' : (blockAt (bytes.set p (bytes.getD p 0#8 ^^^ mask)) (p / 8)).length = 8 :=
      length_blockAt (by rw [List.length_set]; omega)
    apply List.ext_getElem (by rw [length_xorBytes]; omega)
    intro k h1 h2
    rw [getElem_blockAt _ _ h1 (by rw [List.length_set]; omega)]
    simp only [xorBytes, List.getElem_zipWith, maskBlock, List.getElem_set,
      List.getElem_replicate]
    rw [getElem_blockAt bytes _ (by omega) (by omega)]
    by_cases hk : p = 8 * (p / 8) + k
    · have hk' : p % 8 = k := by omega
      rw [if_pos hk, if_pos hk', List.getD_eq_getElem _ _ (by omega)]
      simp only [← hk]
    · have hk' : ¬p % 8 = k := by omega
      rw [if_neg hk, if_neg hk', BitVec.xor_zero]
  · intro i hi hne
    have hblock : (blockAt bytes i).length = 8 := length_blockAt (by omega)
    have hblock' : (blockAt (bytes.set p (bytes.getD p 0#8 ^^^ mask)) i).length = 8 :=
      length_blockAt (by rw [List.length_set]; omega)
    apply List.ext_getElem (hblock'.trans hblock.symm)
    intro k h1 h2
    rw [getElem_blockAt _ _ h1 (by rw [List.length_set]; omega),
      getElem_blockAt bytes _ h2 (by omega), List.getElem_set_ne (by omega)]

/-- What the decryption of a ciphertext with a flipped bit in block `j` shows. -/
structure Damaged (mode : Mode) (text : Buffer) (j : Nat) (mask : Bytes) (d : Outcome) : Prop where
  status : d.status = .ok
  length : d.out.bytes.length = bufferBytes
  block : blockAt d.out.bytes j ≠ blockAt text.bytes j
  next : mode = .cbc →
    blockAt d.out.bytes (j + 1) = xorBytes (blockAt text.bytes (j + 1)) mask
  others : ∀ i < text.bytes.length / 8, i ≠ j → (mode = .cbc → i ≠ j + 1) →
    blockAt d.out.bytes i = blockAt text.bytes i

/-- The flip, and the decryption of what it leaves, in either mode. -/
theorem Inputs.damaged {key iv text : Buffer} (h : Inputs key iv text) (mode : Mode)
    {array plain : Buffer} (harray : array.bytes.length = bufferBytes)
    (hplain : plain.bytes.length = bufferBytes) {p : Nat} {mask : U8}
    (hp : p / 8 + 1 < text.bytes.length / 8) (hmask : mask ≠ 0#8) :
    ∃ e b d, encryptBuffers mode ⟨key, iv, text, array⟩ 0#64 = some e ∧ e.status = .ok ∧
      flip e.out p mask = some b ∧
      decryptBuffers mode ⟨key, iv, b.take e.outLen.toNat, plain⟩ 0#64 = some d ∧
      Damaged mode text (p / 8) (maskBlock (p % 8) mask) d := by
  obtain ⟨e, he, hok, hlen, houtLen, hcipher, -⟩ := h.encrypts mode harray
  have hpadded := h.padded_le
  have hpaddedLen := paddedLength_eq text
  have hmax : bufferBytes = 64 := rfl
  have hplace : p < e.out.bytes.length := by omega
  obtain ⟨b, hb⟩ : ∃ b : Buffer, flip e.out p mask = some b ∧
      b.bytes = e.out.bytes.set p (e.out.bytes.getD p 0#8 ^^^ mask) := ⟨_, if_pos hplace, rfl⟩
  let cipher := e.out.take e.outLen.toNat
  have hcipherLen : cipher.bytes.length = 8 * (text.bytes.length / 8 + 1) := by
    rw [Buffer.bytes_take, List.length_take]
    omega
  have hflipped : (b.take e.outLen.toNat).bytes =
      cipher.bytes.set p (cipher.bytes.getD p 0#8 ^^^ mask) := by
    have hsame : cipher.bytes.getD p 0#8 = e.out.bytes.getD p 0#8 := by
      rw [List.getD_eq_getElem _ _ (by omega), List.getD_eq_getElem _ _ hplace]
      simp only [cipher, Buffer.bytes_take, List.getElem_take]
    rw [hsame, Buffer.bytes_take, hb.2, List.take_set]
    rfl
  have herror : BlockError (p / 8) (maskBlock (p % 8) mask) cipher.bytes
      (b.take e.outLen.toNat).bytes := by
    rw [hflipped]
    exact blockError_set hcipherLen (by omega) hmask
  have hroom : cipher.bytes.length ≤ plain.bytes.length := by omega
  have hroom' : paddedLength text ≤ plain.bytes.length := by omega
  obtain ⟨d₀, d, hd₀, hd, hblock, hnext, hothers, hstatus⟩ :=
    decrypt_blockError mode h.key h.iv herror hroom hroom 0#64
  -- without the flip the padded text is recovered
  have hclean : decryptBuffers mode ⟨key, iv, cipher, plain⟩ 0#64 = _ :=
    decryptBuffers_cipher mode h.key h.iv hcipher hroom' 0#64
  obtain rfl := Option.some.inj (hd₀.symm.trans hclean)
  have htext : ∀ i < text.bytes.length / 8,
      blockAt (plain.overwrite (Pkcs7.pad 8 text.bytes)).bytes i = blockAt text.bytes i := by
    intro i hi
    have hpad := length_padded text
    rw [Buffer.bytes_overwrite _ (by omega), blockAt_append (by omega), Pkcs7.pad,
      blockAt_append (by omega)]
  have hcount : cipher.bytes.length / 8 = text.bytes.length / 8 + 1 := by omega
  rw [hcount] at hnext hothers hstatus
  refine ⟨e, b, d, he, hok, hb.1, hd, ?_, (length_decrypted hd).trans hplain, ?_, ?_, ?_⟩
  · exact (hstatus (by omega) (fun _ => by omega)).1
  · rw [← htext _ (by omega)]
    exact hblock
  · intro hmode
    rw [← htext _ hp]
    exact hnext hmode (by omega)
  · intro i hi hne hcbc
    rw [← htext i hi]
    exact hothers i (by omega) hne hcbc

/-- The table of the loop over the blocks, from the bits changed in each. -/
theorem foldl_add (ecb cbc : Nat → Nat) (list : List Nat) (damage : Damage) :
    list.foldl (fun damage i => damage.add (ecb i) (cbc i)) damage =
      ⟨damage.rows ++ list.map fun i => (ecb i, cbc i),
        (damage.blocks.1 + list.countP (fun i => ecb i ≠ 0),
          damage.blocks.2 + list.countP (fun i => cbc i ≠ 0)),
        (damage.bits.1 + (list.map ecb).sum, damage.bits.2 + (list.map cbc).sum)⟩ := by
  induction list generalizing damage with
  | nil => simp
  | cons i rest ih =>
    rw [List.foldl_cons, ih]
    simp only [Damage.add, List.map_cons, List.sum_cons, List.countP_cons, List.append_assoc,
      List.singleton_append, Nat.add_assoc, Damage.mk.injEq, true_and, Prod.mk.injEq, and_true]
    have hcount : ∀ bits count rest : Nat, (if bits ≠ 0 then count + 1 else count) + rest =
        count + (rest + if decide (bits ≠ 0) then 1 else 0) := by
      intro bits count rest
      by_cases hbits : bits = 0
      · simp [hbits]
      · simp [hbits, Nat.add_assoc, Nat.add_comm 1]
    exact ⟨hcount _ _ _, hcount _ _ _⟩

/-- The whole table of `n` blocks. -/
def table (ecb cbc : Nat → Nat) (n : Nat) : Damage where
  rows := (List.range n).map fun i => (ecb i, cbc i)
  blocks := ((List.range n).countP fun i => ecb i ≠ 0, (List.range n).countP fun i => cbc i ≠ 0)
  bits := (((List.range n).map ecb).sum, ((List.range n).map cbc).sum)

theorem foldl_table (ecb cbc : Nat → Nat) (n : Nat) :
    (List.range n).foldl (fun damage i => damage.add (ecb i) (cbc i)) ⟨[], (0, 0), (0, 0)⟩ =
      table ecb cbc n := by
  rw [foldl_add]
  simp only [table, List.nil_append, Nat.zero_add]

theorem countP_range (p : Nat → Prop) [DecidablePred p] (n : Nat) :
    (List.range n).countP p = ∑ i ∈ Finset.range n, if p i then 1 else 0 := by
  rw [List.countP_eq_length_filter]
  exact Finset.card_filter p (Finset.range n)

theorem sum_range (f : Nat → Nat) (n : Nat) :
    ((List.range n).map f).sum = ∑ i ∈ Finset.range n, f i := rfl

/-- One block damaged in ECB, it and the next one in CBC. -/
theorem table_damaged {ecb cbc : Nat → Nat} {n j : Nat} (hj : j + 1 < n)
    (hecb : ∀ i < n, ecb i ≠ 0 ↔ i = j) (hcbc : ∀ i < n, cbc i ≠ 0 ↔ i = j ∨ i = j + 1) :
    (table ecb cbc n).blocks = (1, 2) ∧
      (table ecb cbc n).bits = (ecb j, cbc j + cbc (j + 1)) ∧
      ∀ i < n, (table ecb cbc n).rows[i]? = some (if i = j then (ecb j, cbc j)
        else if i = j + 1 then (0, cbc (j + 1)) else (0, 0)) := by
  have hin : j ∈ Finset.range n := Finset.mem_range.mpr (by omega)
  have hin' : j + 1 ∈ Finset.range n := Finset.mem_range.mpr hj
  have hecbZero : ∀ i ∈ Finset.range n, i ≠ j → ecb i = 0 := by
    intro i hi hne
    exact not_not.mp (mt (hecb i (Finset.mem_range.mp hi)).mp hne)
  have hcbcZero : ∀ i ∈ Finset.range n, i ≠ j ∧ i ≠ j + 1 → cbc i = 0 := by
    intro i hi hne
    exact not_not.mp (mt (hcbc i (Finset.mem_range.mp hi)).mp (not_or.mpr hne))
  have hecbOne := (hecb j (by omega)).mpr rfl
  have hcbcOne := (hcbc j (by omega)).mpr (.inl rfl)
  have hcbcTwo := (hcbc (j + 1) hj).mpr (.inr rfl)
  refine ⟨?_, ?_, ?_⟩
  · simp only [table, countP_range]
    rw [Finset.sum_eq_single j (fun i hi hne => if_neg (not_not.mpr (hecbZero i hi hne)))
        (fun hout => absurd hin hout),
      Finset.sum_eq_add j (j + 1) (by omega)
        (fun i hi hne => if_neg (not_not.mpr (hcbcZero i hi hne)))
        (fun hout => absurd hin hout) (fun hout => absurd hin' hout),
      if_pos hecbOne, if_pos hcbcOne, if_pos hcbcTwo]
  · simp only [table, sum_range]
    rw [Finset.sum_eq_single j hecbZero (fun hout => absurd hin hout),
      Finset.sum_eq_add j (j + 1) (by omega) hcbcZero (fun hout => absurd hin hout)
        (fun hout => absurd hin' hout)]
  · intro i hi
    rw [table, List.getElem?_map, List.getElem?_range hi, Option.map_some]
    have hmem : i ∈ Finset.range n := Finset.mem_range.mpr hi
    by_cases hij : i = j
    · rw [if_pos hij, hij]
    · rw [if_neg hij, hecbZero i hmem hij]
      by_cases hnext : i = j + 1
      · rw [if_pos hnext, hnext]
      · rw [if_neg hnext, hcbcZero i hmem ⟨hij, hnext⟩]

/-- The bits that differ from the text in block `i`. -/
theorem Damaged.changedBits {mode : Mode} {text : Buffer} {j : Nat} {mask : Bytes} {d : Outcome}
    (h : Damaged mode text j mask d) (hfits : text.bytes.length < bufferBytes) {i : Nat}
    (hi : i < text.bytes.length / 8) : ModesExperiments.changedBits text.bytes d i =
      some (bitDifferences (blockAt text.bytes i) (blockAt d.out.bytes i)) := by
  have hlen := h.length
  rw [ModesExperiments.changedBits, if_pos h.status, blockBitDifferences_eq (by omega) (by omega),
    Nat.mul_comm]
  rfl

theorem Damaged.bits_ne_zero_iff {mode : Mode} {text : Buffer} {j : Nat} {mask : Bytes}
    {d : Outcome} (h : Damaged mode text j mask d) (hfits : text.bytes.length < bufferBytes)
    (hmask : mask.length = 8) (hne : mask ≠ List.replicate 8 0#8) {i : Nat}
    (hi : i < text.bytes.length / 8) :
    bitDifferences (blockAt text.bytes i) (blockAt d.out.bytes i) ≠ 0 ↔
      i = j ∨ mode = .cbc ∧ i = j + 1 := by
  have hlen := h.length
  have hblock : (blockAt text.bytes i).length = 8 := length_blockAt (by omega)
  rw [Ne, bitDifferences_eq_zero_iff hblock (length_blockAt (by omega))]
  constructor
  · intro hdiffer
    by_contra hout
    push Not at hout
    exact hdiffer (h.others i hi hout.1 hout.2).symm
  · rintro (rfl | ⟨hmode, rfl⟩)
    · exact fun heq => h.block heq.symm
    · rw [h.next hmode]
      exact fun heq => xorBytes_mask_ne hblock hmask hne heq.symm

/-- The third experiment: both decryptions succeed, and a flipped bit in a block that is not
one of the last two damages that block alone in ECB; in CBC also the next one, exactly in the
bits of the mask. -/
theorem flipped_bit (key iv text ecb cbc ecbPlain cbcPlain : Buffer) (h : Inputs key iv text)
    (hecb : ecb.bytes.length = bufferBytes) (hcbc : cbc.bytes.length = bufferBytes)
    (hecbPlain : ecbPlain.bytes.length = bufferBytes)
    (hcbcPlain : cbcPlain.bytes.length = bufferBytes) (flipByte : Nat) (flipMask : U8)
    (hbyte : flipByte / 8 + 1 < text.bytes.length / 8) (hmask : flipMask ≠ 0#8) :
    ∃ r, experimentErrorPropagation key iv text flipByte flipMask ecb cbc ecbPlain cbcPlain =
        some (some r) ∧
      r.ecbStatus = .ok ∧ r.cbcStatus = .ok ∧ r.total = text.bytes.length / 8 ∧
      r.damage.rows.length = r.total ∧ r.damage.blocks = (1, 2) ∧
      ∃ inEcb inCbc, inEcb ≠ 0 ∧ inCbc ≠ 0 ∧
        r.damage.bits = (inEcb, inCbc + ones flipMask) ∧
        ∀ i, i < r.total → r.damage.rows[i]? = some (
          if i = flipByte / 8 then (inEcb, inCbc)
          else if i = flipByte / 8 + 1 then (0, ones flipMask)
          else (0, 0)) := by
  obtain ⟨e, b, d, he, hok, hb, hd, hdamaged⟩ := h.damaged .ecb hecb hecbPlain hbyte hmask
  obtain ⟨e', b', d', he', hok', hb', hd', hdamaged'⟩ := h.damaged .cbc hcbc hcbcPlain hbyte hmask
  let inEcb := fun i => bitDifferences (blockAt text.bytes i) (blockAt d.out.bytes i)
  let inCbc := fun i => bitDifferences (blockAt text.bytes i) (blockAt d'.out.bytes i)
  have hplace : flipByte % 8 < 8 := Nat.mod_lt _ (by decide)
  have hlength : (maskBlock (flipByte % 8) flipMask).length = 8 := by
    rw [maskBlock, List.length_set, List.length_replicate]
  have hones : ones flipMask ≠ 0 := mt (ones_eq_zero_iff flipMask).mp hmask
  have hnonzero := maskBlock_ne hplace hmask
  have hecbIff : ∀ i < text.bytes.length / 8, inEcb i ≠ 0 ↔ i = flipByte / 8 := by
    intro i hi
    rw [hdamaged.bits_ne_zero_iff h.text hlength hnonzero hi]
    simp
  have hcbcIff : ∀ i < text.bytes.length / 8,
      inCbc i ≠ 0 ↔ i = flipByte / 8 ∨ i = flipByte / 8 + 1 := by
    intro i hi
    rw [hdamaged'.bits_ne_zero_iff h.text hlength hnonzero hi]
    simp
  have hnext : inCbc (flipByte / 8 + 1) = ones flipMask := by
    show bitDifferences _ _ = _
    rw [hdamaged'.next rfl, bitDifferences_xorBytes (length_blockAt (by omega)) hlength,
      sum_ones_maskBlock hplace]
  have hloop : (List.range (text.bytes.length / 8)).foldlM (fun damage i =>
      (ModesExperiments.changedBits text.bytes d i).bind fun a =>
        (ModesExperiments.changedBits text.bytes d' i).bind fun b => some (damage.add a b))
      (⟨[], (0, 0), (0, 0)⟩ : Damage) = some ((List.range (text.bytes.length / 8)).foldl
        (fun damage i => damage.add (inEcb i) (inCbc i)) ⟨[], (0, 0), (0, 0)⟩) := by
    apply foldlM_eq_some
    intro i hi damage
    have hlt := List.mem_range.mp hi
    rw [hdamaged.changedBits h.text hlt, hdamaged'.changedBits h.text hlt]
    rfl
  rw [foldl_table] at hloop
  have hrun : experimentErrorPropagation key iv text flipByte flipMask ecb cbc ecbPlain cbcPlain =
      some (some ⟨d.status, d'.status, table inEcb inCbc (text.bytes.length / 8),
        text.bytes.length / 8⟩) := by
    simp only [experimentErrorPropagation, he, he', hok, hok', hb, hb', hd, hd',
      Option.bind_eq_bind, Option.bind_some, ne_eq, not_true_eq_false, if_false, Option.pure_def]
    rw [hloop]
    rfl
  obtain ⟨hblocks, hbits, hrows⟩ := table_damaged hbyte hecbIff hcbcIff
  rw [hnext] at hbits hrows
  refine ⟨_, hrun, hdamaged.status, hdamaged'.status, rfl, ?_, hblocks, inEcb (flipByte / 8),
    inCbc (flipByte / 8), ?_, ?_, hbits, hrows⟩
  · show (List.map _ _).length = _
    rw [List.length_map, List.length_range]
  · exact (hecbIff _ (by omega)).mpr rfl
  · exact (hcbcIff _ (by omega)).mpr (.inl rfl)

/-! ## The program's own inputs -/

theorem inputs_repeated : Inputs key iv repeated := ⟨by decide, by decide, by decide⟩

/-- A local array before it is written. -/
def zeroArray : Buffer := ⟨List.replicate 64 0#8, by decide⟩

/-- "ECB: 1 of 4 plaintext blocks damaged", "CBC: 2 of 4 plaintext blocks damaged". -/
theorem flipped_bit_own : ∃ r,
    experimentErrorPropagation key iv repeated 11 0x08#8 zeroArray zeroArray zeroArray zeroArray =
        some (some r) ∧ r.ecbStatus = .ok ∧ r.cbcStatus = .ok ∧ r.total = 4 ∧
      r.damage.blocks = (1, 2) := by
  obtain ⟨r, hr, hok, hok', htotal, -, hblocks, -⟩ := flipped_bit key iv repeated zeroArray
    zeroArray zeroArray zeroArray inputs_repeated (by decide) (by decide) (by decide) (by decide)
    11 0x08#8 (by decide) (by decide)
  exact ⟨r, hr, hok, hok', htotal.trans (by decide), hblocks⟩

end ModesExperimentResults
