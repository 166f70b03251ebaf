import DesModular.DesModesPatterns

/-!
# The demo program

`examples/main.c`: a text is enciphered and deciphered block by block through two zeroed
buffers, and what was recovered is printed as a C string. A run has a result only if
every access stays inside its buffer.
-/
namespace DesDemo

open MachineWord ByteOrder ByteMemory DesBlock DesModeCalls DesModeBuffers DesModesRoundTrip
open DesModesBlocks DesModesPatterns

/-- `DEMO_KEY`. -/
def demoKey : U64 := 0x133457799BBCDFF1#64

/-- `MAX_TEXT_LEN`. -/
def maxTextLen : Nat := 1024

/-- A C string, without its final zero. -/
structure CString where
  bytes : Bytes
  nonzero : ∀ b ∈ bytes, b ≠ 0#8

/-- `k_default_text`. -/
def defaultText : CString where
  bytes := "Hola, DES desde C!".toList.map fun c => BitVec.ofNat 8 c.toNat
  nonzero := by decide

inductive Array where
  | text | plain | recovered
  deriving DecidableEq, Repr

/-- The argument and the two zeroed buffers. -/
def arrays (text : CString) : Memory Array where
  size
    | .text => text.bytes.length + 1
    | .plain => maxTextLen
    | .recovered => maxTextLen
  byte
    | .text => fun i => text.bytes.getD i 0#8
    | .plain => fun _ => 0#8
    | .recovered => fun _ => 0#8

def bytesToBlock (m : Memory Array) (bytes : Pointer Array) : Option U64 :=
  m.loadBigEndian bytes 8

def blockToBytes (m : Memory Array) (block : U64) (bytes : Pointer Array) :
    Option (Memory Array) :=
  m.storeBigEndian bytes 8 block

/-- The bytes before the first zero, if there is one. -/
def upToZero : Bytes → Option Bytes
  | [] => none
  | b :: bs => if b = 0#8 then some [] else (upToZero bs).map (b :: ·)

/-- What `printf("%s", p)` prints. -/
def printed (m : Memory Array) (p : Pointer Array) : Option Bytes :=
  upToZero (m.bytes p (m.size p.block - p.offset))

/-- The first `n` iterations: the memory, and the plain and cipher blocks printed. -/
def blockLoop (m : Memory Array) : Nat → Option (Memory Array × List (U64 × U64))
  | 0 => some (m, [])
  | i + 1 => do
    let (m, shown) ← blockLoop m i
    let plainBlock ← bytesToBlock m ⟨.plain, i * 8⟩
    let cipherBlock := desEncryptBlock plainBlock demoKey
    let backBlock := desDecryptBlock cipherBlock demoKey
    let m ← blockToBytes m backBlock ⟨.recovered, i * 8⟩
    pure (m, shown ++ [(plainBlock, cipherBlock)])

/-- What is printed about a text that is accepted. -/
structure Transcript where
  text : Bytes
  shown : List (U64 × U64)
  recovered : Bytes
  deriving DecidableEq, Repr

inductive Ending where
  | badLength
  | mismatch (transcript : Transcript)
  | success (transcript : Transcript)
  deriving DecidableEq, Repr

def demo (text : CString) : Option Ending :=
  let textLen := text.bytes.length
  if textLen = 0 ∨ maxTextLen ≤ textLen then some .badLength
  else do
    let blockCount := textLen / 8 + 1
    let m ← (arrays text).memcpy ⟨.plain, 0⟩ ⟨.text, 0⟩ textLen
    let original ← printed m ⟨.text, 0⟩
    let (m, shown) ← blockLoop m blockCount
    let recovered ← printed m ⟨.recovered, 0⟩
    let transcript : Transcript := ⟨original, shown, recovered⟩
    if m.bytes ⟨.plain, 0⟩ textLen ≠ m.bytes ⟨.recovered, 0⟩ textLen then
      pure (.mismatch transcript)
    else pure (.success transcript)

/-- `args` are the arguments after the program's name. -/
def main (args : List CString) : Option Ending := demo (args.headD defaultText)

/-! ## Strings in memory -/

/-- The bytes of a string end at the first zero behind it. -/
theorem upToZero_append {text : Bytes} (h : ∀ b ∈ text, b ≠ 0#8) (rest : Bytes) :
    upToZero (text ++ 0#8 :: rest) = some text := by
  induction text with
  | nil => simp [upToZero]
  | cons b bs ih =>
    obtain ⟨hb, hbs⟩ := List.forall_mem_cons.mp h
    rw [List.cons_append, upToZero, if_neg hb, ih hbs]
    rfl

theorem bytes_text (text : CString) :
    (arrays text).bytes ⟨.text, 0⟩ text.bytes.length = text.bytes := by
  apply List.ext_getElem (by simp)
  intro i h1 h2
  rw [Memory.getElem_bytes]
  simp [arrays, h2]

theorem bytes_zeroed (text : CString) {block : Array} (hblock : block ≠ .text) (offset n : Nat) :
    (arrays text).bytes ⟨block, offset⟩ n = List.replicate n 0#8 := by
  apply List.ext_getElem (by simp)
  intro i h1 h2
  rw [Memory.getElem_bytes, List.getElem_replicate]
  cases block with
  | text => exact absurd rfl hblock
  | plain => rfl
  | recovered => rfl

/-- What is in the plaintext buffer: the text, and zeros behind it. -/
def zeroPadded (text : CString) : Bytes :=
  text.bytes ++ List.replicate (maxTextLen - text.bytes.length) 0#8

/-- The memory in which the loop starts. -/
def copied (text : CString) : Memory Array := (arrays text).write ⟨.plain, 0⟩ text.bytes

theorem bytes_plain {text : CString} (h : text.bytes.length < maxTextLen) :
    (copied text).bytes ⟨.plain, 0⟩ maxTextLen = zeroPadded text := by
  obtain ⟨rest, hrest⟩ : ∃ rest, maxTextLen = text.bytes.length + rest :=
    Nat.exists_eq_add_of_le (Nat.le_of_lt h)
  have hapart : Apart (⟨.plain, 0⟩ : Pointer Array) text.bytes.length
      ((⟨.plain, 0⟩ : Pointer Array).add text.bytes.length) rest := .inr (.inl (by simp))
  have hzeros : (arrays text).bytes ((⟨.plain, 0⟩ : Pointer Array).add text.bytes.length) rest =
      List.replicate rest 0#8 := bytes_zeroed text (by simp) _ rest
  rw [hrest, Memory.bytes_add, copied, Memory.bytes_write,
    Memory.bytes_write_apart _ _ _ _ _ hapart, hzeros, zeroPadded, hrest, Nat.add_sub_cancel_left]

theorem memcpy_text {text : CString} (h : text.bytes.length < maxTextLen) :
    (arrays text).memcpy ⟨.plain, 0⟩ ⟨.text, 0⟩ text.bytes.length = some (copied text) := by
  have hplain : (arrays text).InBounds ⟨.plain, 0⟩ text.bytes.length := by
    show 0 + text.bytes.length ≤ maxTextLen
    omega
  have htext : (arrays text).InBounds ⟨.text, 0⟩ text.bytes.length := by
    show 0 + text.bytes.length ≤ text.bytes.length + 1
    omega
  rw [Memory.memcpy_eq hplain htext (.inl (by simp)), bytes_text, copied]

theorem printed_text (text : CString) : printed (copied text) ⟨.text, 0⟩ = some text.bytes := by
  have hapart : Apart (⟨.plain, 0⟩ : Pointer Array) text.bytes.length ⟨.text, 0⟩
      (text.bytes.length + 1) := .inl (by simp)
  have hend : (arrays text).bytes ((⟨.text, 0⟩ : Pointer Array).add text.bytes.length) 1 =
      [0#8] := by
    rw [Memory.bytes_one]
    simp [arrays]
  rw [printed]
  show upToZero ((copied text).bytes ⟨.text, 0⟩ (text.bytes.length + 1)) = some text.bytes
  rw [copied, Memory.bytes_write_apart _ _ _ _ _ hapart, Memory.bytes_add, bytes_text, hend]
  exact upToZero_append text.nonzero []

/-! ## The loop -/

/-- What is printed about block `i`. -/
def shownBlock (m : Memory Array) (i : Nat) : U64 × U64 :=
  let block := pack (m.bytes ⟨.plain, i * 8⟩ 8)
  (block, desEncryptBlock block demoKey)

/-- After `n` iterations the first `n` blocks are recovered, and nothing else has changed. -/
theorem blockLoop_eq {m : Memory Array} {n : Nat} (hplain : m.InBounds ⟨.plain, 0⟩ (n * 8))
    (hrecovered : m.InBounds ⟨.recovered, 0⟩ (n * 8)) :
    blockLoop m n = some (m.write ⟨.recovered, 0⟩ (m.bytes ⟨.plain, 0⟩ (n * 8)),
      (List.range n).map (shownBlock m)) := by
  induction n with
  | zero =>
    rw [Nat.zero_mul, Memory.bytes_zero, Memory.write_nil]
    rfl
  | succ i ih =>
    rw [Nat.succ_mul] at hplain hrecovered
    have hfront := Memory.length_bytes m ⟨.plain, 0⟩ (i * 8)
    have hread : m.InBounds ⟨.plain, i * 8⟩ 8 := by
      have hadd := hplain.add (k := i * 8) (l := 8) (Nat.le_refl _)
      rwa [Pointer.add, Nat.zero_add] at hadd
    have hwrite : m.InBounds ⟨.recovered, i * 8⟩ 8 := by
      have hadd := hrecovered.add (k := i * 8) (l := 8) (Nat.le_refl _)
      rwa [Pointer.add, Nat.zero_add] at hadd
    have hkept : (m.write ⟨.recovered, 0⟩ (m.bytes ⟨.plain, 0⟩ (i * 8))).bytes ⟨.plain, i * 8⟩ 8 =
        m.bytes ⟨.plain, i * 8⟩ 8 := Memory.bytes_write_apart _ _ _ _ _ (.inl (by simp))
    have hjoin := Memory.write_append m ⟨.recovered, 0⟩ (m.bytes ⟨.plain, 0⟩ (i * 8))
      (m.bytes ⟨.plain, i * 8⟩ 8)
    rw [hfront, Pointer.add, Nat.zero_add] at hjoin
    have hsplit := Memory.bytes_add m ⟨.plain, 0⟩ (i * 8) 8
    rw [Pointer.add, Nat.zero_add] at hsplit
    -- deciphering gives back the block that was read
    have hblock : unpack 8 (pack (m.bytes ⟨.plain, i * 8⟩ 8)) = m.bytes ⟨.plain, i * 8⟩ 8 :=
      unpack_pack_eight (Memory.length_bytes _ _ _)
    rw [blockLoop, ih (hplain.mono (Nat.le_add_right _ _)) (hrecovered.mono (Nat.le_add_right _ _))]
    simp only [Option.bind_eq_bind, Option.bind_some, Option.pure_def, bytesToBlock, blockToBytes]
    rw [Memory.loadBigEndian_eq ((Memory.write_inBounds _ _ _ _ _).mpr hread), hkept]
    simp only [Option.bind_some, desDecryptBlock_encrypt]
    rw [Memory.storeBigEndian_eq ((Memory.write_inBounds _ _ _ _ _).mpr hwrite), hblock, hjoin,
      Nat.succ_mul, hsplit, List.range_succ, List.map_append]
    rfl

/-! ## The whole run -/

/-- The text filled up with zeros to whole blocks, with at least one. -/
def zeroFilled (text : CString) : Bytes :=
  text.bytes ++ List.replicate (8 - text.bytes.length % 8) 0#8

theorem length_zeroFilled (text : CString) :
    (zeroFilled text).length = (text.bytes.length / 8 + 1) * 8 := by
  rw [zeroFilled, List.length_append, List.length_replicate]
  omega

/-- The first blocks of the plaintext buffer. -/
theorem bytes_copied {text : CString} (h : text.bytes.length < maxTextLen) :
    (copied text).bytes ⟨.plain, 0⟩ ((text.bytes.length / 8 + 1) * 8) = zeroFilled text := by
  have hmax : maxTextLen = 1024 := rfl
  have hmin : min ((text.bytes.length / 8 + 1) * 8 - text.bytes.length)
      (maxTextLen - text.bytes.length) = 8 - text.bytes.length % 8 := by omega
  rw [← Memory.take_bytes _ _ (by omega : _ ≤ maxTextLen), bytes_plain h, zeroPadded,
    List.take_append, List.take_of_length_le (by omega), List.take_replicate, hmin, zeroFilled]

/-- What is printed about the blocks. -/
def transcriptBlocks (text : CString) : List (U64 × U64) :=
  (List.range (text.bytes.length / 8 + 1)).map fun i =>
    (pack (blockAt (zeroFilled text) i),
      desEncryptBlock (pack (blockAt (zeroFilled text) i)) demoKey)

theorem map_shownBlock {text : CString} (h : text.bytes.length < maxTextLen) :
    (List.range (text.bytes.length / 8 + 1)).map (shownBlock (copied text)) =
      transcriptBlocks text := by
  apply List.map_congr_left
  intro i hi
  have hlt := List.mem_range.mp hi
  have hblock : (copied text).bytes ⟨.plain, i * 8⟩ 8 = blockAt (zeroFilled text) i := by
    have hdrop := Memory.drop_bytes (copied text) ⟨.plain, 0⟩
      (by omega : i * 8 ≤ (text.bytes.length / 8 + 1) * 8)
    rw [bytes_copied h, Pointer.add, Nat.zero_add] at hdrop
    rw [blockAt, Nat.mul_comm 8 i, hdrop, Memory.take_bytes _ _ (by omega)]
  rw [shownBlock, hblock]

theorem take_zeroFilled (text : CString) :
    (zeroFilled text).take text.bytes.length = text.bytes := by
  rw [zeroFilled, List.take_left]

/-- There is always a zero to end the text. -/
theorem upToZero_zeroFilled (text : CString) (rest : Bytes) :
    upToZero (zeroFilled text ++ rest) = some text.bytes := by
  obtain ⟨k, hk⟩ : ∃ k, 8 - text.bytes.length % 8 = k + 1 :=
    Nat.exists_eq_succ_of_ne_zero (by omega)
  rw [zeroFilled, hk, List.replicate_succ, List.append_assoc, List.cons_append]
  exact upToZero_append text.nonzero _

/-- A text of 1 to 1023 bytes is recovered. -/
theorem demo_success {text : CString} (hne : text.bytes.length ≠ 0)
    (h : text.bytes.length < maxTextLen) :
    demo text = some (.success ⟨text.bytes, transcriptBlocks text, text.bytes⟩) := by
  have hmax : maxTextLen = 1024 := rfl
  have hguard : ¬(text.bytes.length = 0 ∨ maxTextLen ≤ text.bytes.length) := by omega
  have hplain : (copied text).InBounds ⟨.plain, 0⟩ ((text.bytes.length / 8 + 1) * 8) := by
    show 0 + _ ≤ maxTextLen
    omega
  have hrecovered : (copied text).InBounds ⟨.recovered, 0⟩ ((text.bytes.length / 8 + 1) * 8) := by
    show 0 + _ ≤ maxTextLen
    omega
  have hloop := blockLoop_eq hplain hrecovered
  rw [bytes_copied h, map_shownBlock h] at hloop
  let m := (copied text).write ⟨.recovered, 0⟩ (zeroFilled text)
  have hback : m.bytes ⟨.recovered, 0⟩ ((text.bytes.length / 8 + 1) * 8) = zeroFilled text := by
    rw [← length_zeroFilled]
    exact Memory.bytes_write _ _ _
  have hprinted : printed m ⟨.recovered, 0⟩ = some text.bytes := by
    obtain ⟨rest, hrest⟩ : ∃ rest, maxTextLen = (text.bytes.length / 8 + 1) * 8 + rest :=
      Nat.exists_eq_add_of_le (by omega)
    rw [printed]
    show upToZero (m.bytes ⟨.recovered, 0⟩ maxTextLen) = some text.bytes
    rw [hrest, Memory.bytes_add, hback]
    exact upToZero_zeroFilled text _
  have hkept : m.bytes ⟨.plain, 0⟩ text.bytes.length = text.bytes := by
    rw [Memory.bytes_write_apart _ _ _ _ _ (.inl (by simp))]
    exact Memory.bytes_write _ _ _
  have hsame : m.bytes ⟨.recovered, 0⟩ text.bytes.length = text.bytes := by
    rw [← Memory.take_bytes m _ (by omega :
      text.bytes.length ≤ (text.bytes.length / 8 + 1) * 8), hback, take_zeroFilled]
  simp only [demo, if_neg hguard, memcpy_text h, printed_text, hloop, Option.bind_eq_bind,
    Option.bind_some, Option.pure_def]
  rw [hprinted]
  simp only [Option.bind_some, m] at hkept hsame ⊢
  rw [hkept, hsame, if_neg (fun hne => hne rfl)]

/-! ## The demo and ECB -/

theorem blockAt_text (text : CString) {i : Nat} (hi : i < text.bytes.length / 8) (rest : Bytes) :
    blockAt (text.bytes ++ rest) i = blockAt text.bytes i := blockAt_append (by omega) rest

/-- The plain blocks that are shown are the text and the zeros behind it. -/
theorem flatMap_transcriptBlocks (text : CString) :
    (transcriptBlocks text).flatMap (fun b => unpack 8 b.1) = zeroFilled text := by
  have hlen : (zeroFilled text).length = 8 * (text.bytes.length / 8 + 1) :=
    (length_zeroFilled text).trans (Nat.mul_comm _ _)
  have hwords : (transcriptBlocks text).map Prod.fst =
      toWords (text.bytes.length / 8 + 1) (zeroFilled text) := by
    apply List.ext_getElem
    · simp [transcriptBlocks]
    · intro i h1 h2
      rw [getElem_toWords]
      simp [transcriptBlocks]
  have hback := ofWords_toWords _ _ hlen
  rw [← hwords, ofWords, List.flatMap_map] at hback
  exact hback

/-- The last block is filled up with zeros here and with their number there. -/
theorem blockAt_last_ne (text : CString) :
    blockAt (Pkcs7.pad 8 text.bytes) (text.bytes.length / 8) ≠
      blockAt (zeroFilled text) (text.bytes.length / 8) := by
  intro heq
  have hpos := Pkcs7.padCount_pos (by decide : 0 < 8) text.bytes.length
  have hle := Pkcs7.padCount_le 8 text.bytes.length
  have hmod : text.bytes.length % 8 < 8 := Nat.mod_lt _ (by decide)
  have hdiv := Nat.div_add_mod text.bytes.length 8
  -- the byte after the text
  have hbyte := congrArg (fun block => block.getD (text.bytes.length % 8) 0#8) heq
  simp only [blockAt, Pkcs7.pad, zeroFilled, List.getD_eq_getElem?_getD, List.getElem?_take,
    if_pos hmod, List.getElem?_drop, hdiv, List.getElem?_append_right (Nat.le_refl _), Nat.sub_self,
    List.getElem?_replicate, if_pos hpos, if_pos (by omega : 0 < 8 - text.bytes.length % 8),
    Option.getD_some] at hbyte
  have hvalue := congrArg BitVec.toNat hbyte
  rw [BitVec.toNat_ofNat, Nat.mod_eq_of_lt (by omega)] at hvalue
  exact absurd hvalue (Nat.ne_of_gt hpos)

def keyBuffer : Buffer := ⟨unpack 8 demoKey, by rw [length_unpack]; decide⟩

/-- What the demo makes of any text: without an access outside a buffer it turns it away or
recovers it, and never gets to its error message. The blocks it shows are the text with
zeros up to whole blocks, and their encryption; ECB with padding gives the same ciphertext
blocks but for the last one. -/
theorem demo_run (text : Buffer) (hnonzero : ∀ b ∈ text.bytes, b ≠ 0#8) :
    let result := demo ⟨text.bytes, hnonzero⟩
    (text.bytes.length = 0 ∨ 1024 ≤ text.bytes.length → result = some .badLength) ∧
    (0 < text.bytes.length → text.bytes.length < 1024 → ∃ shown,
      result = some (.success ⟨text.bytes, shown, text.bytes⟩) ∧
      shown.flatMap (fun b => unpack 8 b.1) =
        text.bytes ++ List.replicate (8 - text.bytes.length % 8) 0#8 ∧
      (∀ b ∈ shown, b.2 = desEncryptBlock b.1 demoKey) ∧
      ∀ (out : Buffer) (outLen : DesApi.Size), DesModes.desPaddedLen text.len ≤ out.len →
        ∃ e, encryptBuffers .ecb ⟨keyBuffer, keyBuffer, text, out⟩ outLen = some e ∧
          e.status = .ok ∧ e.outLen.toNat = 8 * shown.length ∧
          ∀ i b, shown[i]? = some b →
            (blockAt e.out.bytes i = unpack 8 b.2 ↔ i < text.bytes.length / 8)) := by
  intro result
  constructor
  · intro hbad
    exact if_pos hbad
  intro hpos hlt
  let cstring : CString := ⟨text.bytes, hnonzero⟩
  refine ⟨transcriptBlocks cstring, demo_success (Nat.ne_of_gt hpos) hlt, ?_, ?_, ?_⟩
  · exact flatMap_transcriptBlocks cstring
  · intro b hb
    obtain ⟨i, -, rfl⟩ := List.mem_map.mp hb
    rfl
  · intro out outLen hcap
    have hkey : keyBuffer.bytes.length = 8 := length_unpack 8 demoKey
    have hpack : pack keyBuffer.bytes = demoKey := pack_unpack_eight demoKey
    have hwrap : paddedLength text < 2 ^ 64 := by
      rw [paddedLength_eq]
      omega
    obtain ⟨e, he, hok, hlen, hblocks⟩ := encryptBuffers_blocks .ecb hkey hkey hwrap hcap outLen
    refine ⟨e, he, hok, ?_, ?_⟩
    · rw [hlen, transcriptBlocks, List.length_map, List.length_range]
    · intro i b hget
      obtain ⟨hi, hb⟩ := List.getElem?_eq_some_iff.mp hget
      have hlast : i < text.bytes.length / 8 + 1 := by simpa [transcriptBlocks] using hi
      have hpadded : (blockAt (Pkcs7.pad 8 text.bytes) i).length = 8 := by
        apply length_blockAt
        rw [length_padded, paddedLength_eq]
        omega
      have hzeros : (blockAt (zeroFilled cstring) i).length = 8 := by
        apply length_blockAt
        rw [length_zeroFilled, Nat.mul_comm]
        exact Nat.mul_le_mul_right 8 hlast
      obtain rfl : (pack (blockAt (zeroFilled cstring) i),
          desEncryptBlock (pack (blockAt (zeroFilled cstring) i)) demoKey) = b := by
        rw [← hb]
        simp [transcriptBlocks]
      rw [(hblocks i hlast).2, hpack, cipherInput, enciphered_eq_iff demoKey hpadded hzeros]
      constructor
      · intro heq
        by_contra hnot
        obtain rfl : i = text.bytes.length / 8 := by omega
        exact blockAt_last_ne cstring heq
      · intro hfull
        exact (blockAt_text cstring hfull _).trans (blockAt_text cstring hfull _).symm

/-- The text `A`. -/
theorem demo_run_letter : ∃ shown,
    demo ⟨[65#8], by decide⟩ = some (.success ⟨[65#8], shown, [65#8]⟩) ∧
    shown.flatMap (fun b => unpack 8 b.1) = [65#8] ++ List.replicate 7 0#8 := by
  obtain ⟨shown, hdemo, hplain, -⟩ :=
    (demo_run ⟨[65#8], by decide⟩ (by decide)).2 (by decide) (by decide)
  exact ⟨shown, hdemo, hplain⟩

end DesDemo
