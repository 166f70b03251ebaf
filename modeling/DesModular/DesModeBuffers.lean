import DesModular.DesModesContract

/-!
# Calls with separate buffers

A call whose key, IV, data and output are four arrays of their own, as a function
of their contents.
-/
namespace DesModeBuffers

open MachineWord ByteOrder ByteMemory DesModes DesModesSpec DesModeCalls
open DesApi (Size DesStatus)

/-- An array, whose length is a `size_t`. -/
structure Buffer where
  bytes : Bytes
  fits : bytes.length < 2 ^ 64

def Buffer.len (b : Buffer) : Size := BitVec.ofNat 64 b.bytes.length

@[simp] theorem Buffer.toNat_len (b : Buffer) : b.len.toNat = b.bytes.length := by
  rw [Buffer.len, BitVec.toNat_ofNat, Nat.mod_eq_of_lt b.fits]

theorem Buffer.len_eq_iff (b : Buffer) (n : Nat) (hn : n < 2 ^ 64) :
    b.len = BitVec.ofNat 64 n ↔ b.bytes.length = n := by
  rw [← BitVec.toNat_inj, Buffer.toNat_len, BitVec.toNat_ofNat, Nat.mod_eq_of_lt hn]

@[ext] theorem Buffer.ext {a b : Buffer} (h : a.bytes = b.bytes) : a = b := by
  cases a
  cases b
  cases h
  rfl

/-- The first `n` bytes. -/
def Buffer.take (b : Buffer) (n : Nat) : Buffer :=
  ⟨b.bytes.take n, Nat.lt_of_le_of_lt (List.length_take_le' n b.bytes) b.fits⟩

@[simp] theorem Buffer.bytes_take (b : Buffer) (n : Nat) :
    (b.take n).bytes = b.bytes.take n := rfl

/-- The first bytes replaced by `bs`; a longer `bs` is cut off. -/
def Buffer.overwrite (b : Buffer) (bs : Bytes) : Buffer :=
  ⟨(bs ++ b.bytes.drop bs.length).take b.bytes.length,
    Nat.lt_of_le_of_lt (List.length_take_le _ _) b.fits⟩

theorem Buffer.bytes_overwrite (b : Buffer) {bs : Bytes} (h : bs.length ≤ b.bytes.length) :
    (b.overwrite bs).bytes = bs ++ b.bytes.drop bs.length := by
  apply List.take_of_length_le
  rw [List.length_append, List.length_drop]
  omega

inductive Region where
  | key | iv | data | out
  deriving DecidableEq, Repr

/-- The four buffers of a call. -/
structure Buffers where
  key : Buffer
  iv : Buffer
  data : Buffer
  out : Buffer

namespace Buffers

def region (b : Buffers) : Region → Buffer
  | .key => b.key
  | .iv => b.iv
  | .data => b.data
  | .out => b.out

def memory (b : Buffers) : Memory Region where
  size r := (b.region r).bytes.length
  byte r i := (b.region r).bytes.getD i 0#8

def args (b : Buffers) : ModeArgs Region where
  key := ⟨.key, 0⟩
  keyLen := b.key.len
  iv := ⟨.iv, 0⟩
  ivLen := b.iv.len
  data := ⟨.data, 0⟩
  dataLen := b.data.len
  out := ⟨.out, 0⟩
  outCap := b.out.len

end Buffers

theorem inBounds_region (b : Buffers) (r : Region) :
    b.memory.InBounds ⟨r, 0⟩ (b.region r).len.toNat := by
  rw [Buffer.toNat_len, Memory.InBounds, Nat.zero_add]
  exact Nat.le_refl _

theorem valid_args (mode : Mode) (b : Buffers) : mode.Valid b.memory b.args where
  key := inBounds_region b .key
  iv := fun _ => inBounds_region b .iv
  data := inBounds_region b .data
  out := inBounds_region b .out

theorem bytes_region (b : Buffers) (r : Region) {n : Nat} (hn : n = (b.region r).bytes.length) :
    b.memory.bytes ⟨r, 0⟩ n = (b.region r).bytes := by
  subst hn
  apply List.ext_getElem (Memory.length_bytes _ _ _)
  intro i h1 h2
  rw [Memory.getElem_bytes, Nat.zero_add]
  exact List.getD_eq_getElem _ _ h2

/-- The output buffer once `bs` was written to its start. -/
theorem bytes_write_out (b : Buffers) {bs : Bytes} (h : bs.length ≤ b.out.bytes.length) :
    (b.memory.write ⟨.out, 0⟩ bs).bytes ⟨.out, 0⟩ b.out.bytes.length =
      (b.out.overwrite bs).bytes := by
  obtain ⟨k, hk⟩ := Nat.exists_eq_add_of_le h
  have hrest : (b.memory.write ⟨.out, 0⟩ bs).bytes ((⟨.out, 0⟩ : Pointer Region).add bs.length) k =
      b.memory.bytes ((⟨.out, 0⟩ : Pointer Region).add bs.length) k := by
    apply Memory.bytes_write_apart
    exact .inr (.inl (Nat.le_refl _))
  have hall : b.memory.bytes ⟨.out, 0⟩ b.out.bytes.length = b.out.bytes := bytes_region b .out rfl
  have hdrop := Memory.drop_bytes b.memory ⟨.out, 0⟩ h
  rw [hall, hk, Nat.add_sub_cancel_left] at hdrop
  rw [Buffer.bytes_overwrite _ h, hk, Memory.bytes_add, Memory.bytes_write, hrest, ← hdrop]

/-- What the caller sees after a call. -/
structure Outcome where
  status : DesStatus
  out : Buffer
  outLen : Size

def Buffers.outcome (b : Buffers) (r : ModeResult Region) : Outcome where
  status := r.status
  out := ⟨r.mem.bytes ⟨.out, 0⟩ b.out.bytes.length, by
    rw [Memory.length_bytes]
    exact b.out.fits⟩
  outLen := r.outLen

def encryptBuffers (mode : Mode) (b : Buffers) (outLen : Size) : Option Outcome :=
  (mode.encrypt b.memory b.args outLen).map b.outcome

def decryptBuffers (mode : Mode) (b : Buffers) (outLen : Size) : Option Outcome :=
  (mode.decrypt b.memory b.args outLen).map b.outcome

theorem not_badLength (mode : Mode) {b : Buffers} (hkey : b.key.bytes.length = 8)
    (hiv : b.iv.bytes.length = 8) : ¬mode.BadLength b.args := by
  have hkeyLen : b.key.len = 8#64 := (b.key.len_eq_iff 8 (by decide)).mpr hkey
  have hivLen : b.iv.len = 8#64 := (b.iv.len_eq_iff 8 (by decide)).mpr hiv
  rintro (h | ⟨-, h⟩)
  · exact h hkeyLen
  · exact h hivLen

theorem encryptBuffers_wrap (mode : Mode) {b : Buffers} (hkey : b.key.bytes.length = 8)
    (hiv : b.iv.bytes.length = 8)
    (hwrap : 2 ^ 64 ≤ b.data.bytes.length + Pkcs7.padCount 8 b.data.bytes.length)
    (outLen : Size) : encryptBuffers mode b outLen = none := by
  have hdataLen : b.args.dataLen.toNat = b.data.bytes.length := b.data.toNat_len
  have hcall := encrypt_wrap (m := b.memory) (not_badLength mode hkey hiv)
    (by rw [hdataLen]; exact hwrap) (Nat.lt_of_lt_of_le b.out.fits (Nat.le_add_left _ _)) outLen
  rw [encryptBuffers, hcall, Option.map_none]

theorem encryptBuffers_small (mode : Mode) {b : Buffers} (hkey : b.key.bytes.length = 8)
    (hiv : b.iv.bytes.length = 8) (h : b.out.len < desPaddedLen b.data.len) (outLen : Size) :
    ∃ e, encryptBuffers mode b outLen = some e ∧ e.status = .errBufferTooSmall := by
  have hcall := encrypt_small (not_badLength mode hkey hiv) h b.memory outLen
  exact ⟨_, by rw [encryptBuffers, hcall, Option.map_some], rfl⟩

/-- With room for the padded length, `out` starts with the enciphered padding. -/
theorem encryptBuffers_ok (mode : Mode) {b : Buffers} (hkey : b.key.bytes.length = 8)
    (hiv : b.iv.bytes.length = 8)
    (hwrap : b.data.bytes.length + Pkcs7.padCount 8 b.data.bytes.length < 2 ^ 64)
    (hcap : b.data.bytes.length + Pkcs7.padCount 8 b.data.bytes.length ≤ b.out.bytes.length)
    (outLen : Size) :
    encryptBuffers mode b outLen = some ⟨.ok, b.out.overwrite
      (mode.encryptBytes b.key.bytes b.iv.bytes (Pkcs7.pad 8 b.data.bytes)),
      desPaddedLen b.data.len⟩ := by
  have hdataLen : b.args.dataLen.toNat = b.data.bytes.length := b.data.toNat_len
  have hdata : b.memory.bytes ⟨.data, 0⟩ b.data.bytes.length = b.data.bytes :=
    bytes_region b .data rfl
  have hfresh : ∀ (r : Region) (bs : Bytes), r ≠ .out → 8 = (b.region r).bytes.length →
      (b.memory.write ⟨.out, 0⟩ bs).bytes ⟨r, 0⟩ 8 = (b.region r).bytes := by
    intro r bs hr hlen
    rw [Memory.bytes_write_apart _ _ _ _ _ (.inl (Ne.symm hr)), bytes_region b r hlen]
  have hcall := encrypt_write (valid_args mode b) (not_badLength mode hkey hiv)
    (by rw [hdataLen]; exact hwrap) (by rw [hdataLen]; exact b.out.toNat_len ▸ hcap)
    (.inl (by rintro ⟨⟩)) outLen
  simp only [hdataLen] at hcall
  have hlength := Pkcs7.length_add_padCount (by decide : 0 < 8) b.data.bytes.length
  rw [encryptBuffers, hcall, Option.map_some]
  simp only [Buffers.args, hdata, hfresh .key _ (by decide) hkey.symm,
    hfresh .iv _ (by decide) hiv.symm]
  rw [Buffers.outcome]
  congr 2
  apply Buffer.ext
  apply bytes_write_out
  rw [length_encryptBytes, Pkcs7.length_pad, hlength, Nat.mul_div_cancel_left _ (by decide),
    ← hlength]
  exact hcap

theorem partialBlocks_len (d : Buffer) :
    PartialBlocks d.len ↔ d.bytes.length = 0 ∨ d.bytes.length % 8 ≠ 0 := by
  rw [← not_iff_not, not_partialBlocks_iff, Buffer.toNat_len]
  constructor
  · rintro ⟨k, hk⟩
    omega
  · intro h
    exact ⟨d.bytes.length / 8 - 1, by omega⟩

theorem decryptBuffers_partial (mode : Mode) {b : Buffers} (h : PartialBlocks b.data.len)
    (outLen : Size) :
    ∃ d, decryptBuffers mode b outLen = some d ∧ d.status = .errInvalidLength := by
  have hcall := decrypt_badLength (.inr h : mode.BadLength b.args ∨ PartialBlocks b.args.dataLen)
    b.memory outLen
  exact ⟨_, by rw [decryptBuffers, hcall, Option.map_some], rfl⟩

/-- What `unpad` reports for a decrypted string that was written to `out`. -/
def unpadOutcome (out : Buffer) (plain : Bytes) (outLen : Size) : Outcome :=
  match Pkcs7.unpad 8 plain with
  | some n => ⟨.ok, out.overwrite plain, BitVec.ofNat 64 n⟩
  | none => ⟨.errInvalidPadding, out.overwrite plain, outLen⟩

/-- It is what the caller sees of the result in memory. -/
theorem unpadOutcome_eq (out : Buffer) (plain : Bytes) (outLen : Size) {β : Type} (m : Memory β) :
    unpadOutcome out plain outLen = ⟨(unpadResult m plain outLen).status, out.overwrite plain,
      (unpadResult m plain outLen).outLen⟩ := by
  cases h : Pkcs7.unpad 8 plain <;> simp only [unpadOutcome, unpadResult, h]

theorem decryptBuffers_eq (mode : Mode) {b : Buffers} (hkey : b.key.bytes.length = 8)
    (hiv : b.iv.bytes.length = 8) {k : Nat} (hlen : b.data.bytes.length = 8 * (k + 1))
    (hcap : b.data.bytes.length ≤ b.out.bytes.length) (outLen : Size) :
    decryptBuffers mode b outLen = some (unpadOutcome b.out
      (mode.decryptBytes b.key.bytes b.iv.bytes b.data.bytes) outLen) := by
  have hdataLen : b.args.dataLen.toNat = b.data.bytes.length := b.data.toNat_len
  have hplain : mode.plainBytes b.memory b.args =
      mode.decryptBytes b.key.bytes b.iv.bytes b.data.bytes := by
    rw [Mode.plainBytes, hdataLen]
    congr 1
    · exact bytes_region b .key hkey.symm
    · exact bytes_region b .iv hiv.symm
    · exact bytes_region b .data rfl
  have hlength : (mode.decryptBytes b.key.bytes b.iv.bytes b.data.bytes).length =
      b.data.bytes.length := (length_decryptBytes_whole mode _ _ hlen).trans hlen.symm
  have hblocks : ¬PartialBlocks b.args.dataLen :=
    not_partialBlocks_iff.mpr ⟨k, hdataLen.trans hlen⟩
  have hfits : b.args.dataLen ≤ b.args.outCap := by
    rw [BitVec.le_def, hdataLen]
    exact b.out.toNat_len ▸ hcap
  have hcall := decrypt_write (valid_args mode b) (not_badLength mode hkey hiv) hblocks hfits
    (.inl (by rintro ⟨⟩)) outLen
  have hread := bytes_write_out b (Nat.le_trans (Nat.le_of_eq hlength) hcap)
  rw [decryptBuffers, hcall, hplain, Option.map_some,
    unpadOutcome_eq b.out _ outLen (b.memory.write b.args.out _), Buffers.outcome]
  congr 2
  apply Buffer.ext
  simp only [unpadResult_mem]
  exact hread

end DesModeBuffers
