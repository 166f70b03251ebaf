import DesModular.DesApi
import DesModular.BoundedLoop

/-!
# Padding, ECB and CBC

`des_modes.c`. The functions take a memory and pointers into it, in any layout,
and return a status, the memory and the new value of `*out_len`. Lengths are
64-bit `size_t` values and wrap as such.
-/
namespace DesModes

open MachineWord ByteOrder ByteMemory BoundedLoop DesBlock
open DesApi (Size DesStatus)

variable {β : Type} [DecidableEq β]

/-- This file's own copy of the packing, the same as in `des_api.c`. -/
def bytesToU64 (m : Memory β) (bytes : Pointer β) : Option U64 := m.loadBigEndian bytes 8

def u64ToBytes (m : Memory β) (value : U64) (bytes : Pointer β) : Option (Memory β) :=
  m.storeBigEndian bytes 8 value

/-- What a mode function leaves behind. -/
structure ModeResult (β : Type) where
  status : DesStatus
  mem : Memory β
  outLen : Size

def desPaddedLen (dataLen : Size) : Size := dataLen + (8#64 - dataLen % 8#64)

def desPkcs7Pad (m : Memory β) (data : Pointer β) (dataLen : Size) (out : Pointer β)
    (outCap outLen : Size) : Option (ModeResult β) :=
  let paddedLen := desPaddedLen dataLen
  let padByte : U8 := (paddedLen - dataLen).setWidth 8
  if outCap < paddedLen then some ⟨.errBufferTooSmall, m, outLen⟩
  else do
    let m ← m.memcpy out data dataLen.toNat
    let m ← m.memset (out.add dataLen.toNat) padByte padByte.toNat
    pure ⟨.ok, m, paddedLen⟩

/-- The first `n` iterations of the padding check; a mismatch ends the loop. -/
def paddingMatches (m : Memory β) (data : Pointer β) (dataLen : Size) (padByte : U8) :
    Nat → Option Bool
  | 0 => some true
  | i + 1 => do
    if ← paddingMatches m data dataLen padByte i then
      let b ← m.load (data.add (dataLen - 1#64 - BitVec.ofNat 64 i).toNat)
      pure (b == padByte)
    else pure false

def desPkcs7Unpad (m : Memory β) (data : Pointer β) (dataLen outLen : Size) :
    Option (ModeResult β) :=
  if dataLen = 0#64 ∨ dataLen % 8#64 ≠ 0#64 then some ⟨.errInvalidLength, m, outLen⟩
  else do
    let padByte ← m.load (data.add (dataLen - 1#64).toNat)
    if padByte = 0#8 ∨ 8#8 < padByte then pure ⟨.errInvalidPadding, m, outLen⟩
    else if ← paddingMatches m data dataLen padByte padByte.toNat then
      pure ⟨.ok, m, dataLen - padByte.setWidth 64⟩
    else pure ⟨.errInvalidPadding, m, outLen⟩

structure LoopState (β τ : Type) where
  offset : Size
  mem : Memory β
  carry : τ

def blockPending {τ : Type} (len : Size) (s : LoopState β τ) : Bool := decide (s.offset < len)

/-- Reads the word at `src + offset`, writes one at `out + offset`. -/
def blockBody {τ : Type} (step : τ → U64 → τ × U64) (src out : Pointer β) (s : LoopState β τ) :
    Option (LoopState β τ) := do
  let block ← bytesToU64 s.mem (src.add s.offset.toNat)
  let next := step s.carry block
  let mem ← u64ToBytes s.mem next.2 (out.add s.offset.toNat)
  pure ⟨s.offset + 8#64, mem, next.1⟩

/-- The block loop of all four modes: `for (offset = 0; offset < len; offset += 8)`.
The bound on the iterations is reached only by a loop that never ends. -/
def blockLoop {τ : Type} (step : τ → U64 → τ × U64) (src out : Pointer β) (len : Size)
    (m : Memory β) (carry : τ) : Option (LoopState β τ) :=
  whileLoop (blockPending len) (blockBody step src out) len.toNat ⟨0#64, m, carry⟩

/-- `out = E(block)`. -/
def ecbEncryptStep (keyValue : U64) (_ : Unit) (block : U64) : Unit × U64 :=
  ((), desEncryptBlock block keyValue)

/-- `out = D(block)`. -/
def ecbDecryptStep (keyValue : U64) (_ : Unit) (block : U64) : Unit × U64 :=
  ((), desDecryptBlock block keyValue)

/-- `previous = E(plain ^ previous)`, and the new `previous` is written. -/
def cbcEncryptStep (keyValue : U64) (previous plain : U64) : U64 × U64 :=
  let previous := desEncryptBlock (plain ^^^ previous) keyValue
  (previous, previous)

/-- `D(current) ^ previous` is written, then `previous = current`. -/
def cbcDecryptStep (keyValue : U64) (previous current : U64) : U64 × U64 :=
  (current, desDecryptBlock current keyValue ^^^ previous)

def desEcbEncrypt (m : Memory β) (key : Pointer β) (keyLen : Size) (plaintext : Pointer β)
    (plaintextLen : Size) (out : Pointer β) (outCap outLen : Size) : Option (ModeResult β) :=
  if keyLen ≠ 8#64 then some ⟨.errInvalidLength, m, outLen⟩
  else do
    let padded ← desPkcs7Pad m plaintext plaintextLen out outCap 0#64
    if padded.status ≠ .ok then pure ⟨padded.status, padded.mem, outLen⟩
    else
      let keyValue ← bytesToU64 padded.mem key
      let s ← blockLoop (ecbEncryptStep keyValue) out out padded.outLen padded.mem ()
      pure ⟨.ok, s.mem, padded.outLen⟩

def desEcbDecrypt (m : Memory β) (key : Pointer β) (keyLen : Size) (ciphertext : Pointer β)
    (ciphertextLen : Size) (out : Pointer β) (outCap outLen : Size) : Option (ModeResult β) :=
  if keyLen ≠ 8#64 ∨ ciphertextLen = 0#64 ∨ ciphertextLen % 8#64 ≠ 0#64 then
    some ⟨.errInvalidLength, m, outLen⟩
  else if outCap < ciphertextLen then some ⟨.errBufferTooSmall, m, outLen⟩
  else do
    let keyValue ← bytesToU64 m key
    let s ← blockLoop (ecbDecryptStep keyValue) ciphertext out ciphertextLen m ()
    desPkcs7Unpad s.mem out ciphertextLen outLen

def desCbcEncrypt (m : Memory β) (key : Pointer β) (keyLen : Size) (iv : Pointer β) (ivLen : Size)
    (plaintext : Pointer β) (plaintextLen : Size) (out : Pointer β) (outCap outLen : Size) :
    Option (ModeResult β) :=
  if keyLen ≠ 8#64 ∨ ivLen ≠ 8#64 then some ⟨.errInvalidLength, m, outLen⟩
  else do
    let padded ← desPkcs7Pad m plaintext plaintextLen out outCap 0#64
    if padded.status ≠ .ok then pure ⟨padded.status, padded.mem, outLen⟩
    else
      let keyValue ← bytesToU64 padded.mem key
      let previous ← bytesToU64 padded.mem iv
      let s ← blockLoop (cbcEncryptStep keyValue) out out padded.outLen padded.mem previous
      pure ⟨.ok, s.mem, padded.outLen⟩

def desCbcDecrypt (m : Memory β) (key : Pointer β) (keyLen : Size) (iv : Pointer β) (ivLen : Size)
    (ciphertext : Pointer β) (ciphertextLen : Size) (out : Pointer β) (outCap outLen : Size) :
    Option (ModeResult β) :=
  if keyLen ≠ 8#64 ∨ ivLen ≠ 8#64 ∨ ciphertextLen = 0#64 ∨ ciphertextLen % 8#64 ≠ 0#64 then
    some ⟨.errInvalidLength, m, outLen⟩
  else if outCap < ciphertextLen then some ⟨.errBufferTooSmall, m, outLen⟩
  else do
    let keyValue ← bytesToU64 m key
    let previous ← bytesToU64 m iv
    let s ← blockLoop (cbcDecryptStep keyValue) ciphertext out ciphertextLen m previous
    desPkcs7Unpad s.mem out ciphertextLen outLen

end DesModes
