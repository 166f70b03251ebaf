import DesModular.DesBlock
import DesModular.ByteMemory
import DesModular.BoundedLoop

/-!
# Byte-buffer interface

`des_api.c`: one block as eight bytes, with the lengths checked, and the parity
check of a key. Pointers point into a bounded memory; no result means an access
outside its array.
-/
namespace DesApi

open MachineWord ByteOrder ByteMemory BoundedLoop DesKeySchedule DesBlock

/-- `size_t`. -/
abbrev Size := BitVec 64

inductive DesStatus where
  | ok | errInvalidLength | errInvalidPadding | errBufferTooSmall
  deriving DecidableEq, Repr

variable {β : Type} [DecidableEq β]

def bytesToU64 (m : Memory β) (bytes : Pointer β) : Option U64 := m.loadBigEndian bytes 8

def u64ToBytes (m : Memory β) (value : U64) (bytes : Pointer β) : Option (Memory β) :=
  m.storeBigEndian bytes 8 value

def desEncrypt (m : Memory β) (key : Pointer β) (keyLen : Size) (plaintext : Pointer β)
    (plaintextLen : Size) (out : Pointer β) : Option (DesStatus × Memory β) :=
  if keyLen ≠ 8#64 ∨ plaintextLen ≠ 8#64 then some (.errInvalidLength, m)
  else do
    let block ← bytesToU64 m plaintext
    let keyValue ← bytesToU64 m key
    let m ← u64ToBytes m (desEncryptBlock block keyValue) out
    pure (.ok, m)

def desDecrypt (m : Memory β) (key : Pointer β) (keyLen : Size) (ciphertext : Pointer β)
    (ciphertextLen : Size) (out : Pointer β) : Option (DesStatus × Memory β) :=
  if keyLen ≠ 8#64 ∨ ciphertextLen ≠ 8#64 then some (.errInvalidLength, m)
  else do
    let block ← bytesToU64 m ciphertext
    let keyValue ← bytesToU64 m key
    let m ← u64ToBytes m (desDecryptBlock block keyValue) out
    pure (.ok, m)

/-- The status and the new contents of `round_keys`. -/
def desKeySchedule (m : Memory β) (key : Pointer β) (keyLen : Size) (roundKeys : Vector U64 16) :
    Option (DesStatus × Vector U64 16) :=
  if keyLen ≠ 8#64 then some (.errInvalidLength, roundKeys)
  else do
    let keyValue ← bytesToU64 m key
    pure (.ok, desGenerateRoundKeys keyValue)

/-- `while (byte != 0) { ones += byte & 1; byte >>= 1; }`, once for each bit at most. -/
def onesInByte (byte : U8) : Option Nat :=
  (whileLoop (fun s : U8 × Nat => s.1 != 0#8)
    (fun s => some (s.1 >>> 1, s.2 + (s.1 &&& 1#8).toNat)) 8 (byte, 0)).map Prod.snd

/-- The first `n` iterations of the parity check; a byte of even parity ends the loop. -/
def allOdd (m : Memory β) (key : Pointer β) : Nat → Option Bool
  | 0 => some true
  | i + 1 => do
    if ← allOdd m key i then
      let byte ← m.load (key.add i)
      let ones ← onesInByte byte
      pure (ones % 2 != 0)
    else pure false

/-- The status and the new value of `*is_valid`. -/
def desCheckParity (m : Memory β) (key : Pointer β) (keyLen : Size) (isValid : Bool) :
    Option (DesStatus × Bool) :=
  if keyLen ≠ 8#64 then some (.errInvalidLength, isValid)
  else do
    let allOdd ← allOdd m key 8
    pure (.ok, allOdd)

/-- With both lengths right and all ranges in bounds, one block is enciphered. -/
theorem desEncrypt_ok {m : Memory β} {key plaintext out : Pointer β} (hkey : m.InBounds key 8)
    (hplaintext : m.InBounds plaintext 8) (hout : m.InBounds out 8) :
    desEncrypt m key 8#64 plaintext 8#64 out = some (.ok, m.write out (unpack 8
      (desEncryptBlock (pack (m.bytes plaintext 8)) (pack (m.bytes key 8))))) := by
  have hguard : ¬((8#64 : Size) ≠ 8#64 ∨ (8#64 : Size) ≠ 8#64) := by simp
  simp only [desEncrypt, if_neg hguard, bytesToU64, u64ToBytes,
    Memory.loadBigEndian_eq hplaintext, Memory.loadBigEndian_eq hkey,
    Memory.storeBigEndian_eq hout, Option.bind_eq_bind, Option.bind_some, Option.pure_def]

end DesApi
