import DesModular.DesTables

/-!
# The round function

`des_feistel.c`: expand, mix in the subkey, substitute, permute.
-/
namespace DesFeistel

open MachineWord DesPermute DesTables

/-- Chunks are read left to right: box 0 gets the top 6 bits of 48. -/
def sboxChunk (expanded : U64) (box : Nat) : U8 :=
  let shift := 48 - 6 - box * 6
  ((expanded >>> shift) &&& 0x3F#64).setWidth 8

/-- The two outer bits of the chunk. -/
def sboxRow (chunk : U8) : Nat := (((chunk &&& 0x20#8) >>> 4) ||| (chunk &&& 0x01#8)).toNat

/-- The four middle bits of the chunk. -/
def sboxCol (chunk : U8) : Nat := ((chunk >>> 1) &&& 0x0F#8).toNat

theorem sboxRow_lt (chunk : U8) : sboxRow chunk < 4 := by
  revert chunk
  decide +kernel

theorem sboxCol_lt (chunk : U8) : sboxCol chunk < 16 := by
  revert chunk
  decide +kernel

def sboxOutput (box : Nat) (hb : box < 8) (chunk : U8) : Nat :=
  have := sboxRow_lt chunk
  have := sboxCol_lt chunk
  desSbox[box][sboxRow chunk][sboxCol chunk]

theorem sboxOutput_lt (box : Nat) (hb : box < 8) (chunk : U8) : sboxOutput box hb chunk < 16 :=
  desSbox_lt box hb _ (sboxRow_lt chunk) _ (sboxCol_lt chunk)

theorem fits_sboxOutput (x : U64) (box : Nat) (hb : box < 8) :
    Fits 4 (BitVec.ofNat 32 (sboxOutput box hb (sboxChunk x box))) := by
  have hlt := sboxOutput_lt box hb (sboxChunk x box)
  simp only [Fits, BitVec.toNat_ofNat]
  omega

/-- Runs the 48 expanded bits through the eight S-boxes. -/
def substitute (expanded : U64) : U32 :=
  Nat.fold 8 (fun box h output =>
    (output <<< 4) ||| BitVec.ofNat 32 (sboxOutput box h (sboxChunk expanded box))) 0#32

/-- `(1 << DES_SUBKEY_BITS) - 1`. -/
def subkeyMask : U64 := (1#64 <<< 48) - 1#64

def desFeistelF (halfBlock : U32) (roundKey : U64) : U32 :=
  let expanded := permute (halfBlock.setWidth 64) desE
  let mixed := expanded ^^^ (roundKey &&& subkeyMask)
  let substituted := substitute mixed
  (permute (substituted.setWidth 64) desP).setWidth 32

structure DesHalfPair where
  left : U32
  right : U32
  deriving DecidableEq, Repr

/-- `left' = right`, `right' = left ^ f(right, round_key)`. -/
def desRound (left right : U32) (roundKey : U64) : DesHalfPair :=
  ⟨right, left ^^^ desFeistelF right roundKey⟩

end DesFeistel
