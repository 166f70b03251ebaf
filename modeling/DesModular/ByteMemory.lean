import DesModular.ByteOrder
import Mathlib.Data.List.GetD

/-!
# Byte memory with bounds

A memory is a family of byte arrays, and a pointer is an array with an offset.
An access outside its array has no result. Operations on ranges are described by
two functions, the bytes of a range and a write to a range.
-/
namespace ByteMemory

open MachineWord ByteOrder

/-- Arrays named by `β`; the contents past an array's size are never read. -/
@[ext] structure Memory (β : Type) where
  size : β → Nat
  byte : β → Nat → U8

structure Pointer (β : Type) where
  block : β
  offset : Nat
  deriving DecidableEq, Repr

variable {β : Type}

def Pointer.add (p : Pointer β) (n : Nat) : Pointer β := ⟨p.block, p.offset + n⟩

@[simp] theorem Pointer.add_block (p : Pointer β) (n : Nat) : (p.add n).block = p.block := rfl
@[simp] theorem Pointer.add_offset (p : Pointer β) (n : Nat) :
    (p.add n).offset = p.offset + n := rfl
@[simp] theorem Pointer.add_zero (p : Pointer β) : p.add 0 = p := rfl
@[simp] theorem Pointer.add_add (p : Pointer β) (m n : Nat) : (p.add m).add n = p.add (m + n) := by
  simp [Pointer.add, Nat.add_assoc]

/-- The `n` bytes at `p` lie inside their array. -/
def Memory.InBounds (m : Memory β) (p : Pointer β) (n : Nat) : Prop :=
  p.offset + n ≤ m.size p.block

instance (m : Memory β) (p : Pointer β) (n : Nat) : Decidable (m.InBounds p n) :=
  inferInstanceAs (Decidable (p.offset + n ≤ m.size p.block))

theorem Memory.InBounds.add {m : Memory β} {p : Pointer β} {n k l : Nat} (h : m.InBounds p n)
    (hkl : k + l ≤ n) : m.InBounds (p.add k) l := by
  simp only [Memory.InBounds, Pointer.add_block, Pointer.add_offset] at *
  omega

theorem Memory.InBounds.mono {m : Memory β} {p : Pointer β} {n k : Nat} (h : m.InBounds p n)
    (hk : k ≤ n) : m.InBounds p k := by
  have := h.add (k := 0) (l := k) (by omega)
  simpa using this

/-- The bytes of a range. -/
def Memory.bytes (m : Memory β) (p : Pointer β) (n : Nat) : Bytes :=
  (List.range n).map (fun i => m.byte p.block (p.offset + i))

@[simp] theorem Memory.length_bytes (m : Memory β) (p : Pointer β) (n : Nat) :
    (m.bytes p n).length = n := by
  simp [Memory.bytes]

@[simp] theorem Memory.bytes_zero (m : Memory β) (p : Pointer β) : m.bytes p 0 = [] := rfl

theorem Memory.bytes_one (m : Memory β) (p : Pointer β) :
    m.bytes p 1 = [m.byte p.block p.offset] := rfl

theorem Memory.getElem_bytes (m : Memory β) (p : Pointer β) (n i : Nat)
    (h : i < (m.bytes p n).length) : (m.bytes p n)[i] = m.byte p.block (p.offset + i) := by
  simp [Memory.bytes]

theorem Memory.bytes_add (m : Memory β) (p : Pointer β) (k n : Nat) :
    m.bytes p (k + n) = m.bytes p k ++ m.bytes (p.add k) n := by
  apply List.ext_getElem (by simp)
  intro i h1 h2
  rw [Memory.getElem_bytes]
  by_cases hi : i < k
  · rw [List.getElem_append_left (by simpa using hi), Memory.getElem_bytes]
  · rw [List.getElem_append_right (by simpa using hi), Memory.getElem_bytes]
    simp only [Memory.length_bytes, Pointer.add_block, Pointer.add_offset]
    congr 1
    omega

theorem Memory.take_bytes (m : Memory β) (p : Pointer β) {k n : Nat} (h : k ≤ n) :
    (m.bytes p n).take k = m.bytes p k := by
  obtain ⟨l, rfl⟩ := Nat.exists_eq_add_of_le h
  rw [Memory.bytes_add, List.take_left' (Memory.length_bytes m p k)]

theorem Memory.drop_bytes (m : Memory β) (p : Pointer β) {k n : Nat} (h : k ≤ n) :
    (m.bytes p n).drop k = m.bytes (p.add k) (n - k) := by
  obtain ⟨l, rfl⟩ := Nat.exists_eq_add_of_le h
  rw [Memory.bytes_add, List.drop_left' (Memory.length_bytes m p k), Nat.add_sub_cancel_left]

/-! ## Reading -/

def Memory.load (m : Memory β) (p : Pointer β) : Option U8 :=
  if m.InBounds p 1 then some (m.byte p.block p.offset) else none

theorem Memory.load_eq {m : Memory β} {p : Pointer β} (h : m.InBounds p 1) :
    m.load p = some (m.byte p.block p.offset) := if_pos h

/-- `value = (value << 8) | bytes[i]` for `i` in `0..n`. -/
def Memory.loadBigEndian (m : Memory β) (p : Pointer β) : Nat → Option U64
  | 0 => some 0#64
  | i + 1 => do
    let value ← m.loadBigEndian p i
    let b ← m.load (p.add i)
    pure (pushByte value b)

/-- In bounds, the loading loop packs the bytes of the range. -/
theorem Memory.loadBigEndian_eq {m : Memory β} {p : Pointer β} {n : Nat} (h : m.InBounds p n) :
    m.loadBigEndian p n = some (pack (m.bytes p n)) := by
  induction n with
  | zero => rfl
  | succ n ih =>
    have hload := Memory.load_eq (h.add (k := n) (l := 1) (by omega))
    rw [Memory.loadBigEndian, ih (h.mono (by omega)), Memory.bytes_add, Memory.bytes_one,
      pack_concat, Option.bind_eq_bind, Option.bind_some, hload]
    rfl

/-! ## Writing -/

/-- Two ranges with no byte in common. -/
def Apart (p : Pointer β) (n : Nat) (q : Pointer β) (k : Nat) : Prop :=
  p.block ≠ q.block ∨ p.offset + n ≤ q.offset ∨ q.offset + k ≤ p.offset

theorem Apart.symm {p q : Pointer β} {n k : Nat} (h : Apart p n q k) : Apart q k p n := by
  obtain h | h | h := h
  · exact .inl (Ne.symm h)
  · exact .inr (.inr h)
  · exact .inr (.inl h)

theorem Apart.mono {p q : Pointer β} {n k n' k' : Nat} (h : Apart p n q k) (hn : n' ≤ n)
    (hk : k' ≤ k) : Apart p n' q k' := by
  obtain h | h | h := h
  · exact .inl h
  · exact .inr (.inl (by omega))
  · exact .inr (.inr (by omega))

variable [DecidableEq β]

instance (p : Pointer β) (n : Nat) (q : Pointer β) (k : Nat) : Decidable (Apart p n q k) :=
  inferInstanceAs (Decidable (_ ∨ _ ∨ _))

/-- The byte string `bs` placed at `p`; everything else is unchanged. -/
def Memory.write (m : Memory β) (p : Pointer β) (bs : Bytes) : Memory β where
  size := m.size
  byte b i := if b = p.block ∧ p.offset ≤ i ∧ i < p.offset + bs.length then
    bs.getD (i - p.offset) 0#8 else m.byte b i

@[simp] theorem Memory.write_size (m : Memory β) (p : Pointer β) (bs : Bytes) :
    (m.write p bs).size = m.size := rfl

@[simp] theorem Memory.write_inBounds (m : Memory β) (p q : Pointer β) (bs : Bytes) (n : Nat) :
    (m.write p bs).InBounds q n ↔ m.InBounds q n := Iff.rfl

theorem Memory.write_byte_inside (m : Memory β) (p : Pointer β) (bs : Bytes) {b : β} {i : Nat}
    (h : b = p.block ∧ p.offset ≤ i ∧ i < p.offset + bs.length) :
    (m.write p bs).byte b i = bs.getD (i - p.offset) 0#8 := if_pos h

theorem Memory.write_byte_outside (m : Memory β) (p : Pointer β) (bs : Bytes) {b : β} {i : Nat}
    (h : ¬(b = p.block ∧ p.offset ≤ i ∧ i < p.offset + bs.length)) :
    (m.write p bs).byte b i = m.byte b i := if_neg h

@[simp] theorem Memory.write_nil (m : Memory β) (p : Pointer β) : m.write p [] = m := by
  ext1
  · rfl
  · funext b i
    apply Memory.write_byte_outside
    rintro ⟨-, h1, h2⟩
    rw [List.length_nil] at h2
    omega

/-- A write over an earlier, shorter one at the same place hides it. -/
theorem Memory.write_write (m : Memory β) (p : Pointer β) {first second : Bytes}
    (h : first.length ≤ second.length) : (m.write p first).write p second = m.write p second := by
  ext1
  · rfl
  funext b i
  by_cases h2 : b = p.block ∧ p.offset ≤ i ∧ i < p.offset + second.length
  · rw [Memory.write_byte_inside _ p second h2, Memory.write_byte_inside m p second h2]
  · have h1 : ¬(b = p.block ∧ p.offset ≤ i ∧ i < p.offset + first.length) := by
      rintro ⟨hb, hl, hu⟩
      exact h2 ⟨hb, hl, by omega⟩
    rw [Memory.write_byte_outside _ p second h2, Memory.write_byte_outside m p second h2,
      Memory.write_byte_outside m p first h1]

/-- A write followed by an adjacent one above it is one write. -/
theorem Memory.write_append (m : Memory β) (p : Pointer β) (first second : Bytes) :
    (m.write p first).write (p.add first.length) second = m.write p (first ++ second) := by
  ext1
  · rfl
  funext b i
  have hlen : (first ++ second).length = first.length + second.length := List.length_append
  by_cases h2 : b = p.block ∧ p.offset + first.length ≤ i ∧
      i < p.offset + first.length + second.length
  · rw [Memory.write_byte_inside _ (p.add first.length) second h2,
      Memory.write_byte_inside m p _ ⟨h2.1, by omega, by omega⟩,
      List.getD_append_right _ _ _ _ (by omega), Pointer.add_offset, Nat.sub_sub]
  · rw [Memory.write_byte_outside _ (p.add first.length) second h2]
    by_cases h1 : b = p.block ∧ p.offset ≤ i ∧ i < p.offset + first.length
    · rw [Memory.write_byte_inside m p _ h1,
        Memory.write_byte_inside m p _ ⟨h1.1, h1.2.1, by omega⟩,
        List.getD_append _ _ _ _ (by omega)]
    · have h3 : ¬(b = p.block ∧ p.offset ≤ i ∧ i < p.offset + (first ++ second).length) := by
        rintro ⟨hb, hl, hu⟩
        by_cases hi : i < p.offset + first.length
        · exact h1 ⟨hb, hl, hi⟩
        · exact h2 ⟨hb, by omega, by omega⟩
      rw [Memory.write_byte_outside m p _ h1, Memory.write_byte_outside m p _ h3]

/-- The same with the upper part written first. -/
theorem Memory.write_append_rev (m : Memory β) (p : Pointer β) (first second : Bytes) :
    (m.write (p.add first.length) second).write p first = m.write p (first ++ second) := by
  rw [← Memory.write_append]
  ext1
  · rfl
  funext b i
  by_cases h1 : b = p.block ∧ p.offset ≤ i ∧ i < p.offset + first.length
  · have h2 : ¬(b = p.block ∧ p.offset + first.length ≤ i ∧
        i < p.offset + first.length + second.length) := by omega
    rw [Memory.write_byte_inside _ p first h1,
      Memory.write_byte_outside _ (p.add first.length) second h2,
      Memory.write_byte_inside _ p first h1]
  · rw [Memory.write_byte_outside _ p first h1]
    by_cases h2 : b = p.block ∧ p.offset + first.length ≤ i ∧
        i < p.offset + first.length + second.length
    · rw [Memory.write_byte_inside _ (p.add first.length) second h2,
        Memory.write_byte_inside _ (p.add first.length) second h2]
    · rw [Memory.write_byte_outside _ (p.add first.length) second h2,
        Memory.write_byte_outside _ (p.add first.length) second h2,
        Memory.write_byte_outside _ p first h1]

/-- Reading back what was written. -/
theorem Memory.bytes_write (m : Memory β) (p : Pointer β) (bs : Bytes) :
    (m.write p bs).bytes p bs.length = bs := by
  apply List.ext_getElem (by simp)
  intro i h1 h2
  rw [Memory.getElem_bytes, Memory.write_byte_inside m p bs ⟨rfl, by omega, by omega⟩,
    Nat.add_sub_cancel_left, List.getD_eq_getElem _ _ h2]

/-- A range apart from the written one keeps its bytes. -/
theorem Memory.bytes_write_apart (m : Memory β) (p q : Pointer β) (bs : Bytes) (n : Nat)
    (h : Apart p bs.length q n) : (m.write p bs).bytes q n = m.bytes q n := by
  apply List.map_congr_left
  intro i hi
  have hlt : i < n := List.mem_range.mp hi
  apply Memory.write_byte_outside
  rintro ⟨hb, hl, hu⟩
  obtain h | h | h := h
  · exact h hb.symm
  · omega
  · omega

/-! ## Storing -/

def Memory.store (m : Memory β) (p : Pointer β) (b : U8) : Option (Memory β) :=
  if m.InBounds p 1 then some (m.write p [b]) else none

/-- Copying between overlapping ranges has no result, as in the C library. -/
def Memory.memcpy (m : Memory β) (dst src : Pointer β) (n : Nat) : Option (Memory β) :=
  if m.InBounds dst n ∧ m.InBounds src n ∧ Apart dst n src n then
    some (m.write dst (m.bytes src n)) else none

def Memory.memset (m : Memory β) (dst : Pointer β) (b : U8) (n : Nat) : Option (Memory β) :=
  if m.InBounds dst n then some (m.write dst (List.replicate n b)) else none

/-- `bytes[i] = value & 0xFF; value >>= 8` for `i` from `n - 1` down to 0. -/
def Memory.storeBigEndian (m : Memory β) (p : Pointer β) : Nat → U64 → Option (Memory β)
  | 0, _ => some m
  | i + 1, value => do
    let m ← m.store (p.add i) ((value &&& 0xFF#64).setWidth 8)
    m.storeBigEndian p i (value >>> 8)

theorem Memory.store_eq {m : Memory β} {p : Pointer β} (h : m.InBounds p 1) (b : U8) :
    m.store p b = some (m.write p [b]) := if_pos h

theorem lowByte_eq (value : U64) : (value &&& 0xFF#64).setWidth 8 = value.setWidth 8 := by
  apply BitVec.eq_of_getLsbD_eq
  intro j hj
  have h : (0xFF#64) = BitVec.ofNat 64 (2 ^ 8 - 1) := by decide
  rw [BitVec.getLsbD_setWidth, BitVec.getLsbD_and, h, getLsbD_mask (by decide),
    BitVec.getLsbD_setWidth]
  simp [hj]

/-- In bounds, the storing loop writes the unpacked word. -/
theorem Memory.storeBigEndian_eq {m : Memory β} {p : Pointer β} {n : Nat} (h : m.InBounds p n)
    (value : U64) : m.storeBigEndian p n value = some (m.write p (unpack n value)) := by
  induction n generalizing m value with
  | zero => simp [Memory.storeBigEndian, unpack]
  | succ n ih =>
    have hstore := Memory.store_eq (h.add (k := n) (l := 1) (by omega)) (value.setWidth 8)
    have hrest : (m.write (p.add n) [value.setWidth 8]).InBounds p n := h.mono (by omega)
    have hjoin := Memory.write_append_rev m p (unpack n (value >>> 8)) [value.setWidth 8]
    rw [length_unpack] at hjoin
    rw [Memory.storeBigEndian, lowByte_eq, hstore, Option.bind_eq_bind, Option.bind_some,
      ih hrest, hjoin]
    rfl

theorem Memory.memcpy_eq {m : Memory β} {dst src : Pointer β} {n : Nat} (hd : m.InBounds dst n)
    (hs : m.InBounds src n) (h : Apart dst n src n) :
    m.memcpy dst src n = some (m.write dst (m.bytes src n)) := if_pos ⟨hd, hs, h⟩

theorem Memory.memset_eq {m : Memory β} {dst : Pointer β} {n : Nat} (h : m.InBounds dst n)
    (b : U8) : m.memset dst b n = some (m.write dst (List.replicate n b)) := if_pos h

end ByteMemory
