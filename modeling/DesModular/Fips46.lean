import DesModular.FeistelNetwork
import Mathlib.Algebra.GroupWithZero.Nat

/-!
# The standard as an algorithm on bit strings

FIPS 46-3 read literally: blocks, keys and registers are strings of bits
numbered from 1 at the left, every table is a list of positions, and no word is
ever shifted or masked. The tables are the standard's own, written out here and
not taken from the code.
-/
namespace Fips46

/-- Bit `i` of a string, numbered from 1 at the left. -/
def bit (s : List Bool) (i : Nat) : Bool := s.getD (i - 1) false

/-- Output bit `i` is input bit `table[i]`. -/
def select (table : List Nat) (s : List Bool) : List Bool := table.map (bit s)

/-- Bit-by-bit addition modulo 2. -/
def add (s t : List Bool) : List Bool := List.zipWith (· ^^ ·) s t

def ip : List Nat := [
  58, 50, 42, 34, 26, 18, 10, 2,
  60, 52, 44, 36, 28, 20, 12, 4,
  62, 54, 46, 38, 30, 22, 14, 6,
  64, 56, 48, 40, 32, 24, 16, 8,
  57, 49, 41, 33, 25, 17, 9, 1,
  59, 51, 43, 35, 27, 19, 11, 3,
  61, 53, 45, 37, 29, 21, 13, 5,
  63, 55, 47, 39, 31, 23, 15, 7]

def ipInverse : List Nat := [
  40, 8, 48, 16, 56, 24, 64, 32,
  39, 7, 47, 15, 55, 23, 63, 31,
  38, 6, 46, 14, 54, 22, 62, 30,
  37, 5, 45, 13, 53, 21, 61, 29,
  36, 4, 44, 12, 52, 20, 60, 28,
  35, 3, 43, 11, 51, 19, 59, 27,
  34, 2, 42, 10, 50, 18, 58, 26,
  33, 1, 41, 9, 49, 17, 57, 25]

/-- E bit-selection table. -/
def e : List Nat := [
  32, 1, 2, 3, 4, 5,
  4, 5, 6, 7, 8, 9,
  8, 9, 10, 11, 12, 13,
  12, 13, 14, 15, 16, 17,
  16, 17, 18, 19, 20, 21,
  20, 21, 22, 23, 24, 25,
  24, 25, 26, 27, 28, 29,
  28, 29, 30, 31, 32, 1]

def p : List Nat := [
  16, 7, 20, 21, 29, 12, 28, 17,
  1, 15, 23, 26, 5, 18, 31, 10,
  2, 8, 24, 14, 32, 27, 3, 9,
  19, 13, 30, 6, 22, 11, 4, 25]

/-- The part of permuted choice 1 that fills register C. -/
def pc1C : List Nat := [
  57, 49, 41, 33, 25, 17, 9,
  1, 58, 50, 42, 34, 26, 18,
  10, 2, 59, 51, 43, 35, 27,
  19, 11, 3, 60, 52, 44, 36]

/-- The part of permuted choice 1 that fills register D. -/
def pc1D : List Nat := [
  63, 55, 47, 39, 31, 23, 15,
  7, 62, 54, 46, 38, 30, 22,
  14, 6, 61, 53, 45, 37, 29,
  21, 13, 5, 28, 20, 12, 4]

def pc2 : List Nat := [
  14, 17, 11, 24, 1, 5,
  3, 28, 15, 6, 21, 10,
  23, 19, 12, 4, 26, 8,
  16, 7, 27, 20, 13, 2,
  41, 52, 31, 37, 47, 55,
  30, 40, 51, 45, 33, 48,
  44, 49, 39, 56, 34, 53,
  46, 42, 50, 36, 29, 32]

/-- Number of left shifts before iterations 1 to 16. -/
def leftShifts : List Nat := [1, 1, 2, 2, 2, 2, 2, 2, 1, 2, 2, 2, 2, 2, 2, 1]

/-- The selection functions S1 to S8, each a list of four rows. -/
def sTables : List (List (List Nat)) := [
  [[14, 4, 13, 1, 2, 15, 11, 8, 3, 10, 6, 12, 5, 9, 0, 7],
   [0, 15, 7, 4, 14, 2, 13, 1, 10, 6, 12, 11, 9, 5, 3, 8],
   [4, 1, 14, 8, 13, 6, 2, 11, 15, 12, 9, 7, 3, 10, 5, 0],
   [15, 12, 8, 2, 4, 9, 1, 7, 5, 11, 3, 14, 10, 0, 6, 13]],
  [[15, 1, 8, 14, 6, 11, 3, 4, 9, 7, 2, 13, 12, 0, 5, 10],
   [3, 13, 4, 7, 15, 2, 8, 14, 12, 0, 1, 10, 6, 9, 11, 5],
   [0, 14, 7, 11, 10, 4, 13, 1, 5, 8, 12, 6, 9, 3, 2, 15],
   [13, 8, 10, 1, 3, 15, 4, 2, 11, 6, 7, 12, 0, 5, 14, 9]],
  [[10, 0, 9, 14, 6, 3, 15, 5, 1, 13, 12, 7, 11, 4, 2, 8],
   [13, 7, 0, 9, 3, 4, 6, 10, 2, 8, 5, 14, 12, 11, 15, 1],
   [13, 6, 4, 9, 8, 15, 3, 0, 11, 1, 2, 12, 5, 10, 14, 7],
   [1, 10, 13, 0, 6, 9, 8, 7, 4, 15, 14, 3, 11, 5, 2, 12]],
  [[7, 13, 14, 3, 0, 6, 9, 10, 1, 2, 8, 5, 11, 12, 4, 15],
   [13, 8, 11, 5, 6, 15, 0, 3, 4, 7, 2, 12, 1, 10, 14, 9],
   [10, 6, 9, 0, 12, 11, 7, 13, 15, 1, 3, 14, 5, 2, 8, 4],
   [3, 15, 0, 6, 10, 1, 13, 8, 9, 4, 5, 11, 12, 7, 2, 14]],
  [[2, 12, 4, 1, 7, 10, 11, 6, 8, 5, 3, 15, 13, 0, 14, 9],
   [14, 11, 2, 12, 4, 7, 13, 1, 5, 0, 15, 10, 3, 9, 8, 6],
   [4, 2, 1, 11, 10, 13, 7, 8, 15, 9, 12, 5, 6, 3, 0, 14],
   [11, 8, 12, 7, 1, 14, 2, 13, 6, 15, 0, 9, 10, 4, 5, 3]],
  [[12, 1, 10, 15, 9, 2, 6, 8, 0, 13, 3, 4, 14, 7, 5, 11],
   [10, 15, 4, 2, 7, 12, 9, 5, 6, 1, 13, 14, 0, 11, 3, 8],
   [9, 14, 15, 5, 2, 8, 12, 3, 7, 0, 4, 10, 1, 13, 11, 6],
   [4, 3, 2, 12, 9, 5, 15, 10, 11, 14, 1, 7, 6, 0, 8, 13]],
  [[4, 11, 2, 14, 15, 0, 8, 13, 3, 12, 9, 7, 5, 10, 6, 1],
   [13, 0, 11, 7, 4, 9, 1, 10, 14, 3, 5, 12, 2, 15, 8, 6],
   [1, 4, 11, 13, 12, 3, 7, 14, 10, 15, 6, 8, 0, 5, 9, 2],
   [6, 11, 13, 8, 1, 4, 10, 7, 9, 5, 0, 15, 14, 2, 3, 12]],
  [[13, 2, 8, 4, 6, 15, 11, 1, 10, 9, 3, 14, 5, 0, 12, 7],
   [1, 15, 13, 8, 10, 3, 7, 4, 12, 5, 6, 11, 0, 14, 9, 2],
   [7, 11, 4, 1, 9, 12, 14, 2, 0, 6, 10, 13, 15, 3, 5, 8],
   [2, 1, 14, 7, 4, 10, 8, 13, 15, 12, 9, 0, 3, 5, 6, 11]]]

/-- The number a string of bits represents in base 2. -/
def number : List Bool → Nat
  | [] => 0
  | b :: s => b.toNat * 2 ^ s.length + number s

/-- The four-bit block that represents a number. -/
def fourBits (n : Nat) : List Bool := [n.testBit 3, n.testBit 2, n.testBit 1, n.testBit 0]

/-- `S_j` of the block B: the first and last bits of the six give the row, the
middle four give the column. -/
def selection (j : Nat) (b : List Bool) : List Bool :=
  let row := number [bit b 1, bit b 6]
  let column := number [bit b 2, bit b 3, bit b 4, bit b 5]
  fourBits (((sTables.getD (j - 1) []).getD row []).getD column 0)

/-- Bits `6j - 5` to `6j` of a 48-bit string. -/
def sixBits (j : Nat) (s : List Bool) : List Bool :=
  (List.range 6).map (fun i => bit s (6 * j - 5 + i))

/-- The cipher function. -/
def f (r k : List Bool) : List Bool :=
  let b := add k (select e r)
  select p ((List.range 8).flatMap (fun i => selection (i + 1) (sixBits (i + 1) b)))

/-- A circular left shift of a register by `n` places. -/
def shiftLeft (s : List Bool) (n : Nat) : List Bool := s.drop n ++ s.take n

/-- The number of places the registers have moved after `n` iterations. -/
def totalShift (n : Nat) : Nat := (leftShifts.take n).sum

/-- The key `K_n`: permuted choice 2 of `C_n D_n`. -/
def keyBlock (key : List Bool) (n : Nat) : List Bool :=
  let c := shiftLeft (select pc1C key) (totalShift n)
  let d := shiftLeft (select pc1D key) (totalShift n)
  select pc2 (c ++ d)

/-- `K_1` to `K_16`. -/
def keyBlocks (key : List Bool) : List (List Bool) :=
  (List.range 16).map (fun i => keyBlock key (i + 1))

/-- Sixteen iterations of `L' = R`, `R' = L + f(R, K)` on the permuted input; the
preoutput block is `R16 L16`. -/
def compute (keys : List (List Bool)) (block : List Bool) : List Bool :=
  let input := select ip block
  let last := FeistelNetwork.network add f keys (input.take 32, input.drop 32)
  select ipInverse (last.2 ++ last.1)

def encipher (block key : List Bool) : List Bool := compute (keyBlocks key) block

/-- The same computation with `K_16` used in the first iteration. -/
def decipher (block key : List Bool) : List Bool := compute (keyBlocks key).reverse block

end Fips46
