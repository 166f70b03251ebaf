import DesModular.DecimalText
import DesModular.MachineWord

/-!
# The benchmark program

`benchmark.c`: the lists of points that its options hold, the option parser, the
checks `main` makes before it measures, and the sweep loop that pairs every row with a
baseline. Texts are lists of characters without the final zero; what a clock returns
is a parameter.
-/
namespace Benchmark

open MachineWord DecimalText

/-- `MAX_POINTS`. -/
def maxPoints : Nat := 16

/-- `DES_KEYSPACE_MAX_BITS`. -/
def desKeyspaceMaxBits : U32 := 32#32

/-- An array of `MAX_POINTS` entries and the number of them in use. -/
structure PointList where
  points : Vector U32 maxPoints
  count : Nat
  count_le : count ≤ maxPoints

namespace PointList

def empty : PointList := ⟨Vector.replicate maxPoints 0#32, 0, Nat.zero_le _⟩

/-- The entries in use. -/
def toList (list : PointList) : List U32 := list.points.toList.take list.count

/-- `out[count++] = value`. -/
def push (list : PointList) (value : U32) (h : list.count < maxPoints) : PointList :=
  ⟨list.points.set list.count value, list.count + 1, h⟩

@[simp] theorem count_push (list : PointList) (value : U32) (h : list.count < maxPoints) :
    (list.push value h).count = list.count + 1 := rfl

@[simp] theorem length_toList (list : PointList) : list.toList.length = list.count := by
  have hle := list.count_le
  simp [toList, hle]

@[simp] theorem toList_empty : empty.toList = [] := rfl

theorem getElem_toList (list : PointList) {i : Nat} (h : i < list.toList.length)
    (hm : i < maxPoints) : list.toList[i] = list.points[i] := by
  simp [toList]

@[simp] theorem toList_push (list : PointList) (value : U32) (h : list.count < maxPoints) :
    (list.push value h).toList = list.toList ++ [value] := by
  have hlen : list.count < (list.points.toList.set list.count value).length := by simpa using h
  rw [toList, push, Vector.toList_set, List.take_succ_eq_append_getElem hlen,
    List.getElem_set_self, List.take_set_of_le (Nat.le_refl _), toList]

/-- An entry can be added while there is room. -/
theorem count_lt {list : PointList} {room : Nat} (h : list.count + (room + 1) = maxPoints) :
    list.count < maxPoints := by omega

/-- It takes one place of the room. -/
theorem count_push_add {list : PointList} {room : Nat} (h : list.count + (room + 1) = maxPoints)
    (value : U32) : (list.push value (count_lt h)).count + room = maxPoints := by
  rw [count_push]
  omega

end PointList

/-! ## Options -/

/-- Past a separator, if there is one. -/
def skipComma : List Char → List Char
  | ',' :: rest => rest
  | rest => rest

/-- The loop of `parse_list`; `room` is `max - count`, one less after each entry. -/
def parseListLoop : (room : Nat) → (list : PointList) → list.count + room = maxPoints →
    List Char → PointList
  | 0, list, _, _ => list
  | _ + 1, list, _, [] => list
  | room + 1, list, h, c :: cs =>
    let number := strtoul 64 (c :: cs)
    -- `end == cursor`: there was no number to read
    if number.rest = c :: cs then list
    else parseListLoop room (list.push (number.value.setWidth 32) (PointList.count_lt h))
      (PointList.count_push_add h _) (skipComma number.rest)

/-- The entries are written over those that `out` had before. -/
def parseList (text : List Char) (out : PointList) : PointList :=
  parseListLoop maxPoints ⟨out.points, 0, Nat.zero_le _⟩ (Nat.zero_add _) text

/-- `for (i = count; i > 0; --i) points[i] = points[i - 1]`. -/
def shiftUp : (i : Nat) → i < maxPoints → Vector U32 maxPoints → Vector U32 maxPoints
  | 0, _, points => points
  | i + 1, h, points => shiftUp i (Nat.lt_of_succ_lt h) (points.set (i + 1) points[i])

/-- A full list loses its last entry to make room for the baseline. -/
def shortened (workers : PointList) : Nat :=
  if workers.count = maxPoints then workers.count - 1 else workers.count

theorem shortened_lt (workers : PointList) : shortened workers < maxPoints := by
  have hle := workers.count_le
  have hpos : 0 < maxPoints := by decide
  rw [shortened]
  split <;> omega

def ensureBaseline (workers : PointList) : PointList :=
  if workers.toList.any (· == 1#32) then workers
  else ⟨(shiftUp (shortened workers) (shortened_lt workers) workers.points).set 0 1#32,
    shortened workers + 1, shortened_lt workers⟩

structure Options where
  bits : PointList
  workers : PointList
  repeats : U32
  target : U64
  csvPath : Option String

def initialOptions : Options := ⟨.empty, .empty, 3#32, BitVec.allOnes 64, none⟩

/-- The ways out of `main` before it measures anything. -/
inductive Exit where
  | help
  | needsValue (flag : String)
  | unknownOption (flag : String)
  | badRepeats
  | badBits
  deriving DecidableEq, Repr

/-- `EXIT_SUCCESS` for the usage text alone. -/
def Exit.success : Exit → Bool
  | .help => true
  | _ => false

/-- What is written to `stderr`. -/
def Exit.message : Exit → String
  | .help => ""
  | .needsValue flag => "Error: " ++ flag ++ " needs a value.\n"
  | .unknownOption flag => "Error: unknown option " ++ flag ++ "\n"
  | .badRepeats => "Error: --repeats must be at least 1.\n"
  | .badBits => "Error: --bits values must be between 1 and 32.\n"

/-- Every failure says why. -/
theorem Exit.message_ne_empty {e : Exit} (h : e.success = false) : e.message ≠ "" := by
  cases e with
  | help => cases h
  | needsValue flag =>
    show "Error: " ++ flag ++ " needs a value.\n" ≠ ""
    simp
  | unknownOption flag =>
    show "Error: unknown option " ++ flag ++ "\n" ≠ ""
    simp
  | badRepeats =>
    show "Error: --repeats must be at least 1.\n" ≠ ""
    simp
  | badBits =>
    show "Error: --bits values must be between 1 and 32.\n" ≠ ""
    simp

/-- The chain of `strcmp` on one flag and its value. -/
def readOption (o : Options) (flag value : String) : Except Exit Options :=
  if flag = "--bits" then .ok { o with bits := parseList value.toList o.bits }
  else if flag = "--workers" then .ok { o with workers := parseList value.toList o.workers }
  else if flag = "--repeats" then
    .ok { o with repeats := (strtoul 64 value.toList).value.setWidth 32 }
  else if flag = "--target" then .ok { o with target := (strtoul 64 value.toList).value }
  else if flag = "--csv" then .ok { o with csvPath := some value }
  else .error (.unknownOption flag)

/-- The loop over `argv`, two arguments at a time. -/
def readOptions (o : Options) : List String → Except Exit Options
  | [] => .ok o
  | [flag] => .error (if flag = "--help" then .help else .needsValue flag)
  | flag :: value :: args =>
    if flag = "--help" then .error .help
    else do
      let o ← readOption o flag value
      readOptions o args

/-- The loop that doubles the worker count up to the number of cores. -/
def defaultWorkers (cores : U32) : (room : Nat) → (list : PointList) →
    list.count + room = maxPoints → U32 → PointList
  | 0, list, _, _ => list
  | room + 1, list, h, workers =>
    if workers ≤ cores then
      defaultWorkers cores room (list.push workers (PointList.count_lt h))
        (PointList.count_push_add h _) (workers * 2#32)
    else list

/-- Lists left empty get the program's own points. -/
def fillDefaults (cores : U32) (o : Options) : Options :=
  { o with
    bits := if o.bits.count = 0 then
        ⟨((o.bits.points.set 0 16#32).set 1 18#32).set 2 20#32, 3, by decide⟩
      else o.bits
    workers := if h : o.workers.count = 0 then
        defaultWorkers cores maxPoints o.workers (by rw [h, Nat.zero_add]) 1#32
      else o.workers }

def badWidth (bits : U32) : Bool := bits == 0#32 || desKeyspaceMaxBits < bits

/-- `--repeats` is checked before `--bits`. -/
def checkOptions (o : Options) : Except Exit Options :=
  if o.repeats = 0#32 then .error .badRepeats
  else if o.bits.toList.any badWidth then .error .badBits
  else .ok o

/-- `main` up to the options it measures with. -/
def mainOptions (cores : U32) (args : List String) : Except Exit Options := do
  let o ← readOptions initialOptions args
  let o ← checkOptions (fillDefaults cores o)
  pure { o with workers := ensureBaseline o.workers }

/-! ## The sweep loop -/

/-- One row of the table: `baseline` is the time its speedup is taken against. -/
structure SweepRow (τ : Type) where
  workers : U32
  timeAvg : τ
  baseline : τ
  deriving DecidableEq, Repr

variable {τ : Type}

/-- The loop over the worker counts, from row `w` on; `timeAvg w` is what the clock gives
for that row. -/
def sweepLoop (timeAvg : Nat → τ) : (w : Nat) → List U32 → (baseline : τ) → List (SweepRow τ)
  | _, [], _ => []
  | w, workers :: rest, baseline =>
    let baseline := if workers = 1#32 then timeAvg w else baseline
    ⟨workers, timeAvg w, baseline⟩ :: sweepLoop timeAvg (w + 1) rest baseline

/-- The rows of every width; `baseline` starts at `zero` for each of them. -/
def sweeps (zero : τ) (timeAvg : Nat → Nat → τ) (o : Options) : List (U32 × List (SweepRow τ)) :=
  o.bits.toList.mapIdx (fun b bits => (bits, sweepLoop (timeAvg b) 0 o.workers.toList zero))

end Benchmark
