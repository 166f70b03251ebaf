import DesModular.BenchmarkBaseline
import DesModular.BenchmarkOptions
import Mathlib.Data.List.Induction

/-!
# The settings that the arguments give

The loop over `argv` takes flags with their values for as long as it can. The last value
of a flag counts, a list that is missing or empty is filled in, and what stops the loop
decides the error.
-/
namespace BenchmarkSettings

open MachineWord DecimalText Benchmark BenchmarkBaseline

/-! ## Flags and values -/

/-- The flags that take a value. -/
def flags : List String := ["--bits", "--workers", "--repeats", "--target", "--csv"]

/-- Flags with their values, as arguments. -/
def arguments (pairs : List (String × String)) : List String :=
  pairs.flatMap fun p => [p.1, p.2]

/-- The value that counts. -/
def lastValue (flag : String) : List (String × String) → Option String
  | [] => none
  | (name, value) :: pairs => (lastValue flag pairs).or (if name = flag then some value else none)

/-- The arguments at which the loop stops, and how. -/
inductive StopsAt : List String → Exit → Prop
  | help (rest : List String) : StopsAt ("--help" :: rest) .help
  | needsValue {flag : String} (h : flag ≠ "--help") : StopsAt [flag] (.needsValue flag)
  | unknown {flag : String} (value : String) (rest : List String) (h : flag ≠ "--help")
    (hflag : flag ∉ flags) : StopsAt (flag :: value :: rest) (.unknownOption flag)

theorem StopsAt.readOptions {rest : List String} {e : Exit} (h : StopsAt rest e) (o : Options) :
    readOptions o rest = .error e := by
  cases h with
  | help rest => cases rest <;> simp [Benchmark.readOptions]
  | needsValue h => simp [Benchmark.readOptions, h]
  | unknown value rest h hflag =>
    simp only [flags, List.mem_cons, List.not_mem_nil, or_false, not_or] at hflag
    obtain ⟨h1, h2, h3, h4, h5⟩ := hflag
    simp only [Benchmark.readOptions, if_neg h, readOption, if_neg h1, if_neg h2, if_neg h3,
      if_neg h4, if_neg h5]
    rfl

theorem not_help_of_mem {flag : String} (h : flag ∈ flags) : flag ≠ "--help" := by
  rintro rfl
  revert h
  decide

/-- The loop takes flags with values up to the end or to what stops it. -/
theorem exists_arguments (args : List String) :
    ∃ pairs rest, args = arguments pairs ++ rest ∧ (∀ p ∈ pairs, p.1 ∈ flags) ∧
      (rest = [] ∨ ∃ e, StopsAt rest e) := by
  induction args using List.twoStepInduction with
  | nil => exact ⟨[], [], rfl, nofun, .inl rfl⟩
  | singleton flag =>
    refine ⟨[], [flag], rfl, nofun, .inr ?_⟩
    by_cases h : flag = "--help"
    · rw [h]
      exact ⟨_, .help []⟩
    · exact ⟨_, .needsValue h⟩
  | cons_cons flag value args ih _ =>
    by_cases h : flag = "--help"
    · rw [h]
      exact ⟨[], _, rfl, nofun, .inr ⟨_, .help _⟩⟩
    · by_cases hflag : flag ∈ flags
      · obtain ⟨pairs, rest, hargs, hpairs, hrest⟩ := ih
        refine ⟨(flag, value) :: pairs, rest, ?_, ?_, hrest⟩
        · rw [hargs]
          rfl
        · exact List.forall_mem_cons.mpr ⟨hflag, hpairs⟩
      · exact ⟨[], _, rfl, nofun, .inr ⟨_, .unknown value args h hflag⟩⟩

/-! ## What the values become -/

/-- The entries of a list given as a text. -/
def entries (text : String) : List U32 := (parseList text.toList .empty).toList

/-- The loop only adds to the entries in use. -/
theorem toList_parseListLoop_congr {room : Nat} {list list' : PointList}
    (h : list.count + room = maxPoints) (h' : list'.count + room = maxPoints)
    (hlist : list.toList = list'.toList) (text : List Char) :
    (parseListLoop room list h text).toList = (parseListLoop room list' h' text).toList := by
  induction room generalizing list list' text with
  | zero => exact hlist
  | succ room ih =>
    cases text with
    | nil => exact hlist
    | cons c cs =>
      simp only [parseListLoop]
      split
      · exact hlist
      · apply ih
        rw [PointList.toList_push, PointList.toList_push, hlist]

/-- What the array held before does not matter. -/
theorem toList_parseList_eq (text : String) (out : PointList) :
    (parseList text.toList out).toList = entries text :=
  toList_parseListLoop_congr _ _ (by simp [PointList.toList]) _

def repeatsValue (text : String) : U32 := (strtoul 64 text.toList).value.setWidth 32

def targetValue (text : String) : U64 := (strtoul 64 text.toList).value

/-- The options `o'` are `o` with the last value of each flag. -/
structure Reads (pairs : List (String × String)) (o o' : Options) : Prop where
  bits : o'.bits.toList = (lastValue "--bits" pairs).elim o.bits.toList entries
  workers : o'.workers.toList = (lastValue "--workers" pairs).elim o.workers.toList entries
  repeats : o'.repeats = (lastValue "--repeats" pairs).elim o.repeats repeatsValue
  target : o'.target = (lastValue "--target" pairs).elim o.target targetValue
  csvPath : o'.csvPath = (lastValue "--csv" pairs).elim o.csvPath some

/-- The value of the first pair counts unless a later one does. -/
theorem elim_lastValue_cons {τ : Type} (flag : String) (p : String × String)
    (pairs : List (String × String)) (unset : τ) (read : String → τ) :
    (lastValue flag (p :: pairs)).elim unset read =
      (lastValue flag pairs).elim (if p.1 = flag then read p.2 else unset) read := by
  rw [lastValue]
  cases lastValue flag pairs with
  | some value => rfl
  | none =>
    rw [Option.none_or]
    split <;> rfl

theorem Reads.cons {p : String × String} {pairs : List (String × String)} {o o₁ o' : Options}
    (first : Reads [p] o o₁) (rest : Reads pairs o₁ o') : Reads (p :: pairs) o o' where
  bits := by
    rw [elim_lastValue_cons, rest.bits, first.bits, elim_lastValue_cons]
    rfl
  workers := by
    rw [elim_lastValue_cons, rest.workers, first.workers, elim_lastValue_cons]
    rfl
  repeats := by
    rw [elim_lastValue_cons, rest.repeats, first.repeats, elim_lastValue_cons]
    rfl
  target := by
    rw [elim_lastValue_cons, rest.target, first.target, elim_lastValue_cons]
    rfl
  csvPath := by
    rw [elim_lastValue_cons, rest.csvPath, first.csvPath, elim_lastValue_cons]
    rfl

/-- Each flag sets its own option. -/
theorem readOption_reads (o : Options) {p : String × String} (h : p.1 ∈ flags) :
    ∃ o', readOption o p.1 p.2 = .ok o' ∧ Reads [p] o o' := by
  obtain ⟨flag, value⟩ := p
  simp only [flags, List.mem_cons, List.not_mem_nil, or_false] at h
  obtain rfl | rfl | rfl | rfl | rfl := h
  · exact ⟨_, rfl, toList_parseList_eq value _, rfl, rfl, rfl, rfl⟩
  · exact ⟨_, rfl, rfl, toList_parseList_eq value _, rfl, rfl, rfl⟩
  · exact ⟨_, rfl, rfl, rfl, rfl, rfl, rfl⟩
  · exact ⟨_, rfl, rfl, rfl, rfl, rfl, rfl⟩
  · exact ⟨_, rfl, rfl, rfl, rfl, rfl, rfl⟩

theorem readOptions_arguments (o : Options) {pairs : List (String × String)}
    (h : ∀ p ∈ pairs, p.1 ∈ flags) :
    ∃ o', Reads pairs o o' ∧
      ∀ rest, readOptions o (arguments pairs ++ rest) = readOptions o' rest := by
  induction pairs generalizing o with
  | nil => exact ⟨o, ⟨rfl, rfl, rfl, rfl, rfl⟩, fun _ => rfl⟩
  | cons p pairs ih =>
    obtain ⟨hp, hpairs⟩ := List.forall_mem_cons.mp h
    obtain ⟨o₁, hread, hfirst⟩ := readOption_reads o hp
    obtain ⟨o', hrest, hloop⟩ := ih o₁ hpairs
    refine ⟨o', hfirst.cons hrest, ?_⟩
    intro rest
    show readOptions o (p.1 :: p.2 :: (arguments pairs ++ rest)) = readOptions o' rest
    rw [readOptions, if_neg (not_help_of_mem hp), hread, ← hloop rest]
    rfl

/-! ## Defaults -/

/-- The widths `main` measures. -/
def widths (pairs : List (String × String)) : List U32 :=
  match (lastValue "--bits" pairs).elim [] entries with
  | [] => [16#32, 18#32, 20#32]
  | list => list

/-- The powers of two up to the number of cores. -/
def powers (cores : U32) : List U32 :=
  ((List.range maxPoints).map fun i => 1#32 <<< i).takeWhile (· ≤ cores)

/-- A list without a 1 gets one in front, and loses its sixteenth entry. -/
def withBaseline (list : List U32) : List U32 :=
  if 1#32 ∈ list then list else 1#32 :: list.take 15

/-- The worker counts `main` measures. -/
def workerCounts (cores : U32) (pairs : List (String × String)) : List U32 :=
  withBaseline (match (lastValue "--workers" pairs).elim [] entries with
    | [] => powers cores
    | list => list)

theorem toList_defaultWorkers (cores : U32) {room : Nat} {list : PointList}
    (h : list.count + room = maxPoints) (workers : U32) :
    (defaultWorkers cores room list h workers).toList =
      list.toList ++ ((List.range room).map fun i => workers <<< i).takeWhile (· ≤ cores) := by
  induction room generalizing list workers with
  | zero => simp [defaultWorkers]
  | succ room ih =>
    have hdouble : ∀ i : Nat, (workers * 2#32) <<< i = workers <<< (i + 1) := by
      intro i
      have htwo : (2#32) = BitVec.twoPow 32 1 := by decide
      rw [htwo, BitVec.mul_twoPow_eq_shiftLeft, ← BitVec.shiftLeft_add, Nat.add_comm]
    rw [List.range_succ_eq_map, List.map_cons, List.map_map, List.takeWhile_cons, defaultWorkers]
    by_cases hle : workers ≤ cores
    · simp [hle, ih, hdouble, Function.comp_def]
    · simp [hle]

theorem toList_eq_nil_iff (list : PointList) : list.toList = [] ↔ list.count = 0 := by
  rw [← List.length_eq_zero_iff, PointList.length_toList]

theorem toList_ensureBaseline_eq (list : PointList) :
    (ensureBaseline list).toList = withBaseline list.toList := by
  rw [withBaseline]
  split
  next h => rw [ensureBaseline_of_mem h]
  next h =>
    have hlen := PointList.length_toList list
    have hle := list.count_le
    have hmax : maxPoints = 16 := rfl
    rw [toList_ensureBaseline h, shortened]
    split
    next hfull => rw [hfull, hmax]
    next hroom => rw [List.take_of_length_le (by omega), List.take_of_length_le (by omega)]

/-- The three widths written over the first entries. -/
theorem take_set_three (points : Vector U32 maxPoints) (a b c : U32) :
    (((points.set 0 a).set 1 b).set 2 c).toList.take 3 = [a, b, c] := by
  have hlen : points.toList.length = 16 := Vector.length_toList
  simp only [Vector.toList_set]
  generalize points.toList = list at hlen
  obtain _ | ⟨x, _ | ⟨y, _ | ⟨z, rest⟩⟩⟩ := list
  · cases hlen
  · cases hlen
  · cases hlen
  · rfl

theorem widths_fillDefaults (cores : U32) {pairs : List (String × String)} {o : Options}
    (h : Reads pairs initialOptions o) : (fillDefaults cores o).bits.toList = widths pairs := by
  have hbits : o.bits.toList = (lastValue "--bits" pairs).elim [] entries := h.bits
  rw [widths, ← hbits]
  by_cases hcount : o.bits.count = 0
  · rw [(toList_eq_nil_iff o.bits).mpr hcount]
    simp only [fillDefaults, if_pos hcount, PointList.toList]
    exact take_set_three o.bits.points 16#32 18#32 20#32
  · simp only [fillDefaults, if_neg hcount]
    split
    next hnil => exact absurd ((toList_eq_nil_iff o.bits).mp hnil) hcount
    next => rfl

theorem workers_fillDefaults (cores : U32) {pairs : List (String × String)} {o : Options}
    (h : Reads pairs initialOptions o) :
    (ensureBaseline (fillDefaults cores o).workers).toList = workerCounts cores pairs := by
  have hworkers : o.workers.toList = (lastValue "--workers" pairs).elim [] entries := h.workers
  rw [toList_ensureBaseline_eq, workerCounts, ← hworkers]
  by_cases hcount : o.workers.count = 0
  · have hnil := (toList_eq_nil_iff o.workers).mpr hcount
    simp only [fillDefaults, dif_pos hcount, toList_defaultWorkers, hnil, List.nil_append, powers]
  · simp only [fillDefaults, dif_neg hcount]
    split
    next hnil => exact absurd ((toList_eq_nil_iff o.workers).mp hnil) hcount
    next => rfl

/-! ## The arguments as a whole -/

/-- `main` without an error of the loop: the checks, and the options it goes on with. -/
structure Accepts (cores : U32) (pairs : List (String × String)) (o : Options) : Prop where
  bits : o.bits.toList = widths pairs
  workers : o.workers.toList = workerCounts cores pairs
  repeats : o.repeats = (lastValue "--repeats" pairs).elim 3#32 repeatsValue
  target : o.target = (lastValue "--target" pairs).elim (BitVec.allOnes 64) targetValue
  csvPath : o.csvPath = lastValue "--csv" pairs

/-- The order of the checks. -/
def checkSettings (pairs : List (String × String)) : Except Exit Unit :=
  if (lastValue "--repeats" pairs).elim 3#32 repeatsValue = 0#32 then .error .badRepeats
  else if (widths pairs).any badWidth then .error .badBits
  else .ok ()

theorem mainOptions_arguments (cores : U32) {pairs : List (String × String)}
    (h : ∀ p ∈ pairs, p.1 ∈ flags) :
    ∃ o, Accepts cores pairs o ∧
      mainOptions cores (arguments pairs) = (checkSettings pairs).map fun _ => o := by
  obtain ⟨o, hreads, hloop⟩ := readOptions_arguments initialOptions h
  have hread : readOptions initialOptions (arguments pairs) = .ok o := by
    rw [← List.append_nil (arguments pairs), hloop]
    rfl
  have hrepeats : (fillDefaults cores o).repeats =
      (lastValue "--repeats" pairs).elim 3#32 repeatsValue := hreads.repeats
  have hcsv : o.csvPath = lastValue "--csv" pairs := by
    rw [hreads.csvPath]
    cases lastValue "--csv" pairs <;> rfl
  refine ⟨{ fillDefaults cores o with workers := ensureBaseline (fillDefaults cores o).workers },
    ⟨widths_fillDefaults cores hreads, workers_fillDefaults cores hreads, hrepeats,
    hreads.target, hcsv⟩, ?_⟩
  rw [mainOptions, hread]
  change (checkOptions (fillDefaults cores o) >>= fun o =>
    pure { o with workers := ensureBaseline o.workers }) = _
  rw [checkOptions, checkSettings, hrepeats, widths_fillDefaults cores hreads]
  split
  · rfl
  · split <;> rfl

/-- Any arguments are flags with values up to the end or to what stops the loop. In the
first case the last values and the defaults are checked, `--repeats` first, and measured
with if they pass; in the second the error says what stopped it. -/
theorem settings_of_arguments (cores : U32) (args : List String) :
    ∃ pairs rest, args = arguments pairs ++ rest ∧ (∀ p ∈ pairs, p.1 ∈ flags) ∧
      ((rest = [] ∧ ∃ o, Accepts cores pairs o ∧
          mainOptions cores args = (checkSettings pairs).map fun _ => o) ∨
        ∃ e, StopsAt rest e ∧ mainOptions cores args = .error e) := by
  obtain ⟨pairs, rest, hargs, hpairs, hrest⟩ := exists_arguments args
  refine ⟨pairs, rest, hargs, hpairs, ?_⟩
  obtain rfl | ⟨e, hstops⟩ := hrest
  · rw [hargs, List.append_nil]
    exact .inl ⟨rfl, mainOptions_arguments cores hpairs⟩
  · obtain ⟨o, -, hloop⟩ := readOptions_arguments initialOptions hpairs
    refine .inr ⟨e, hstops, ?_⟩
    rw [mainOptions, hargs, hloop, hstops.readOptions]
    rfl

/-- A flag given twice counts once, with its later value. -/
example : (mainOptions 4#32 ["--bits", "1", "--repeats", "2", "--bits", "7,8"]).map
    (fun o => (o.bits.toList, o.workers.toList)) = .ok ([7#32, 8#32], [1#32, 2#32, 4#32]) := by
  decide +kernel

/-! ## Options that are measured with -/

structure WellFormed (o : Options) : Prop where
  widths : ∀ bits ∈ o.bits.toList, badWidth bits = false
  widths_ne_nil : o.bits.toList ≠ []
  baseline : 1#32 ∈ o.workers.toList
  repeats_ne_zero : o.repeats ≠ 0#32

theorem bits_fillDefaults_ne_nil (cores : U32) (o : Options) :
    (fillDefaults cores o).bits.toList ≠ [] := by
  rw [Ne, toList_eq_nil_iff]
  simp only [fillDefaults]
  split
  next => exact Nat.succ_ne_zero 2
  next h => exact h

theorem one_mem_withBaseline (list : List U32) : 1#32 ∈ withBaseline list := by
  rw [withBaseline]
  split
  next h => exact h
  next => exact List.mem_cons_self

/-- `main` measures with nothing else. -/
theorem wellFormed_of_mainOptions {cores : U32} {args : List String} {o : Options}
    (h : mainOptions cores args = .ok o) : WellFormed o := by
  rw [mainOptions] at h
  cases hread : readOptions initialOptions args with
  | error e =>
    rw [hread] at h
    cases h
  | ok o₁ =>
    rw [hread] at h
    change (checkOptions (fillDefaults cores o₁) >>= fun o =>
      pure { o with workers := ensureBaseline o.workers }) = .ok o at h
    rw [checkOptions] at h
    split at h
    next => cases h
    next hrepeats =>
      split at h
      next => cases h
      next hwidths =>
        obtain rfl := Except.ok.inj h
        refine ⟨?_, bits_fillDefaults_ne_nil cores o₁, ?_, hrepeats⟩
        · intro bits hmem
          by_contra hbad
          exact hwidths (List.any_eq_true.mpr ⟨bits, hmem, Bool.eq_true_of_not_eq_false hbad⟩)
        · rw [toList_ensureBaseline_eq]
          exact one_mem_withBaseline _

end BenchmarkSettings
