import DesModular.Benchmark

/-!
# What the option parser accepts as widths

A list of numerals is read number by number, but every number is cut to 32 bits before
it is checked, so that some widths far beyond the largest pass the check.
-/
namespace BenchmarkOptions

open MachineWord DecimalText Benchmark

/-- The entry that a numeral becomes: saturated at 64 bits, then cut to 32. -/
def entryOf (n : Numeral) : U32 := (saturate 64 n.value).setWidth 32

theorem toNat_entryOf (n : Numeral) :
    (entryOf n).toNat = min n.value (2 ^ 64 - 1) % 2 ^ 32 := by
  rw [entryOf, BitVec.toNat_setWidth, toNat_saturate]

theorem skipComma_flatMap (ns : List Numeral) :
    skipComma (ns.flatMap (fun k => ',' :: k.digits)) = commaSeparated ns := by
  cases ns <;> simp [skipComma, commaSeparated]

/-- One iteration on the list's next numeral. -/
theorem parseListLoop_numeral {room : Nat} {list : PointList}
    (h : list.count + (room + 1) = maxPoints) (n : Numeral) (ns : List Numeral) :
    parseListLoop (room + 1) list h (commaSeparated (n :: ns)) =
      parseListLoop room (list.push (entryOf n) (PointList.count_lt h))
        (PointList.count_push_add h _) (commaSeparated ns) := by
  have hrest : (ns.flatMap (fun k => ',' :: k.digits)).takeWhile Char.isDigit = [] := by
    cases ns <;> simp
  have hnumber := strtoul_numeral 64 n hrest
  rw [commaSeparated]
  cases hdigits : n.digits with
  | nil => exact absurd hdigits n.nonempty
  | cons c cs =>
    rw [hdigits, List.cons_append] at hnumber
    have hread : ns.flatMap (fun k => ',' :: k.digits) ≠
        c :: (cs ++ ns.flatMap (fun k => ',' :: k.digits)) := by
      intro he
      have hlen := congrArg List.length he
      simp only [List.length_cons, List.length_append] at hlen
      omega
    simp only [List.cons_append, parseListLoop, hnumber, if_neg hread, skipComma_flatMap]
    rfl

theorem toList_parseListLoop (ns : List Numeral) {room : Nat} {list : PointList}
    (h : list.count + room = maxPoints) (hroom : ns.length ≤ room) :
    (parseListLoop room list h (commaSeparated ns)).toList = list.toList ++ ns.map entryOf := by
  induction ns generalizing room list with
  | nil => cases room <;> simp [commaSeparated, parseListLoop]
  | cons n ns ih =>
    obtain ⟨room, rfl⟩ : ∃ r, room = r + 1 := ⟨room - 1, by simp at hroom; omega⟩
    rw [parseListLoop_numeral, ih _ (by simpa using hroom), PointList.toList_push]
    simp

/-- One entry for each numeral, in order, whatever the array held before. -/
theorem toList_parseList (ns : List Numeral) (hle : ns.length ≤ maxPoints) (out : PointList) :
    (parseList (commaSeparated ns) out).toList = ns.map entryOf := by
  rw [parseList, toList_parseListLoop ns (Nat.zero_add _) hle]
  simp [PointList.toList]

theorem badWidth_iff (bits : U32) : badWidth bits = true ↔ ¬(1 ≤ bits.toNat ∧ bits.toNat ≤ 32) := by
  have hmax : desKeyspaceMaxBits.toNat = 32 := rfl
  have hzero : bits = 0#32 ↔ bits.toNat = 0 := by
    rw [← BitVec.toNat_inj]
    rfl
  simp only [badWidth, Bool.or_eq_true, beq_iff_eq, decide_eq_true_iff, BitVec.lt_def, hmax, hzero]
  omega

/-- The options `main` reads from a list of widths alone. -/
def bitsOptions (ns : List Numeral) : Options :=
  { initialOptions with bits := parseList (commaSeparated ns) .empty }

/-- They keep the widths when the defaults are filled in. -/
theorem bits_fillDefaults (cores : U32) {ns : List Numeral} (hne : 1 ≤ ns.length)
    (hle : ns.length ≤ maxPoints) :
    (fillDefaults cores (bitsOptions ns)).bits = parseList (commaSeparated ns) .empty := by
  have hlen := congrArg List.length (toList_parseList ns hle .empty)
  simp only [PointList.length_toList, List.length_map] at hlen
  have hcount : (bitsOptions ns).bits.count ≠ 0 := by
    simp only [bitsOptions, hlen]
    omega
  simp only [fillDefaults, if_neg hcount]
  rfl

/-- With one to sixteen numerals, the check of the widths decides alone. -/
theorem mainOptions_bits (cores : U32) {ns : List Numeral} (hne : 1 ≤ ns.length)
    (hle : ns.length ≤ maxPoints) :
    mainOptions cores ["--bits", String.ofList (commaSeparated ns)] =
      if (ns.map entryOf).any badWidth then .error .badBits
      else .ok { fillDefaults cores (bitsOptions ns) with
        workers := ensureBaseline (fillDefaults cores (bitsOptions ns)).workers } := by
  have hread : readOptions initialOptions ["--bits", String.ofList (commaSeparated ns)] =
      .ok (bitsOptions ns) := by
    simp [readOptions, readOption, bitsOptions, initialOptions]
    rfl
  have hrepeats : ¬(fillDefaults cores (bitsOptions ns)).repeats = 0#32 := by
    simp [fillDefaults, bitsOptions, initialOptions]
  have hcheck : checkOptions (fillDefaults cores (bitsOptions ns)) =
      if (ns.map entryOf).any badWidth then .error .badBits
      else .ok (fillDefaults cores (bitsOptions ns)) := by
    rw [checkOptions, if_neg hrepeats, bits_fillDefaults cores hne hle,
      toList_parseList ns hle .empty]
  rw [mainOptions, hread]
  change (checkOptions (fillDefaults cores (bitsOptions ns)) >>= fun o =>
    pure { o with workers := ensureBaseline o.workers }) = _
  rw [hcheck]
  split
  · rfl
  · rfl

/-- `main` gets past its check when every entry is in range. -/
theorem mainOptions_bits_ok (cores : U32) {ns : List Numeral} (hne : 1 ≤ ns.length)
    (hle : ns.length ≤ maxPoints) :
    (∃ o, mainOptions cores ["--bits", String.ofList (commaSeparated ns)] = .ok o) ↔
      ∀ n ∈ ns, 1 ≤ (entryOf n).toNat ∧ (entryOf n).toNat ≤ 32 := by
  have hany : (ns.map entryOf).any badWidth = true ↔
      ¬∀ n ∈ ns, 1 ≤ (entryOf n).toNat ∧ (entryOf n).toNat ≤ 32 := by
    simp only [List.any_map, List.any_eq_true, Function.comp_apply, badWidth_iff]
    push Not
    rfl
  rw [mainOptions_bits cores hne hle]
  split
  next hbad => simp [hany.mp hbad]
  next hgood =>
    have hall := not_not.mp (mt hany.mpr hgood)
    exact ⟨fun _ => hall, fun _ => ⟨_, rfl⟩⟩

theorem bits_of_mainOptions {cores : U32} {ns : List Numeral} (hne : 1 ≤ ns.length)
    (hle : ns.length ≤ maxPoints) {o : Options}
    (h : mainOptions cores ["--bits", String.ofList (commaSeparated ns)] = .ok o) :
    o.bits.toList = ns.map entryOf := by
  rw [mainOptions_bits cores hne hle] at h
  split at h
  · cases h
  · obtain rfl := Except.ok.inj h
    rw [bits_fillDefaults cores hne hle, toList_parseList ns hle .empty]

/-! ## The check against the numerals -/

/-- A list of widths is read in order, one entry for each numeral, and `main` goes on with
it exactly when all its numbers are widths, which are then the entries. -/
structure WidthsValidated (cores : U32) (ns : List Numeral) : Prop where
  parsed : (parseList (commaSeparated ns) .empty).toList = ns.map entryOf
  accepted : (∃ o, mainOptions cores ["--bits", String.ofList (commaSeparated ns)] = .ok o) ↔
    ∀ n ∈ ns, 1 ≤ n.value ∧ n.value ≤ 32
  exact : ∀ o, mainOptions cores ["--bits", String.ofList (commaSeparated ns)] = .ok o →
    o.bits.toList.map BitVec.toNat = ns.map Numeral.value

/-- A number below `2 ^ 32` is its own entry. -/
theorem toNat_entryOf_of_lt {n : Numeral} (h : n.value < 2 ^ 32) : (entryOf n).toNat = n.value := by
  rw [toNat_entryOf]
  omega

/-- With small numbers, or an entry that is turned away, checking the entries is checking
the numbers. -/
theorem entries_inRange_iff {ns : List Numeral}
    (h : (∀ n ∈ ns, n.value < 2 ^ 32) ∨
      ∃ n ∈ ns, ¬(1 ≤ (entryOf n).toNat ∧ (entryOf n).toNat ≤ 32)) :
    (∀ n ∈ ns, 1 ≤ (entryOf n).toNat ∧ (entryOf n).toNat ≤ 32) ↔
      ∀ n ∈ ns, 1 ≤ n.value ∧ n.value ≤ 32 := by
  obtain hsmall | ⟨n, hn, hbad⟩ := h
  · constructor
    · intro hall n hn
      rw [← toNat_entryOf_of_lt (hsmall n hn)]
      exact hall n hn
    · intro hall n hn
      rw [toNat_entryOf_of_lt (hsmall n hn)]
      exact hall n hn
  · constructor
    · intro hall
      exact absurd (hall n hn) hbad
    · intro hall
      have hrange := hall n hn
      rw [toNat_entryOf_of_lt (by omega)] at hbad
      exact absurd hrange hbad

/-- The check is exact unless every entry is in range and some number is too large for an
entry. -/
theorem widths_validated_iff (cores : U32) {ns : List Numeral} (hne : 1 ≤ ns.length)
    (hle : ns.length ≤ maxPoints) :
    WidthsValidated cores ns ↔ (∀ n ∈ ns, n.value < 2 ^ 32) ∨
      ∃ n ∈ ns, ¬(1 ≤ min n.value (2 ^ 64 - 1) % 2 ^ 32 ∧
        min n.value (2 ^ 64 - 1) % 2 ^ 32 ≤ 32) := by
  have hok := mainOptions_bits_ok cores hne hle
  simp only [← toNat_entryOf]
  constructor
  · intro h
    by_contra hneither
    push Not at hneither
    obtain ⟨⟨n, hn, hlarge⟩, hall⟩ := hneither
    have hrange := h.accepted.mp (hok.mpr hall) n hn
    omega
  · intro h
    have haccepted := hok.trans (entries_inRange_iff h)
    refine ⟨toList_parseList ns hle .empty, haccepted, ?_⟩
    intro o ho
    have hwidths := haccepted.mp ⟨o, ho⟩
    rw [bits_of_mainOptions hne hle ho, List.map_map]
    apply List.map_congr_left
    intro n hn
    have hwidth := hwidths n hn
    exact toNat_entryOf_of_lt (by omega)

/-- A list whose numbers are widths. -/
theorem widths_validated_default : WidthsValidated 1#32 [.ofNat 16, .ofNat 18, .ofNat 20] := by
  apply (widths_validated_iff 1#32 _ _).mpr
  · simp
  · decide
  · decide

/-- The width `2 ^ 32 + 1` is taken for 1. -/
theorem wide_width_accepted :
    (∃ o, mainOptions 1#32 ["--bits", "4294967297"] = .ok o ∧ o.bits.toList = [1#32]) ∧
      ¬WidthsValidated 1#32 [.ofNat 4294967297] := by
  have hentry : entryOf (.ofNat 4294967297) = 1#32 := by
    apply BitVec.eq_of_toNat_eq
    rw [toNat_entryOf, Numeral.value_ofNat]
    rfl
  have htext : String.ofList (commaSeparated [.ofNat 4294967297]) = "4294967297" := by decide
  have hlength : 1 ≤ [Numeral.ofNat 4294967297].length ∧
      [Numeral.ofNat 4294967297].length ≤ maxPoints := by decide
  obtain ⟨o, ho⟩ := (mainOptions_bits_ok 1#32 hlength.1 hlength.2).mpr (by simp [hentry])
  have hbits := bits_of_mainOptions hlength.1 hlength.2 ho
  refine ⟨⟨o, ?_, ?_⟩, ?_⟩
  · rw [← htext]
    exact ho
  · rw [hbits, List.map_singleton, hentry]
  · intro h
    have hrange := h.accepted.mp ⟨o, ho⟩ _ List.mem_cons_self
    rw [Numeral.value_ofNat] at hrange
    omega

end BenchmarkOptions
