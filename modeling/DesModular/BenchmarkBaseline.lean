import DesModular.Benchmark

/-!
# The baseline of the sweep

Every speedup should be taken against the time of one worker. `ensure_baseline` puts a
missing 1 in front of the list, but it leaves a 1 further back where it is, and then
the rows before it have no baseline yet.
-/
namespace BenchmarkBaseline

open MachineWord Benchmark

/-! ## The list left by `ensure_baseline` -/

/-- The shifting loop moves the entries below its start up by one. -/
theorem getElem_shiftUp {i : Nat} (hi : i < maxPoints) (points : Vector U32 maxPoints) {j : Nat}
    (hj : j < maxPoints) :
    (shiftUp i hi points)[j] = if 1 ≤ j ∧ j ≤ i then points[j - 1] else points[j] := by
  induction i generalizing points with
  | zero =>
    have hnot : ¬(1 ≤ j ∧ j ≤ 0) := by omega
    rw [shiftUp, if_neg hnot]
  | succ i ih =>
    rw [shiftUp, ih]
    by_cases hlow : 1 ≤ j ∧ j ≤ i
    · have hin : 1 ≤ j ∧ j ≤ i + 1 := by omega
      rw [if_pos hlow, if_pos hin, Vector.getElem_set_ne _ _ (by omega)]
    · rw [if_neg hlow]
      by_cases htop : j = i + 1
      · subst j
        rw [Vector.getElem_set_self, if_pos (by omega)]
        rfl
      · have hout : ¬(1 ≤ j ∧ j ≤ i + 1) := by omega
        rw [if_neg hout, Vector.getElem_set_ne _ _ (by omega)]

theorem ensureBaseline_of_mem {workers : PointList} (h : 1#32 ∈ workers.toList) :
    ensureBaseline workers = workers := by
  have hany : workers.toList.any (· == 1#32) = true := by simpa using h
  rw [ensureBaseline, if_pos hany]

/-- Without a 1 the list is moved up behind one, and a full list loses its last entry. -/
theorem toList_ensureBaseline {workers : PointList} (h : 1#32 ∉ workers.toList) :
    (ensureBaseline workers).toList = 1#32 :: workers.toList.take (shortened workers) := by
  have hany : ¬workers.toList.any (· == 1#32) = true := by simpa using h
  have hlt := shortened_lt workers
  have hle : shortened workers ≤ workers.count := by
    rw [shortened]
    split <;> omega
  rw [ensureBaseline, if_neg hany]
  apply List.ext_getElem
  · simp
    omega
  intro i h1 h2
  have hi : i < shortened workers + 1 := by simpa using h1
  rw [PointList.getElem_toList _ h1 (by omega)]
  cases i with
  | zero => simp
  | succ i =>
    have hin : 1 ≤ i + 1 ∧ i + 1 ≤ shortened workers := by omega
    rw [Vector.getElem_set_ne _ _ (by omega), getElem_shiftUp _ _ (by omega), if_pos hin,
      List.getElem_cons_succ, List.getElem_take,
      PointList.getElem_toList _ (by simp; omega) (by omega)]
    rfl

/-- Every entry but 1 has a 1 somewhere before it. -/
def Preceded (list : List U32) : Prop :=
  ∀ i (h : i < list.length), list[i] ≠ 1#32 → ∃ j, ∃ (hj : j < i), list[j] = 1#32

theorem preceded_iff {list : List U32} : Preceded list ↔ list = [] ∨ list.head? = some 1#32 := by
  cases list with
  | nil => simp [Preceded]
  | cons first rest =>
    constructor
    · intro h
      by_contra hfirst
      obtain ⟨j, hj, -⟩ := h 0 (by simp) (by simpa using hfirst)
      omega
    · intro h i hi hne
      have hone : first = 1#32 := by simpa using h
      cases i with
      | zero => exact absurd hone hne
      | succ i => exact ⟨0, Nat.succ_pos i, hone⟩

/-! ## The sweep loop -/

variable {τ : Type}

/-- A row of more or fewer workers than one has a row of one worker before it, with the
time that its own speedup is taken against. -/
def MeasuredFirst (rows : List (SweepRow τ)) : Prop :=
  ∀ i (h : i < rows.length), rows[i].workers ≠ 1#32 →
    ∃ j, ∃ (hj : j < i), rows[j].workers = 1#32 ∧ rows[i].baseline = rows[j].timeAvg

theorem map_workers_sweepLoop (timeAvg : Nat → τ) (w : Nat) (list : List U32) (baseline : τ) :
    (sweepLoop timeAvg w list baseline).map SweepRow.workers = list := by
  induction list generalizing w baseline with
  | nil => rfl
  | cons workers rest ih => simp [sweepLoop, ih]

/-- Such a row's baseline is the time of an earlier row of one worker, or `start` where
there is none. -/
def BaselineFrom (start : τ) (rows : List (SweepRow τ)) : Prop :=
  ∀ i (h : i < rows.length), rows[i].workers ≠ 1#32 →
    (∃ j, ∃ (hj : j < i), rows[j].workers = 1#32 ∧ rows[i].baseline = rows[j].timeAvg) ∨
    (∀ j (hj : j < i), rows[j].workers ≠ 1#32) ∧ rows[i].baseline = start

theorem baselineFrom_sweepLoop (timeAvg : Nat → τ) (w : Nat) (list : List U32) (baseline : τ) :
    BaselineFrom baseline (sweepLoop timeAvg w list baseline) := by
  induction list generalizing w baseline with
  | nil =>
    intro i h
    exact absurd h (Nat.not_lt_zero i)
  | cons workers rest ih =>
    intro i h hne
    cases i with
    | zero =>
      right
      have hworkers : workers ≠ 1#32 := hne
      refine ⟨fun j hj => absurd hj (Nat.not_lt_zero j), ?_⟩
      simp [sweepLoop, hworkers]
    | succ i =>
      simp only [sweepLoop, List.length_cons, List.getElem_cons_succ] at h hne ⊢
      obtain ⟨j, hj, hone, hbaseline⟩ | ⟨hnone, hbaseline⟩ := ih (w + 1) _ i (by omega) hne
      · exact .inl ⟨j + 1, by omega, hone, hbaseline⟩
      · by_cases hworkers : workers = 1#32
        · left
          refine ⟨0, Nat.succ_pos i, hworkers, ?_⟩
          simpa [hworkers] using hbaseline
        · right
          refine ⟨?_, by simpa [hworkers] using hbaseline⟩
          intro j hj
          cases j with
          | zero => exact hworkers
          | succ j => exact hnone j (by omega)

/-- The rows are measured in the order of the list, so its order decides. -/
theorem measuredFirst_iff (timeAvg : Nat → τ) (list : List U32) (zero : τ) :
    MeasuredFirst (sweepLoop timeAvg 0 list zero) ↔ Preceded list := by
  have hworkers := map_workers_sweepLoop timeAvg 0 list zero
  have hbaseline := baselineFrom_sweepLoop timeAvg 0 list zero
  generalize sweepLoop timeAvg 0 list zero = rows at hworkers hbaseline ⊢
  subst hworkers
  constructor
  · intro h i hi hne
    rw [List.length_map] at hi
    rw [List.getElem_map] at hne
    obtain ⟨j, hj, hone, -⟩ := h i hi hne
    exact ⟨j, hj, by rw [List.getElem_map, hone]⟩
  · intro h i hi hne
    obtain hfound | ⟨hnone, -⟩ := hbaseline i hi hne
    · exact hfound
    · obtain ⟨j, hj, hone⟩ := h i (by simpa using hi) (by simpa using hne)
      rw [List.getElem_map] at hone
      exact absurd hone (hnone j hj)

/-! ## Speedups -/

/-- After `ensure_baseline`: a 1 before every other entry, and so, in the sweep of every
width and whatever the clock says, a measured baseline for every row that needs one. -/
structure BaselineMeasured (workers : PointList) : Prop where
  preceded : Preceded (ensureBaseline workers).toList
  measured : ∀ (τ : Type) (zero : τ) (timeAvg : Nat → Nat → τ) (o : Options),
    o.workers = ensureBaseline workers → ∀ sweep ∈ sweeps zero timeAvg o, MeasuredFirst sweep.2

/-- The baseline is there when the list of worker counts has no 1 or begins with it. -/
theorem baseline_measured_iff (workers : PointList) :
    BaselineMeasured workers ↔
      1#32 ∉ workers.toList ∨ workers.toList.head? = some 1#32 := by
  have hpreceded : Preceded (ensureBaseline workers).toList ↔
      1#32 ∉ workers.toList ∨ workers.toList.head? = some 1#32 := by
    rw [preceded_iff]
    by_cases h : 1#32 ∈ workers.toList
    · rw [ensureBaseline_of_mem h]
      have hne : workers.toList ≠ [] := List.ne_nil_of_mem h
      simp [h, hne]
    · simp [toList_ensureBaseline h, h]
  constructor
  · intro h
    exact hpreceded.mp h.preceded
  · intro h
    have hlist := hpreceded.mpr h
    refine ⟨hlist, ?_⟩
    intro τ zero timeAvg o ho sweep hsweep
    obtain ⟨b, hb, rfl⟩ := List.mem_mapIdx.mp hsweep
    rw [measuredFirst_iff, ho]
    exact hlist

/-- `--workers 2,1`: the row of two workers is taken against the 0 that the loop began
with. -/
theorem two_then_one_unmeasured :
    let workers := parseList "2,1".toList .empty
    (ensureBaseline workers).toList = [2#32, 1#32] ∧
      sweepLoop (fun w => w + 5) 0 (ensureBaseline workers).toList 0 =
        [⟨2#32, 5, 0⟩, ⟨1#32, 6, 6⟩] ∧
      ¬BaselineMeasured workers := by
  intro workers
  have hlist : (ensureBaseline workers).toList = [2#32, 1#32] := by decide
  refine ⟨hlist, ?_, ?_⟩
  · rw [hlist]
    decide
  · intro h
    have hpreceded := h.preceded
    rw [hlist, preceded_iff] at hpreceded
    simp at hpreceded

end BenchmarkBaseline
