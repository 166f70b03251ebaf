import DesModular.BenchmarkMeasure
import DesModular.DesParallelResults

/-!
# The verdict of the benchmark

Whether the benchmark ends with success depends on the schedules of its searches. The
sweeps are complete exactly if no candidate produces the ciphertext that none should; and
the recoveries return the planted key if it is the first key that fits and the searches
cannot find a later one before it.
-/
namespace BenchmarkVerdict

open MachineWord DesBlock Keyspace DesBruteForce DesParallel DesParallelResults
open Benchmark BenchmarkSettings BenchmarkMeasure

/-- Every call of the search returns what some run of it returns. -/
def Possible (search : Call → Job → AttackResult) : Prop :=
  ∀ call job, Returns job (search call job)

theorem exists_possible : ∃ search, Possible search :=
  ⟨fun _ job => (exists_returns job).choose, fun _ job => (exists_returns job).choose_spec⟩

/-- One call may return any result that its job can have. -/
theorem Possible.update {search : Call → Job → AttackResult} (h : Possible search) (call : Call)
    {job : Job} {r : AttackResult} (hr : Returns job r) :
    ∃ search', Possible search' ∧ search' call job = r := by
  classical
  refine ⟨fun call' job' => if call' = call ∧ job' = job then r else search call' job', ?_, ?_⟩
  · intro call' job'
    dsimp only
    split
    next hsame =>
      rw [hsame.2]
      exact hr
    next => exact h call' job'
  · simp

/-! ## Calls -/

variable (space : DesKeyspace)

/-- The search of a sweep. -/
def sweepJob (workers : U32) : Job :=
  ⟨space, knownPlaintext, unmatchableCiphertext space knownPlaintext, 0#64,
    desKeyspaceSize space, workers⟩

/-- The search of a recovery. -/
def recoveryJob (target : U64) (workers : U32) : Job :=
  ⟨space, knownPlaintext, desEncryptBlock knownPlaintext (desKeyspaceKey space target), 0#64,
    desKeyspaceSize space, workers⟩

/-- No candidate produces the ciphertext of the sweep. -/
def Absent : Prop :=
  ∀ c, c < desKeyspaceSize space →
    desEncryptBlock knownPlaintext (desKeyspaceKey space c) ≠
      unmatchableCiphertext space knownPlaintext

/-- No candidate below the target produces its ciphertext. -/
def FirstKey (target : U64) : Prop :=
  ∀ c, c < target →
    desEncryptBlock knownPlaintext (desKeyspaceKey space c) ≠
      desEncryptBlock knownPlaintext (desKeyspaceKey space target)

variable {space}

theorem unmatched_sweepJob (workers : U32) : Unmatched (sweepJob space workers) ↔ Absent space :=
  ⟨fun h c hlt => h c (Nat.zero_le _) hlt, fun h c _ hlt => h c hlt⟩

theorem total_eq (space : DesKeyspace) (job : Job) (hstart : job.start = 0#64)
    (hfinish : job.finish = desKeyspaceSize space) : job.total = 2 ^ space.unknownBits := by
  rw [Job.total, hstart, hfinish, toNat_desKeyspaceSize]
  rfl

theorem lowest_recoveryJob {target : U64} (htarget : target < desKeyspaceSize space)
    (workers : U32) : Lowest (recoveryJob space target workers) target ↔ FirstKey space target :=
  ⟨fun h c hlt => h.first c (Nat.zero_le _) hlt,
    fun h => ⟨Nat.zero_le _, htarget, rfl, fun c _ hlt => h c hlt⟩⟩

theorem sequential_of_one_worker (job : Job) (h : job.workers = 1#32) : job.Sequential := by
  refine .inl ?_
  rw [Job.workerCount, h]
  decide

/-- The planted candidate is always in the space. -/
theorem targetOf_lt (space : DesKeyspace) (target : U64) :
    targetOf target (desKeyspaceSize space) < desKeyspaceSize space := by
  have hsize := toNat_desKeyspaceSize space
  have hpos := Nat.two_pow_pos space.unknownBits
  have hle := two_pow_unknownBits_le space
  have hone : (1#64 : U64).toNat = 1 := rfl
  rw [targetOf]
  split
  next =>
    rw [BitVec.lt_def, BitVec.toNat_sub_of_le (by rw [BitVec.le_def]; omega)]
    omega
  next h => exact BitVec.not_le.mp fun hge => h (.inr hge)

/-! ## Rows -/

/-- A sweep is complete if every iteration was. -/
theorem runSweep_complete (search : Nat → Job → AttackResult) (space : DesKeyspace)
    (plaintext ciphertext size : U64) (workers : U32) (repeats : Nat) :
    (runSweep search space plaintext ciphertext size workers repeats).complete = true ↔
      ∀ run < repeats,
        (search run ⟨space, plaintext, ciphertext, 0#64, size, workers⟩).found = false ∧
        (search run ⟨space, plaintext, ciphertext, 0#64, size, workers⟩).candidatesTested =
          size := by
  induction repeats with
  | zero => simp [runSweep]
  | succ repeats ih =>
    have hstep : runSweep search space plaintext ciphertext size workers (repeats + 1) =
        (runSweep search space plaintext ciphertext size workers repeats).record size
          (search repeats ⟨space, plaintext, ciphertext, 0#64, size, workers⟩) :=
      Nat.fold_succ _ _ _
    rw [hstep, Sweep.record]
    simp only [Bool.and_eq_true, ih, Bool.not_eq_true', Bool.or_eq_false_iff, bne_eq_false_iff_eq]
    constructor
    · rintro ⟨hall, hlast⟩ run hlt
      obtain hlt | rfl := Nat.lt_succ_iff_lt_or_eq.mp hlt
      · exact hall run hlt
      · exact hlast
    · intro hall
      exact ⟨fun run hlt => hall run (Nat.lt_succ_of_lt hlt), hall repeats (Nat.lt_succ_self _)⟩

/-- Whatever the schedules, a sweep is complete exactly if its ciphertext is absent. -/
theorem sweepRow_good {search : Nat → Nat → Job → AttackResult}
    (h : ∀ w run job, Returns job (search w run job)) {repeats : Nat} (hrepeats : repeats ≠ 0)
    (w : Nat) (workers : U32) :
    (sweepRow search space repeats w workers).2 = true ↔ Absent space := by
  rw [sweepRow, runSweep_complete, ← unmatched_sweepJob workers]
  constructor
  · intro hall
    exact (h w 0 (sweepJob space workers)).found_false_iff.mp
      (hall 0 (Nat.pos_of_ne_zero hrepeats)).1
  · intro hnone run _
    refine ⟨(h w run (sweepJob space workers)).found_false_iff.mpr hnone, ?_⟩
    apply BitVec.eq_of_toNat_eq
    have htested := (h w run (sweepJob space workers)).tested_all hnone
    rw [total_eq space _ rfl rfl] at htested
    rw [toNat_desKeyspaceSize]
    exact htested

theorem recoveryRow_good (search : Nat → Job → AttackResult) (target : U64) (w : Nat)
    (workers : U32) : (recoveryRow search space target w workers).2 = true ↔
      (search w (recoveryJob space target workers)).found = true ∧
      (search w (recoveryJob space target workers)).candidate = target := by
  simp only [recoveryRow, runRecovery, Bool.and_eq_true, beq_iff_eq]
  rfl

/-! ## Failures -/

theorem print_failures (report : Report) (line : Line) (good : Bool) :
    (report.print line good).failures = 0 ↔ report.failures = 0 ∧ good = true := by
  cases good <;> simp [Report.print]

/-- A loop adds no failure if all its rows are good. -/
theorem rowLoop_failures (row : Nat → U32 → Line × Bool) (w : Nat) (list : List U32)
    (report : Report) : (rowLoop row w list report).failures = 0 ↔
      report.failures = 0 ∧ ∀ i workers, list[i]? = some workers →
        (row (w + i) workers).2 = true := by
  induction list generalizing w report with
  | nil => simp [rowLoop]
  | cons workers rest ih =>
    rw [rowLoop, ih, print_failures, and_assoc]
    apply and_congr_right
    intro _
    constructor
    · rintro ⟨hfirst, hrest⟩ i workers' hget
      cases i with
      | zero =>
        obtain rfl := Option.some.inj hget
        exact hfirst
      | succ i =>
        rw [← Nat.succ_add_eq_add_succ]
        exact hrest i workers' hget
    · intro hall
      refine ⟨hall 0 workers rfl, ?_⟩
      intro i workers' hget
      rw [Nat.succ_add_eq_add_succ]
      exact hall (i + 1) workers' hget

/-- All rows of one width are good. -/
def GoodWidth (o : Options) (search : Call → Job → AttackResult) (b : Nat) (bits : U32)
    (h : badWidth bits = false) : Prop :=
  ∀ w workers, o.workers.toList[w]? = some workers →
    (sweepRow (fun w run => search (.sweep b w run)) (widthSpace bits h) o.repeats.toNat w
      workers).2 = true ∧
    (recoveryRow (fun w => search (.recovery b w)) (widthSpace bits h)
      (targetOf o.target (desKeyspaceSize (widthSpace bits h))) w workers).2 = true

theorem measureWidth_failures (o : Options) (search : Call → Job → AttackResult) (b : Nat)
    (bits : U32) (h : badWidth bits = false) (report : Report) :
    (measureWidth o search b bits h report).failures = 0 ↔
      report.failures = 0 ∧ GoodWidth o search b bits h := by
  simp only [measureWidth, rowLoop_failures, print_failures, and_true, and_assoc, Nat.zero_add]
  apply and_congr_right
  intro _
  simp only [GoodWidth]
  constructor
  · rintro ⟨hsweeps, hrecoveries⟩ w workers hget
    exact ⟨hsweeps w workers hget, hrecoveries w workers hget⟩
  · intro hall
    exact ⟨fun w workers hget => (hall w workers hget).1,
      fun w workers hget => (hall w workers hget).2⟩

theorem widthLoop_failures (o : Options) (search : Call → Job → AttackResult) (b : Nat)
    (list : List U32) (h : ∀ bits ∈ list, badWidth bits = false) (report : Report) :
    (widthLoop o search b list h report).failures = 0 ↔
      report.failures = 0 ∧ ∀ i bits (hbits : badWidth bits = false), list[i]? = some bits →
        GoodWidth o search (b + i) bits hbits := by
  induction list generalizing b report with
  | nil => simp [widthLoop]
  | cons bits rest ih =>
    rw [widthLoop, ih, measureWidth_failures, and_assoc]
    apply and_congr_right
    intro _
    constructor
    · rintro ⟨hfirst, hrest⟩ i bits' hbits hget
      cases i with
      | zero =>
        obtain rfl := Option.some.inj hget
        exact hfirst
      | succ i =>
        rw [← Nat.succ_add_eq_add_succ]
        exact hrest i bits' hbits hget
    · intro hall
      refine ⟨hall 0 bits _ rfl, ?_⟩
      intro i bits' hbits hget
      rw [Nat.succ_add_eq_add_succ]
      exact hall (i + 1) bits' hbits hget

theorem measurements_failures (o : Options) (h : WellFormed o)
    (search : Call → Job → AttackResult) :
    (measurements o h search).failures = 0 ↔
      ∀ b bits (hbits : badWidth bits = false), o.bits.toList[b]? = some bits →
        GoodWidth o search b bits hbits := by
  simp only [measurements, widthLoop_failures, true_and, Nat.zero_add]

/-! ## Runs without a failure -/

/-- The space of a width and the candidate planted in it. -/
def planted (o : Options) (bits : U32) (h : badWidth bits = false) : U64 :=
  targetOf o.target (desKeyspaceSize (widthSpace bits h))

/-- A width whose ciphertexts let its rows be good. -/
def Measurable (o : Options) (bits : U32) (h : badWidth bits = false) : Prop :=
  Absent (widthSpace bits h) ∧ FirstKey (widthSpace bits h) (planted o bits h)

theorem GoodWidth.measurable {o : Options} (ho : WellFormed o) {search : Call → Job → AttackResult}
    (h : Possible search) {b : Nat} {bits : U32} {hbits : badWidth bits = false}
    (hgood : GoodWidth o search b bits hbits) : Measurable o bits hbits := by
  obtain ⟨w, hw⟩ := List.mem_iff_getElem?.mp ho.baseline
  obtain ⟨hsweep, hrecovery⟩ := hgood w 1#32 hw
  have hrepeats : o.repeats.toNat ≠ 0 := fun hzero =>
    ho.repeats_ne_zero (BitVec.eq_of_toNat_eq hzero)
  refine ⟨(sweepRow_good (fun w run => h (.sweep b w run)) hrepeats w _).mp hsweep, ?_⟩
  -- the row of one worker searches in order
  obtain ⟨hfound, hcandidate⟩ := (recoveryRow_good _ _ w _).mp hrecovery
  have hlowest := (h (.recovery b w) (recoveryJob (widthSpace bits hbits)
    (planted o bits hbits) 1#32)).lowest (sequential_of_one_worker _ rfl) hfound
  rw [planted, hcandidate] at hlowest
  exact (lowest_recoveryJob (targetOf_lt _ _) 1#32).mp hlowest

/-- The rows of a measurable width are good if each recovery returns the lowest match. -/
theorem Measurable.goodWidth {o : Options} (ho : WellFormed o)
    {search : Call → Job → AttackResult} (h : Possible search) {b : Nat} {bits : U32}
    {hbits : badWidth bits = false} (hm : Measurable o bits hbits)
    (hfirst : ∀ w workers, o.workers.toList[w]? = some workers →
      (search (.recovery b w) (recoveryJob (widthSpace bits hbits) (planted o bits hbits)
        workers)).found = true ∧
      (search (.recovery b w) (recoveryJob (widthSpace bits hbits) (planted o bits hbits)
        workers)).candidate = planted o bits hbits) :
    GoodWidth o search b bits hbits := by
  intro w workers hget
  have hrepeats : o.repeats.toNat ≠ 0 := fun hzero =>
    ho.repeats_ne_zero (BitVec.eq_of_toNat_eq hzero)
  refine ⟨(sweepRow_good (fun w run => h (.sweep b w run)) hrepeats w _).mpr hm.1, ?_⟩
  exact (recoveryRow_good _ _ w _).mpr (hfirst w workers hget)

/-- A search that returns the lowest match wherever there is one. -/
theorem exists_lowest_search : ∃ search : Call → Job → AttackResult, Possible search ∧
    ∀ call job c, Lowest job c →
      (search call job).found = true ∧ (search call job).candidate = c := by
  have hchoice : ∀ job : Job, ∃ r, Returns job r ∧
      ∀ c, Lowest job c → r.found = true ∧ r.candidate = c := by
    intro job
    by_cases hex : ∃ c, Lowest job c
    · obtain ⟨c, hc⟩ := hex
      obtain ⟨r, hr, hfound, hcandidate⟩ := hc.exists_returns
      exact ⟨r, hr, fun c' hc' => ⟨hfound, hcandidate.trans (hc.unique hc')⟩⟩
    · obtain ⟨r, hr⟩ := exists_returns job
      exact ⟨r, hr, fun c hc => absurd ⟨c, hc⟩ hex⟩
  choose result hreturns hlowest using hchoice
  exact ⟨fun _ job => result job, fun _ job => hreturns job, fun _ job => hlowest job⟩

/-- Some schedules give a run without a failure exactly if every width is measurable. -/
theorem exists_no_failure_iff (o : Options) (ho : WellFormed o) :
    (∃ search, Possible search ∧ (measurements o ho search).failures = 0) ↔
      ∀ bits (hbits : badWidth bits = false), bits ∈ o.bits.toList → Measurable o bits hbits := by
  constructor
  · rintro ⟨search, hsearch, hzero⟩ bits hbits hmem
    obtain ⟨b, hb⟩ := List.mem_iff_getElem?.mp hmem
    exact ((measurements_failures o ho search).mp hzero b bits hbits hb).measurable ho hsearch
  · intro hall
    obtain ⟨search, hsearch, hlowest⟩ := exists_lowest_search
    refine ⟨search, hsearch, (measurements_failures o ho search).mpr ?_⟩
    intro b bits hbits hget
    have hm := hall bits hbits (List.mem_of_getElem? hget)
    refine hm.goodWidth ho hsearch ?_
    intro w workers _
    exact hlowest _ _ _ ((lowest_recoveryJob (targetOf_lt _ _) workers).mpr hm.2)

/-- All schedules do if, besides, the matches of each recovery lie in one interval. -/
theorem no_failure_iff (o : Options) (ho : WellFormed o) :
    (∀ search, Possible search → (measurements o ho search).failures = 0) ↔
      ∀ bits (hbits : badWidth bits = false), bits ∈ o.bits.toList →
        Measurable o bits hbits ∧ ∀ workers ∈ o.workers.toList,
          OneInterval (recoveryJob (widthSpace bits hbits) (planted o bits hbits) workers) := by
  constructor
  · intro hall bits hbits hmem
    obtain ⟨search, hsearch⟩ := exists_possible
    have hm :=
      (exists_no_failure_iff o ho).mp ⟨search, hsearch, hall search hsearch⟩ bits hbits hmem
    refine ⟨hm, ?_⟩
    intro workers hworkers
    obtain ⟨b, hb⟩ := List.mem_iff_getElem?.mp hmem
    obtain ⟨w, hw⟩ := List.mem_iff_getElem?.mp hworkers
    by_contra hmany
    obtain ⟨r, hr, hne⟩ := exists_returns_other hmany
      ((lowest_recoveryJob (targetOf_lt _ _) workers).mpr hm.2)
    -- let the call of that row return it
    obtain ⟨search', hsearch', hsame⟩ := hsearch.update (.recovery b w) hr
    have hgood := (measurements_failures o ho search').mp (hall search' hsearch') b bits hbits hb
    have hrow := ((recoveryRow_good _ _ w _).mp (hgood w workers hw).2).2
    rw [← planted, hsame] at hrow
    exact hne hrow
  · intro hall search hsearch
    refine (measurements_failures o ho search).mpr ?_
    intro b bits hbits hget
    obtain ⟨hm, hone⟩ := hall bits hbits (List.mem_of_getElem? hget)
    refine hm.goodWidth ho hsearch ?_
    intro w workers hw
    exact Lowest.returned_of_oneInterval ((lowest_recoveryJob (targetOf_lt _ _) workers).mpr hm.2)
      (hone workers (List.mem_of_getElem? hw)) (hsearch _ _)

/-- `main` gets to its measurements. -/
structure Measures (cores : U32) (canWrite : String → Bool) (args : List String)
    (o : Options) : Prop where
  options : mainOptions cores args = .ok o
  csv : ∀ path, o.csvPath = some path → canWrite path = true

theorem main_success_iff (cores : U32) (canWrite : String → Bool)
    (search : Call → Job → AttackResult) (args : List String) :
    (main cores canWrite search args).success = true ↔
      mainOptions cores args = .error .help ∨ ∃ o, ∃ h : Measures cores canWrite args o,
        (measurements o (wellFormed_of_mainOptions h.options) search).failures = 0 := by
  rw [main]
  split
  next e he =>
    have hnone : ¬∃ o, ∃ h : Measures cores canWrite args o,
        (measurements o (wellFormed_of_mainOptions h.options) search).failures = 0 := by
      rintro ⟨o, h, -⟩
      cases he.symm.trans h.options
    simp only [hnone, or_false, he, Except.error.injEq]
    cases e <;> simp [Ending.success, Exit.success]
  next o ho =>
    simp only [ho, reduceCtorEq, false_or]
    split
    next path hpath =>
      obtain ⟨hsome, hcannot⟩ := Option.filter_eq_some_iff.mp hpath
      simp only [Ending.success, Bool.false_eq_true, false_iff]
      rintro ⟨o', h, -⟩
      obtain rfl := Except.ok.inj (ho.symm.trans h.options)
      rw [h.csv path hsome] at hcannot
      cases hcannot
    next hpath =>
      simp only [Ending.success, beq_iff_eq]
      constructor
      · intro hzero
        refine ⟨o, ⟨ho, ?_⟩, hzero⟩
        intro path hsome
        rw [hsome, Option.filter_some] at hpath
        by_contra hcannot
        simp [hcannot] at hpath
      · rintro ⟨o', h, hzero⟩
        obtain rfl := Except.ok.inj (ho.symm.trans h.options)
        exact hzero

/-- The exit status over all schedules of the searches. A run that measures can succeed
exactly if, for every width, no candidate produces the ciphertext of the sweep and the
planted key is the first that fits; and it succeeds under every schedule exactly if, besides,
for every worker count all keys that fit lie in the interval of one worker. -/
theorem exit_status (cores : U32) (canWrite : String → Bool) (args : List String) :
    ((∃ search, Possible search ∧ (main cores canWrite search args).success = true) ↔
      mainOptions cores args = .error .help ∨ ∃ o, Measures cores canWrite args o ∧
        ∀ bits (hbits : badWidth bits = false), bits ∈ o.bits.toList →
          Measurable o bits hbits) ∧
    ((∀ search, Possible search → (main cores canWrite search args).success = true) ↔
      mainOptions cores args = .error .help ∨ ∃ o, Measures cores canWrite args o ∧
        ∀ bits (hbits : badWidth bits = false), bits ∈ o.bits.toList →
          Measurable o bits hbits ∧ ∀ workers ∈ o.workers.toList,
            OneInterval (recoveryJob (widthSpace bits hbits) (planted o bits hbits) workers)) := by
  simp only [main_success_iff]
  constructor
  · constructor
    · rintro ⟨search, hsearch, hhelp | ⟨o, h, hzero⟩⟩
      · exact .inl hhelp
      · exact .inr ⟨o, h, (exists_no_failure_iff o _).mp ⟨search, hsearch, hzero⟩⟩
    · rintro (hhelp | ⟨o, h, hall⟩)
      · obtain ⟨search, hsearch⟩ := exists_possible
        exact ⟨search, hsearch, .inl hhelp⟩
      · obtain ⟨search, hsearch, hzero⟩ :=
          (exists_no_failure_iff o (wellFormed_of_mainOptions h.options)).mpr hall
        exact ⟨search, hsearch, .inr ⟨o, h, hzero⟩⟩
  · constructor
    · intro hall
      obtain ⟨search, hsearch⟩ := exists_possible
      obtain hhelp | ⟨o, h, -⟩ := hall search hsearch
      · exact .inl hhelp
      · refine .inr ⟨o, h, (no_failure_iff o (wellFormed_of_mainOptions h.options)).mp ?_⟩
        intro search' hsearch'
        obtain hhelp | ⟨o', h', hzero⟩ := hall search' hsearch'
        · cases h.options.symm.trans hhelp
        · obtain rfl := Except.ok.inj (h.options.symm.trans h'.options)
          exact hzero
    · rintro (hhelp | ⟨o, h, hall⟩) search hsearch
      · exact .inl hhelp
      · exact .inr ⟨o, h, (no_failure_iff o (wellFormed_of_mainOptions h.options)).mpr hall search
          hsearch⟩

end BenchmarkVerdict
