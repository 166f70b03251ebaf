import DesModular.Keyspace
import DesModular.BoundedLoop

/-!
# Key search on one thread

`search_range` and `des_brute_force` of `des_brute_force.c`. The loop of
`search_range` runs in small steps, so that several workers can be interleaved;
a step reads or writes the shared stop flag at most once.
-/
namespace DesBruteForce

open MachineWord BoundedLoop DesBlock Keyspace

structure AttackResult where
  found : Bool
  candidate : U64
  key : U64
  candidatesTested : U64
  deriving DecidableEq, Repr

def noResult : AttackResult := ⟨false, 0#64, 0#64, 0#64⟩

/-- The range is `start` to `finish`, the field `end`. `shared` says that `stop` points to
the flag and is not `NULL`. -/
structure WorkerArg where
  space : DesKeyspace
  plaintext : U64
  ciphertext : U64
  start : U64
  finish : U64
  shared : Bool

/-- A candidate whose key takes the plaintext to the ciphertext. -/
def WorkerArg.Matches (arg : WorkerArg) (candidate : U64) : Prop :=
  desEncryptBlock arg.plaintext (desKeyspaceKey arg.space candidate) = arg.ciphertext

instance (arg : WorkerArg) (candidate : U64) : Decidable (arg.Matches candidate) :=
  inferInstanceAs (Decidable (_ = _))

/-- Where a search stands: before the loop condition and the poll, before testing a
candidate, before raising the flag, or past the loop. -/
inductive SearchPc where
  | head | test | publish | done
  deriving DecidableEq, Repr

structure SearchState where
  pc : SearchPc
  candidate : U64
  result : AttackResult
  deriving DecidableEq, Repr

def initialSearch (arg : WorkerArg) : SearchState := ⟨.head, arg.start, noResult⟩

def stopCheckInterval : U64 := 4096#64

/-- One step of `search_range`; `seen` is what a read of the flag returns in it. -/
def searchStep (arg : WorkerArg) (seen : Bool) (s : SearchState) : SearchState :=
  match s.pc with
  | .head =>
    if s.candidate < arg.finish then
      if arg.shared && (s.result.candidatesTested % stopCheckInterval == 0#64) && seen then
        { s with pc := .done }
      else { s with pc := .test }
    else { s with pc := .done }
  | .test =>
    let key := desKeyspaceKey arg.space s.candidate
    let tested := s.result.candidatesTested + 1#64
    if desEncryptBlock arg.plaintext key = arg.ciphertext then
      { s with
        pc := if arg.shared then .publish else .done
        result := ⟨true, s.candidate, key, tested⟩ }
    else ⟨.head, s.candidate + 1#64, { s.result with candidatesTested := tested }⟩
  | .publish => { s with pc := .done }
  | .done => s

/-- An upper bound on the steps that are left. -/
def searchRank (arg : WorkerArg) (s : SearchState) : Nat :=
  match s.pc with
  | .head => 2 * (arg.finish.toNat - s.candidate.toNat) + 3
  | .test => 2 * (arg.finish.toNat - s.candidate.toNat) + 2
  | .publish => 1
  | .done => 0

/-- The whole loop when the flag is never read. -/
def searchRange (arg : WorkerArg) : Option AttackResult :=
  (whileLoop (fun s => s.pc != .done) (fun s => some (searchStep arg false s))
    (searchRank arg (initialSearch arg)) (initialSearch arg)).map SearchState.result

def desBruteForce (space : DesKeyspace) (plaintext ciphertext start finish : U64) :
    Option AttackResult :=
  searchRange ⟨space, plaintext, ciphertext, start, finish, false⟩

/-! ## What a search knows -/

/-- Nothing was found below the current candidate, and all of it was tested. -/
structure Swept (arg : WorkerArg) (s : SearchState) : Prop where
  notFound : s.result.found = false
  unset : s.result.candidate = 0#64 ∧ s.result.key = 0#64
  lower : arg.start ≤ s.candidate
  upper : s.candidate = arg.start ∨ s.candidate ≤ arg.finish
  tested : arg.start.toNat + s.result.candidatesTested.toNat = s.candidate.toNat
  noMatch : ∀ c, arg.start ≤ c → c < s.candidate → ¬arg.Matches c

/-- The current candidate is the first match of the range. -/
structure Hit (arg : WorkerArg) (s : SearchState) : Prop where
  found : s.result.found = true
  candidate : s.result.candidate = s.candidate
  key : s.result.key = desKeyspaceKey arg.space s.candidate
  lower : arg.start ≤ s.candidate
  upper : s.candidate < arg.finish
  tested : arg.start.toNat + s.result.candidatesTested.toNat = s.candidate.toNat + 1
  isMatch : arg.Matches s.candidate
  first : ∀ c, arg.start ≤ c → c < s.candidate → ¬arg.Matches c

/-- The invariant of a search, when the flag is `raised` or not. A search that ends
without a match before its end has seen the flag raised. -/
def SearchInv (arg : WorkerArg) (raised : Bool) (s : SearchState) : Prop :=
  match s.pc with
  | .head => Swept arg s
  | .test => Swept arg s ∧ s.candidate < arg.finish
  | .publish => Hit arg s ∧ arg.shared = true
  | .done => Hit arg s ∧ (arg.shared = true → raised = true) ∨
      Swept arg s ∧ (s.candidate < arg.finish → arg.shared = true ∧ raised = true)

theorem SearchInv.mono {arg : WorkerArg} {raised raised' : Bool} {s : SearchState}
    (h : SearchInv arg raised s) (hr : raised = true → raised' = true) :
    SearchInv arg raised' s := by
  obtain ⟨pc, candidate, result⟩ := s
  cases pc with
  | head => exact h
  | test => exact h
  | publish => exact h
  | done =>
    obtain ⟨hhit, hraised⟩ | ⟨hswept, hraised⟩ := h
    · exact .inl ⟨hhit, fun hs => hr (hraised hs)⟩
    · exact .inr ⟨hswept, fun hc => ⟨(hraised hc).1, hr (hraised hc).2⟩⟩

theorem Swept.not_found {arg : WorkerArg} {s : SearchState} (h : Swept arg s) :
    s.result.found ≠ true := by
  rw [h.notFound]
  exact Bool.false_ne_true

/-- A match is recorded only by a search that is about to publish it or has left its loop. -/
theorem SearchInv.found_pc {arg : WorkerArg} {raised : Bool} {s : SearchState}
    (h : SearchInv arg raised s) (hf : s.result.found = true) : s.pc = .publish ∨ s.pc = .done := by
  rw [SearchInv] at h
  cases hpc : s.pc with
  | head =>
    rw [hpc] at h
    exact absurd hf h.not_found
  | test =>
    rw [hpc] at h
    exact absurd hf h.1.not_found
  | publish => exact .inl rfl
  | done => exact .inr rfl

theorem initialSearch_inv (arg : WorkerArg) (raised : Bool) :
    SearchInv arg raised (initialSearch arg) where
  notFound := rfl
  unset := ⟨rfl, rfl⟩
  lower := BitVec.le_refl _
  upper := .inl rfl
  tested := Nat.add_zero _
  noMatch _ hl hu := absurd hl (BitVec.not_le.mpr hu)

/-- The counter does not wrap: it stays below the length of the range. -/
theorem toNat_tested_succ {start tested candidate : U64}
    (h : start.toNat + tested.toNat = candidate.toNat) {finish : U64} (hlt : candidate < finish) :
    start.toNat + (tested + 1#64).toNat = candidate.toNat + 1 := by
  have hfinish := finish.isLt
  have hone : (1#64 : U64).toNat = 1 := rfl
  rw [BitVec.lt_def] at hlt
  rw [BitVec.toNat_add, hone, Nat.mod_eq_of_lt (by omega)]
  omega

theorem toNat_succ_of_lt {candidate finish : U64} (h : candidate < finish) :
    (candidate + 1#64).toNat = candidate.toNat + 1 := by
  have hfinish := finish.isLt
  have hone : (1#64 : U64).toNat = 1 := rfl
  rw [BitVec.lt_def] at h
  rw [BitVec.toNat_add, hone, Nat.mod_eq_of_lt (by omega)]

/-- A tested candidate that matches is the first of the range. -/
theorem Swept.hit {arg : WorkerArg} {s : SearchState} (h : Swept arg s)
    (hlt : s.candidate < arg.finish) (hmatch : arg.Matches s.candidate) (pc : SearchPc) :
    Hit arg ⟨pc, s.candidate, ⟨true, s.candidate, desKeyspaceKey arg.space s.candidate,
      s.result.candidatesTested + 1#64⟩⟩ where
  found := rfl
  candidate := rfl
  key := rfl
  lower := h.lower
  upper := hlt
  tested := toNat_tested_succ h.tested hlt
  isMatch := hmatch
  first := h.noMatch

/-- One that does not match is passed over. -/
theorem Swept.next {arg : WorkerArg} {s : SearchState} (h : Swept arg s)
    (hlt : s.candidate < arg.finish) (hmatch : ¬arg.Matches s.candidate) :
    Swept arg ⟨.head, s.candidate + 1#64,
      { s.result with candidatesTested := s.result.candidatesTested + 1#64 }⟩ where
  notFound := h.notFound
  unset := h.unset
  lower := by
    have hlower := h.lower
    rw [BitVec.le_def] at hlower ⊢
    rw [toNat_succ_of_lt hlt]
    exact Nat.le_succ_of_le hlower
  upper := by
    refine .inr ?_
    rw [BitVec.le_def, toNat_succ_of_lt hlt]
    exact hlt
  tested := by
    rw [toNat_succ_of_lt hlt]
    exact toNat_tested_succ h.tested hlt
  noMatch c hl hu := by
    rw [BitVec.lt_def, toNat_succ_of_lt hlt] at hu
    by_cases hc : c = s.candidate
    · rw [hc]
      exact hmatch
    · have hne : c.toNat ≠ s.candidate.toNat := fun he => hc (BitVec.eq_of_toNat_eq he)
      exact h.noMatch c hl (BitVec.lt_def.mpr (by omega))

/-- What is known of the candidates does not depend on where the search stands. -/
theorem Swept.withPc {arg : WorkerArg} {s : SearchState} (h : Swept arg s) (pc : SearchPc) :
    Swept arg { s with pc := pc } := ⟨h.notFound, h.unset, h.lower, h.upper, h.tested, h.noMatch⟩

theorem Hit.withPc {arg : WorkerArg} {s : SearchState} (h : Hit arg s) (pc : SearchPc) :
    Hit arg { s with pc := pc } :=
  ⟨h.found, h.candidate, h.key, h.lower, h.upper, h.tested, h.isMatch, h.first⟩

/-- Every step keeps the invariant, if the flag is seen raised only when it is. -/
theorem searchStep_inv {arg : WorkerArg} {raised seen : Bool} {s : SearchState}
    (h : SearchInv arg raised s) (hseen : seen = true → raised = true) :
    SearchInv arg (raised || s.pc == .publish) (searchStep arg seen s) := by
  obtain ⟨pc, candidate, result⟩ := s
  cases pc with
  | head =>
    have hswept : Swept arg ⟨.head, candidate, result⟩ := h
    simp only [searchStep]
    split
    next hlt =>
      split
      next hpoll =>
        -- the poll saw the flag
        simp only [Bool.and_eq_true] at hpoll
        exact .inr ⟨hswept.withPc .done, fun _ =>
          ⟨hpoll.1.1, Bool.or_eq_true_iff.mpr (.inl (hseen hpoll.2))⟩⟩
      next => exact ⟨hswept.withPc .test, hlt⟩
    next hge => exact .inr ⟨hswept.withPc .done, fun hlt => absurd hlt hge⟩
  | test =>
    obtain ⟨hswept, hlt⟩ := h
    simp only [searchStep]
    split
    next hmatch =>
      cases hshared : arg.shared with
      | true => exact ⟨hswept.hit hlt hmatch .publish, hshared⟩
      | false => exact .inl ⟨hswept.hit hlt hmatch .done, fun hs => by rw [hshared] at hs; cases hs⟩
    next hmatch => exact hswept.next hlt hmatch
  | publish => exact .inl ⟨h.1.withPc .done, fun _ => Bool.or_true raised⟩
  | done => exact h.mono fun hr => by rw [hr]; rfl

/-- Every step of a search that is not done lowers the rank. -/
theorem searchStep_rank {arg : WorkerArg} {raised : Bool} (seen : Bool) {s : SearchState}
    (h : SearchInv arg raised s) (hbusy : s.pc ≠ .done) :
    searchRank arg (searchStep arg seen s) < searchRank arg s := by
  obtain ⟨pc, candidate, result⟩ := s
  cases pc with
  | head =>
    simp only [searchStep]
    split
    next =>
      split
      next => exact Nat.succ_pos _
      next => exact Nat.lt_succ_self _
    next => exact Nat.succ_pos _
  | test =>
    have hlt : candidate < arg.finish := h.2
    have hsucc := toNat_succ_of_lt hlt
    rw [BitVec.lt_def] at hlt
    simp only [searchStep]
    split
    next => cases arg.shared <;> simp [searchRank]
    next =>
      simp only [searchRank]
      omega
  | publish => exact Nat.one_pos
  | done => exact absurd rfl hbusy

/-! ## The search on one thread -/

/-- What a finished search returns: whether the range has a match, and a match. -/
structure Solves (arg : WorkerArg) (r : AttackResult) : Prop where
  found_iff : r.found = true ↔ ∃ c, arg.start ≤ c ∧ c < arg.finish ∧ arg.Matches c
  lower : r.found = true → arg.start ≤ r.candidate
  upper : r.found = true → r.candidate < arg.finish
  key : r.found = true → r.key = desKeyspaceKey arg.space r.candidate
  recovers : r.found = true → desEncryptBlock arg.plaintext r.key = arg.ciphertext

theorem Solves.isMatch {arg : WorkerArg} {r : AttackResult} (h : Solves arg r)
    (hf : r.found = true) : arg.Matches r.candidate := by
  rw [WorkerArg.Matches, ← h.key hf]
  exact h.recovers hf

theorem Hit.solves {arg : WorkerArg} {s : SearchState} (h : Hit arg s) : Solves arg s.result where
  found_iff := ⟨fun _ => ⟨s.candidate, h.lower, h.upper, h.isMatch⟩, fun _ => h.found⟩
  lower _ := by
    rw [h.candidate]
    exact h.lower
  upper _ := by
    rw [h.candidate]
    exact h.upper
  key _ := by rw [h.key, h.candidate]
  recovers _ := by
    rw [h.key]
    exact h.isMatch

theorem Swept.solves {arg : WorkerArg} {s : SearchState} (h : Swept arg s)
    (hend : ¬s.candidate < arg.finish) : Solves arg s.result := by
  have hnot := h.not_found
  refine ⟨⟨fun hf => absurd hf hnot, ?_⟩, fun hf => absurd hf hnot, fun hf => absurd hf hnot,
    fun hf => absurd hf hnot, fun hf => absurd hf hnot⟩
  rintro ⟨c, hl, hu, hmatch⟩
  have hlt : c < s.candidate := Nat.lt_of_lt_of_le hu (BitVec.not_lt.mp hend)
  exact absurd hmatch (h.noMatch c hl hlt)

/-- A search without a flag never sees it raised. -/
theorem searchStep_unshared_inv {arg : WorkerArg} (hs : arg.shared = false) {s : SearchState}
    (h : SearchInv arg false s) : SearchInv arg false (searchStep arg false s) := by
  refine (searchStep_inv h id).mono fun hr => ?_
  -- only a search with a flag publishes
  obtain ⟨pc, candidate, result⟩ := s
  cases pc with
  | publish => exact absurd (hs.symm.trans h.2) Bool.false_ne_true
  | head => exact hr
  | test => exact hr
  | done => exact hr

/-- A search that reads no flag ends at its first match or at the end of its range. -/
theorem searchRange_ends (arg : WorkerArg) (hs : arg.shared = false) :
    ∃ s, searchRange arg = some s.result ∧
      (Hit arg s ∨ Swept arg s ∧ ¬s.candidate < arg.finish) := by
  have hbody : ∀ s, SearchInv arg false s → (s.pc != .done) = true →
      ∃ t, some (searchStep arg false s) = some t ∧ SearchInv arg false t ∧
        searchRank arg t < searchRank arg s := by
    intro s hinv hbusy
    have hne : s.pc ≠ .done := bne_iff_ne.mp hbusy
    exact ⟨_, rfl, searchStep_unshared_inv hs hinv, searchStep_rank false hinv hne⟩
  obtain ⟨s, hloop, hinv, hdone⟩ :=
    whileLoop_terminates hbody (initialSearch_inv arg false) (Nat.le_refl _)
  have hpc : s.pc = .done := by
    simpa using hdone
  refine ⟨s, by rw [searchRange, hloop]; rfl, ?_⟩
  rw [SearchInv, hpc] at hinv
  obtain ⟨hhit, -⟩ | ⟨hswept, hraised⟩ := hinv
  · exact .inl hhit
  · exact .inr ⟨hswept, fun hlt => absurd (hs.symm.trans (hraised hlt).1) Bool.false_ne_true⟩

theorem desBruteForce_solves (space : DesKeyspace) (plaintext ciphertext start finish : U64) :
    ∃ r, desBruteForce space plaintext ciphertext start finish = some r ∧
      Solves ⟨space, plaintext, ciphertext, start, finish, false⟩ r := by
  obtain ⟨s, hs, hhit | ⟨hswept, hend⟩⟩ := searchRange_ends
    ⟨space, plaintext, ciphertext, start, finish, false⟩ rfl
  · exact ⟨s.result, hs, hhit.solves⟩
  · exact ⟨s.result, hs, hswept.solves hend⟩

/-- The sequential search returns the first match of its range. -/
theorem desBruteForce_first {space : DesKeyspace} {plaintext ciphertext start finish c : U64}
    (hl : start ≤ c) (hu : c < finish)
    (hmatch : desEncryptBlock plaintext (desKeyspaceKey space c) = ciphertext) :
    ∃ r, desBruteForce space plaintext ciphertext start finish = some r ∧ r.found = true ∧
      r.candidate ≤ c ∧ r.key = desKeyspaceKey space r.candidate ∧
      desEncryptBlock plaintext r.key = ciphertext := by
  obtain ⟨s, hs, hhit | ⟨hswept, hend⟩⟩ := searchRange_ends
    ⟨space, plaintext, ciphertext, start, finish, false⟩ rfl
  · have hsolves := hhit.solves
    refine ⟨s.result, hs, hhit.found, ?_, hsolves.key hhit.found, hsolves.recovers hhit.found⟩
    rw [hhit.candidate]
    exact BitVec.not_lt.mp fun hlt => hhit.first c hl hlt hmatch
  · have hlt : c < s.candidate := Nat.lt_of_lt_of_le hu (BitVec.not_lt.mp hend)
    exact absurd hmatch (hswept.noMatch c hl hlt)

/-! ## Every range, to its ends -/

/-- The states of the loop in which it takes a step. -/
def searchStates (arg : WorkerArg) : List SearchState :=
  iterations (fun s => s.pc != .done) (fun s => some (searchStep arg false s))
    (searchRank arg (initialSearch arg)) (initialSearch arg)

theorem searchStates_inv (arg : WorkerArg) (hs : arg.shared = false) :
    ∀ s ∈ searchStates arg, SearchInv arg false s := by
  intro s hmem
  refine (iterations_inv ?_ (initialSearch_inv arg false) _ s hmem).1
  intro s t hinv _ ht
  obtain rfl := Option.some.inj ht
  exact searchStep_unshared_inv hs hinv

/-- A candidate under test is below the end, so that neither counter wraps past it. -/
theorem searchStates_no_wrap (arg : WorkerArg) (hs : arg.shared = false) :
    ∀ s ∈ searchStates arg, s.pc = .test →
      s.candidate.toNat + 1 < 2 ^ 64 ∧ s.result.candidatesTested.toNat + 1 < 2 ^ 64 := by
  intro s hmem hpc
  have hinv := searchStates_inv arg hs s hmem
  rw [SearchInv, hpc] at hinv
  obtain ⟨hswept, hlt⟩ := hinv
  have htested := hswept.tested
  have hfinish := arg.finish.isLt
  rw [BitVec.lt_def] at hlt
  omega

/-- The number of candidates of a range that was swept to its end. -/
theorem Swept.tested_all {arg : WorkerArg} {s : SearchState} (h : Swept arg s)
    (hend : ¬s.candidate < arg.finish) :
    s.result.candidatesTested.toNat = arg.finish.toNat - arg.start.toNat := by
  have htested := h.tested
  rw [BitVec.lt_def] at hend
  obtain hstart | hupper := h.upper
  · have hsame := congrArg BitVec.toNat hstart
    omega
  · rw [BitVec.le_def] at hupper
    omega

/-- `des_brute_force` on every range, an empty one and one that ends at the top of the
word included: it ends, no counter wraps, and the result is the lowest match with the
count of candidates up to it, or zeros with the length of the range. -/
theorem desBruteForce_spec (space : DesKeyspace) (plaintext ciphertext start finish : U64) :
    let arg : WorkerArg := ⟨space, plaintext, ciphertext, start, finish, false⟩
    (∀ s ∈ searchStates arg, s.pc = .test →
      s.candidate.toNat + 1 < 2 ^ 64 ∧ s.result.candidatesTested.toNat + 1 < 2 ^ 64) ∧
    ∃ r, desBruteForce space plaintext ciphertext start finish = some r ∧
      ((∃ c, start ≤ c ∧ c < finish ∧ arg.Matches c) →
        r.found = true ∧ start ≤ r.candidate ∧ r.candidate < finish ∧ arg.Matches r.candidate ∧
        (∀ c, start ≤ c → c < finish → arg.Matches c → r.candidate ≤ c) ∧
        r.key = desKeyspaceKey space r.candidate ∧
        r.candidatesTested.toNat = r.candidate.toNat - start.toNat + 1) ∧
      ((¬∃ c, start ≤ c ∧ c < finish ∧ arg.Matches c) →
        r.found = false ∧ r.candidate = 0#64 ∧ r.key = 0#64 ∧
        r.candidatesTested.toNat = finish.toNat - start.toNat) := by
  intro arg
  refine ⟨searchStates_no_wrap arg rfl, ?_⟩
  obtain ⟨s, hs, hhit | ⟨hswept, hend⟩⟩ := searchRange_ends arg rfl
  · refine ⟨s.result, hs, fun _ => ?_, ?_⟩
    · have htested := hhit.tested
      have hlower := BitVec.le_def.mp hhit.lower
      rw [hhit.candidate]
      refine ⟨hhit.found, hhit.lower, hhit.upper, hhit.isMatch, ?_, hhit.key, ?_⟩
      · intro c hl _ hmatch
        exact BitVec.not_lt.mp fun hlt => hhit.first c hl hlt hmatch
      · have hstart : arg.start = start := rfl
        rw [hstart] at htested hlower
        omega
    · intro hnone
      exact absurd ⟨s.candidate, hhit.lower, hhit.upper, hhit.isMatch⟩ hnone
  · refine ⟨s.result, hs, ?_, fun _ => ⟨hswept.notFound, hswept.unset.1, hswept.unset.2,
      hswept.tested_all hend⟩⟩
    intro hsome
    exact absurd ((hswept.solves hend).found_iff.mpr hsome) hswept.not_found

/-- A range wider than its key space of one unknown bit, and an empty range at the top of
the word. -/
theorem desBruteForce_spec_ranges :
    let space := keyspaceWith 1 ⟨Nat.le_refl 1, Nat.le_add_left 1 31⟩ 0#64
    let ciphertext := desEncryptBlock 0#64 (desKeyspaceKey space 3#64)
    (∃ r, desBruteForce space 0#64 ciphertext 0#64 4#64 = some r ∧ r.found = true) ∧
      ∃ r, desBruteForce space 0#64 ciphertext (BitVec.allOnes 64) (BitVec.allOnes 64) = some r ∧
        r.candidatesTested.toNat = 0 := by
  intro space ciphertext
  obtain ⟨-, r, hr, hfound, -⟩ := desBruteForce_spec space 0#64 ciphertext 0#64 4#64
  obtain ⟨-, t, ht, -, hnone⟩ := desBruteForce_spec space 0#64 ciphertext (BitVec.allOnes 64)
    (BitVec.allOnes 64)
  refine ⟨⟨r, hr, (hfound ⟨3#64, by decide, by decide, rfl⟩).1⟩, t, ht, ?_⟩
  refine (hnone ?_).2.2.2
  rintro ⟨c, hl, hu, -⟩
  exact absurd hu (BitVec.not_lt.mpr hl)

end DesBruteForce
