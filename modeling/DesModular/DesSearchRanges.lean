import DesModular.DesBruteForce
import DesModular.FirstHit

/-!
# Searching a range piece by piece

A search of a range is the search for the first hit among its candidates. So a range
may be searched in consecutive pieces, and a search may be taken up again where it was
left.
-/
namespace DesSearchRanges

open MachineWord DesBlock Keyspace DesBruteForce FirstHit

/-- A candidate is a hit if it matches, and gives itself and its key. -/
def attempt (space : DesKeyspace) (plaintext ciphertext : U64) (n : Nat) : Option (U64 × U64) :=
  let key := desKeyspaceKey space (BitVec.ofNat 64 n)
  if desEncryptBlock plaintext key = ciphertext then some (BitVec.ofNat 64 n, key) else none

/-- The attempts of a search do not depend on its range. -/
def attemptOf (arg : WorkerArg) : Nat → Option (U64 × U64) :=
  attempt arg.space arg.plaintext arg.ciphertext

/-- What a result says. -/
def outcome (r : AttackResult) : Outcome (U64 × U64) where
  tried := r.candidatesTested.toNat
  hit := if r.found then some (r.candidate, r.key) else none

/-- A result without a match names no candidate. -/
def Clean (r : AttackResult) : Prop := r.found = false → r.candidate = 0#64 ∧ r.key = 0#64

theorem clean_noResult : Clean noResult := fun _ => ⟨rfl, rfl⟩

theorem isSome_hit_outcome (r : AttackResult) : (outcome r).hit.isSome = r.found := by
  cases h : r.found <;> simp [outcome, h]

/-- A clean result is determined by what it says. -/
theorem eq_of_outcome {r t : AttackResult} (hr : Clean r) (ht : Clean t)
    (h : outcome r = outcome t) : r = t := by
  have htried : r.candidatesTested.toNat = t.candidatesTested.toNat := congrArg Outcome.tried h
  have htested := BitVec.eq_of_toNat_eq htried
  have hfound : r.found = t.found := by
    rw [← isSome_hit_outcome, ← isSome_hit_outcome, h]
  have hhit := congrArg Outcome.hit h
  obtain ⟨found, candidate, key, tested⟩ := r
  obtain ⟨found', candidate', key', tested'⟩ := t
  cases found with
  | false =>
    obtain rfl : false = found' := hfound
    obtain ⟨hc, hk⟩ := hr rfl
    obtain ⟨hc', hk'⟩ := ht rfl
    simp_all
  | true =>
    obtain rfl : true = found' := hfound
    simp_all [outcome]

/-! ## A search as the first hit of its range -/

theorem attempt_of_not_matches {arg : WorkerArg} {c : U64} (h : ¬arg.Matches c) :
    attemptOf arg c.toNat = none := by
  rw [attemptOf, attempt, BitVec.ofNat_toNat, BitVec.setWidth_eq]
  exact if_neg h

theorem attempt_of_matches {arg : WorkerArg} {c : U64} (h : arg.Matches c) :
    attemptOf arg c.toNat = some (c, desKeyspaceKey arg.space c) := by
  rw [attemptOf, attempt, BitVec.ofNat_toNat, BitVec.setWidth_eq]
  exact if_pos h

/-- Candidates below the current one are no hits. -/
theorem attempt_below {arg : WorkerArg} {candidate : U64}
    (h : ∀ c, arg.start ≤ c → c < candidate → ¬arg.Matches c) {i : Nat}
    (hi : arg.start.toNat + i < candidate.toNat) : attemptOf arg (arg.start.toNat + i) = none := by
  have hlt := candidate.isLt
  have hvalue : (BitVec.ofNat 64 (arg.start.toNat + i)).toNat = arg.start.toNat + i := by
    rw [BitVec.toNat_ofNat]
    exact Nat.mod_eq_of_lt (by omega)
  have hnone := attempt_of_not_matches (h (BitVec.ofNat 64 (arg.start.toNat + i))
    (by rw [BitVec.le_def]; omega) (by rw [BitVec.lt_def]; omega))
  rwa [hvalue] at hnone

variable {arg : WorkerArg} {s : SearchState}

theorem outcome_hit (h : Hit arg s) : outcome s.result =
    sweep (attemptOf arg) arg.start.toNat (arg.finish.toNat - arg.start.toNat) := by
  have hlower := BitVec.le_def.mp h.lower
  have hupper := BitVec.lt_def.mp h.upper
  have htested := h.tested
  have hplace : arg.start.toNat + (s.candidate.toNat - arg.start.toNat) = s.candidate.toNat := by
    omega
  have hattempt := attempt_of_matches h.isMatch
  rw [← hplace] at hattempt
  rw [sweep_hit (by omega) (fun i hi => attempt_below h.first (by omega)) hattempt]
  ext1
  · simp only [outcome]
    omega
  · simp [outcome, h.found, h.candidate, h.key]

theorem outcome_swept (h : Swept arg s) (hend : ¬s.candidate < arg.finish) :
    outcome s.result =
      sweep (attemptOf arg) arg.start.toNat (arg.finish.toNat - arg.start.toNat) := by
  have hcount := h.tested_all hend
  have hfinish := BitVec.le_def.mp (BitVec.not_lt.mp hend)
  rw [sweep_none fun i hi => attempt_below h.noMatch (by omega)]
  ext1
  · exact hcount
  · simp [outcome, h.notFound]

theorem clean_hit (h : Hit arg s) : Clean s.result := by
  intro hnone
  rw [h.found] at hnone
  cases hnone

theorem clean_swept (h : Swept arg s) : Clean s.result := fun _ => h.unset

/-- `des_brute_force` reports the first hit of its range. -/
theorem desBruteForce_outcome (space : DesKeyspace) (plaintext ciphertext start finish : U64) :
    ∃ r, desBruteForce space plaintext ciphertext start finish = some r ∧ Clean r ∧
      outcome r = sweep (attempt space plaintext ciphertext) start.toNat
        (finish.toNat - start.toNat) := by
  obtain ⟨s, hs, hhit | ⟨hswept, hend⟩⟩ := searchRange_ends
    ⟨space, plaintext, ciphertext, start, finish, false⟩ rfl
  · have houtcome := outcome_hit hhit
    exact ⟨s.result, hs, clean_hit hhit, houtcome⟩
  · have houtcome := outcome_swept hswept hend
    exact ⟨s.result, hs, clean_swept hswept, houtcome⟩

/-! ## Searches in pieces -/

/-- The result of a search that goes on after `first`, unless it found a match. -/
def resume (first second : AttackResult) : AttackResult :=
  if first.found then first
  else { second with candidatesTested := first.candidatesTested + second.candidatesTested }

theorem outcome_resume {first second : AttackResult}
    (hfits : (outcome first).tried + (outcome second).tried < 2 ^ 64) :
    outcome (resume first second) = outcome first * outcome second := by
  cases hfound : first.found with
  | true =>
    rw [resume, if_pos hfound, mul_of_hit ((isSome_hit_outcome first).trans hfound)]
  | false =>
    have hnone : (outcome first).hit = none := by simp [outcome, hfound]
    have hnot : ¬first.found = true := by simp [hfound]
    rw [resume, if_neg hnot, mul_of_none hnone]
    ext1
    · simp only [outcome, BitVec.toNat_add]
      exact Nat.mod_eq_of_lt hfits
    · rfl

theorem clean_resume {first second : AttackResult} (h : Clean second) :
    Clean (resume first second) := by
  rw [resume]
  split
  next hfound => exact fun hnone => absurd (hfound.symm.trans hnone) (by decide)
  next => exact h

/-- One search after the other, each from where the last one ended, up to the last of the
`cuts`, as long as none finds a match. -/
def searchPieces (space : DesKeyspace) (plaintext ciphertext : U64) :
    (start : U64) → (cuts : List U64) → Option AttackResult
  | _, [] => some noResult
  | start, cut :: cuts => do
    let first ← desBruteForce space plaintext ciphertext start cut
    if first.found then pure first
    else
      let rest ← searchPieces space plaintext ciphertext cut cuts
      pure (resume first rest)

/-- Where the last piece ends. -/
def lastCut (start : U64) (cuts : List U64) : U64 := cuts.getLastD start

theorem lastCut_cons (start cut : U64) (cuts : List U64) :
    lastCut start (cut :: cuts) = lastCut cut cuts := List.getLastD_cons

theorem le_lastCut {start : U64} {cuts : List U64} (h : (start :: cuts).Pairwise (· ≤ ·)) :
    start ≤ lastCut start cuts := by
  cases cuts with
  | nil => exact BitVec.le_refl start
  | cons cut cuts =>
    rw [lastCut_cons]
    exact List.rel_of_pairwise_cons h List.getLastD_mem_cons

/-- Consecutive pieces, joined. -/
theorem sweep_pieces {α : Type} (attempt : Nat → Option α) {start cut finish : Nat}
    (h : start ≤ cut) (h' : cut ≤ finish) :
    sweep attempt start (cut - start) * sweep attempt cut (finish - cut) =
      sweep attempt start (finish - start) := by
  obtain ⟨m, rfl⟩ := Nat.exists_eq_add_of_le h
  obtain ⟨n, rfl⟩ := Nat.exists_eq_add_of_le h'
  have hall : start + m + n - start = m + n := by omega
  rw [Nat.add_sub_cancel_left, Nat.add_sub_cancel_left, hall, sweep_add]

theorem searchPieces_outcome (space : DesKeyspace) (plaintext ciphertext : U64)
    {start : U64} {cuts : List U64} (h : (start :: cuts).Pairwise (· ≤ ·)) :
    ∃ r, searchPieces space plaintext ciphertext start cuts = some r ∧ Clean r ∧
      outcome r = sweep (attempt space plaintext ciphertext) start.toNat
        ((lastCut start cuts).toNat - start.toNat) := by
  induction cuts generalizing start with
  | nil =>
    refine ⟨noResult, rfl, clean_noResult, ?_⟩
    rw [lastCut, List.getLastD_nil, Nat.sub_self]
    rfl
  | cons cut cuts ih =>
    obtain ⟨hfirst, hrest⟩ := List.pairwise_cons.mp h
    obtain ⟨first, hsearch, hclean, houtcome⟩ :=
      desBruteForce_outcome space plaintext ciphertext start cut
    obtain ⟨rest, hpieces, hcleanRest, houtcomeRest⟩ := ih hrest
    have hcut := BitVec.le_def.mp (hfirst cut List.mem_cons_self)
    have hlast := BitVec.le_def.mp (le_lastCut hrest)
    have hjoin : outcome first * outcome rest = sweep (attempt space plaintext ciphertext)
        start.toNat ((lastCut cut cuts).toNat - start.toNat) := by
      rw [houtcome, houtcomeRest, sweep_pieces _ hcut hlast]
    rw [lastCut_cons]
    simp only [searchPieces, hsearch, hpieces, Option.bind_eq_bind, Option.bind_some]
    cases hfound : first.found with
    | true =>
      refine ⟨first, rfl, hclean, ?_⟩
      rw [← hjoin, mul_of_hit ((isSome_hit_outcome first).trans hfound)]
    | false =>
      refine ⟨resume first rest, rfl, clean_resume hcleanRest, ?_⟩
      rw [outcome_resume, hjoin]
      have htried := tried_sweep_le (attempt space plaintext ciphertext) start.toNat
        (cut.toNat - start.toNat)
      have htriedRest := tried_sweep_le (attempt space plaintext ciphertext) cut.toNat
        ((lastCut cut cuts).toNat - cut.toNat)
      have hfits := (lastCut cut cuts).isLt
      rw [houtcome, houtcomeRest]
      omega

/-- A search that is left and taken up again any number of times ends with the result of
one search of the whole range: the same match, key and number of tests. -/
theorem search_in_pieces (space : DesKeyspace) (plaintext ciphertext start : U64)
    (cuts : List U64) (h : (start :: cuts).Pairwise (· ≤ ·)) :
    searchPieces space plaintext ciphertext start cuts =
      desBruteForce space plaintext ciphertext start (lastCut start cuts) := by
  obtain ⟨r, hr, hclean, houtcome⟩ := searchPieces_outcome space plaintext ciphertext h
  obtain ⟨t, ht, hclean', houtcome'⟩ :=
    desBruteForce_outcome space plaintext ciphertext start (lastCut start cuts)
  rw [hr, ht, eq_of_outcome hclean hclean' (houtcome.trans houtcome'.symm)]

/-- Three pieces, one of them empty, up to the top of the word. -/
theorem search_in_pieces_three :
    let space := keyspaceWith 8 (by decide) 0#64
    searchPieces space 0#64 0#64 5#64 [9#64, 9#64, BitVec.allOnes 64] =
      desBruteForce space 0#64 0#64 5#64 (BitVec.allOnes 64) :=
  search_in_pieces _ 0#64 0#64 5#64 [9#64, 9#64, BitVec.allOnes 64] (by decide)

end DesSearchRanges
