import DesModular.DesParallelProgress

/-!
# Key recovery

A search of the space around a key, with one plaintext and its ciphertext, returns a
key that is as good: the layout of candidates, the parity bits and PC-1 agree.
-/
namespace KeyRecovery

open MachineWord DesBlock Keyspace DesBruteForce LabelledRun DesParallel DesParallelProgress

variable (key : U64) (n : Nat) (hn : 1 ≤ n ∧ n ≤ 32)

/-- The candidate that stands for the key in its own space. -/
def planted : U64 := effectiveBits key &&& candidateMask (keyspaceOf key n hn)

theorem toNat_planted : (planted key n hn).toNat = (effectiveBits key).toNat % 2 ^ n :=
  toNat_and_candidateMask (keyspaceOf key n hn) (effectiveBits key)

theorem planted_lt : planted key n hn < desKeyspaceSize (keyspaceOf key n hn) := by
  rw [BitVec.lt_def, toNat_planted, toNat_desKeyspaceSize]
  exact Nat.mod_lt _ (Nat.two_pow_pos n)

/-- The planted candidate is a match for every plaintext. -/
theorem planted_matches (plaintext : U64) :
    desEncryptBlock plaintext (desKeyspaceKey (keyspaceOf key n hn) (planted key n hn)) =
      desEncryptBlock plaintext key := by
  rw [desKeyspaceKey_planted key n hn (toNat_planted key n hn)]
  exact desEncryptBlock_congr (agreeOffParity_effectiveBits key) plaintext

theorem oddParity_desKeyspaceKey (space : DesKeyspace) (candidate : U64) :
    OddParity (desKeyspaceKey space candidate) := oddParity_desKeyWithParity _

/-- The call of the parallel search on the space of the key. -/
def recoveryJob (plaintext : U64) (workers : U32) : Job where
  space := keyspaceOf key n hn
  plaintext := plaintext
  ciphertext := desEncryptBlock plaintext key
  start := 0#64
  finish := desKeyspaceSize (keyspaceOf key n hn)
  workers := workers

/-- The sequential search recovers a key, and every run of the parallel search ends
with one. -/
theorem key_recovery (plaintext : U64) :
    (∃ r, desBruteForce (keyspaceOf key n hn) plaintext (desEncryptBlock plaintext key) 0#64
        (desKeyspaceSize (keyspaceOf key n hn)) = some r ∧
      r.found = true ∧ r.candidate.toNat ≤ (effectiveBits key).toNat % 2 ^ n ∧
      desEncryptBlock plaintext r.key = desEncryptBlock plaintext key ∧ OddParity r.key ∧
      (r.candidate.toNat = (effectiveBits key).toNat % 2 ^ n → AgreeOffParity r.key key)) ∧
    ∀ workers : U32, ∃ bound, ∀ trace s,
      DesBruteForceParallel (recoveryJob key n hn plaintext workers) trace s →
        trace.length ≤ bound ∧
        (Returned s ∨ ∃ e t, Step (recoveryJob key n hn plaintext workers) s e t) ∧
        ∀ r, s.main = .returned r → r.found = true ∧
          desEncryptBlock plaintext r.key = desEncryptBlock plaintext key := by
  have hzero : 0#64 ≤ planted key n hn := Nat.zero_le _
  constructor
  · obtain ⟨r, hr, hfound, hle, hkey, hmatch⟩ := desBruteForce_first hzero (planted_lt key n hn)
      (planted_matches key n hn plaintext)
    refine ⟨r, hr, hfound, ?_, hmatch, ?_, ?_⟩
    · rw [← toNat_planted key n hn]
      exact hle
    · rw [hkey]
      exact oddParity_desKeyspaceKey _ _
    · intro hc
      rw [hkey, desKeyspaceKey_planted key n hn hc]
      exact agreeOffParity_effectiveBits key
  · intro workers
    let job := recoveryJob key n hn plaintext workers
    refine ⟨rank job (initial job), ?_⟩
    intro trace s run
    refine ⟨run_length_le run, ?_, ?_⟩
    · by_cases hreturned : Returned s
      · exact .inl hreturned
      · exact .inr (exists_step s hreturned)
    · intro r hreturned
      have hsolves := DesParallelSafety.returned_solves run hreturned
      have hfound := hsolves.found_iff.mpr
        ⟨planted key n hn, hzero, planted_lt key n hn, planted_matches key n hn plaintext⟩
      exact ⟨hfound, hsolves.recovers hfound⟩

/-- One unknown bit of the zero key. -/
theorem key_recovery_zero : ∃ r, desBruteForce (keyspaceOf 0#64 1 (by decide)) 0#64
    (desEncryptBlock 0#64 0#64) 0#64 (desKeyspaceSize (keyspaceOf 0#64 1 (by decide))) = some r ∧
      r.found = true ∧ OddParity r.key := by
  obtain ⟨⟨r, hr, hfound, -, -, hodd, -⟩, -⟩ := key_recovery 0#64 1 (by decide) 0#64
  exact ⟨r, hr, hfound, hodd⟩

end KeyRecovery
