import DesModular.DesBruteForce
import DesModular.KeyEnumeration
import DesModular.Complementation

/-!
# The complemented search

Complementing a key complements its cipher, and the complement of an odd-parity key is one
of the same width of key space. A search for the complemented pair in the complemented
space meets the same candidates from the other end.
-/
namespace MirroredSearch

open MachineWord DesBlock Keyspace KeyEnumeration DesBruteForce Complementation

/-- The space of the complements of the keys of a space. -/
def mirrorSpace (space : DesKeyspace) : DesKeyspace :=
  { space with fixedPrefix := ~~~space.fixedPrefix }

/-- The candidate as far from the end of the space as `candidate` is from its start. -/
def mirrorCandidate (space : DesKeyspace) (candidate : U64) : U64 :=
  desKeyspaceSize space - 1#64 - candidate

variable {space : DesKeyspace} {c : U64}

theorem toNat_mirrorCandidate (hc : c < desKeyspaceSize space) :
    (mirrorCandidate space c).toNat = 2 ^ space.unknownBits - (c.toNat + 1) := by
  have hle := two_pow_unknownBits_le space
  have hsize := toNat_desKeyspaceSize space
  rw [BitVec.lt_def, hsize] at hc
  rw [mirrorCandidate, BitVec.toNat_sub, BitVec.toNat_sub, hsize, BitVec.toNat_ofNat]
  omega

theorem mirrorCandidate_lt (hc : c < desKeyspaceSize space) :
    mirrorCandidate space c < desKeyspaceSize space := by
  rw [BitVec.lt_def, toNat_mirrorCandidate hc, toNat_desKeyspaceSize]
  have hpos := Nat.two_pow_pos space.unknownBits
  omega

theorem mirrorCandidate_mirrorCandidate (hc : c < desKeyspaceSize space) :
    mirrorCandidate space (mirrorCandidate space c) = c := by
  apply BitVec.eq_of_toNat_eq
  rw [toNat_mirrorCandidate (mirrorCandidate_lt hc), toNat_mirrorCandidate hc]
  rw [BitVec.lt_def, toNat_desKeyspaceSize] at hc
  omega

/-! ## Keys -/

theorem oddParity_not {key : U64} (h : OddParity key) : OddParity (~~~key) := by
  intro byte hbyte
  have hones := h byte hbyte
  have hbits : (List.range 8).countP (fun r => (~~~key).getLsbD (8 * byte + r)) =
      (List.range 8).countP (fun r => ¬key.getLsbD (8 * byte + r)) := by
    apply List.countP_congr
    intro r hr
    have hlt := List.mem_range.mp hr
    have hin : 8 * byte + r < 64 := by omega
    simp [hin]
  have hall := List.length_eq_countP_add_countP (fun r => key.getLsbD (8 * byte + r))
    (l := List.range 8)
  rw [List.length_range] at hall
  rw [hbits]
  omega

/-- The effective bits of the mirrored candidate are the complement of the candidate's. -/
theorem getLsbD_effective_mirror (hc : c < desKeyspaceSize space) {j : Nat} (hj : j < 56) :
    (effective (mirrorSpace space) (mirrorCandidate space c)).getLsbD j =
      !(effective space c).getLsbD j := by
  have hle := space.le_max
  have hmask := getLsbD_mask (w := 64) (Nat.le_trans hle (by decide)) j
  rw [← candidateMask_eq] at hmask
  by_cases hlow : j < space.unknownBits
  · have hbit : (mirrorCandidate space c).getLsbD j = !c.getLsbD j := by
      rw [BitVec.getLsbD, toNat_mirrorCandidate hc, Nat.testBit_two_pow_sub_succ,
        decide_eq_true hlow, Bool.true_and]
      · rfl
      · rwa [BitVec.lt_def, toNat_desKeyspaceSize] at hc
    have hmask' : (candidateMask (mirrorSpace space)).getLsbD j = decide (j < space.unknownBits) :=
      hmask
    rw [effective, effective, getLsbD_shiftOr_low _ _ hlow,
      getLsbD_shiftOr_low (d := (mirrorSpace space).unknownBits) _ _ hlow, BitVec.getLsbD_and,
      BitVec.getLsbD_and, hmask, hmask', decide_eq_true hlow, Bool.and_true, Bool.and_true, hbit]
  · obtain ⟨k, rfl⟩ := Nat.exists_eq_add_of_le (Nat.le_of_not_lt hlow)
    have hk : k < 64 := by omega
    have hhigh := getLsbD_shiftOr_high (fits_low space c) space.fixedPrefix (j := k) (by omega)
    have hhigh' := getLsbD_shiftOr_high (fits_low (mirrorSpace space) (mirrorCandidate space c))
      (mirrorSpace space).fixedPrefix (j := k) (by simp only [mirrorSpace]; omega)
    have hnot : (mirrorSpace space).fixedPrefix.getLsbD k = !space.fixedPrefix.getLsbD k := by
      simp [mirrorSpace, hk]
    rw [effective, effective, hhigh, ← hnot]
    exact hhigh'

/-- The key of the mirrored candidate is the complement of the candidate's key. -/
theorem desKeyspaceKey_mirror (hc : c < desKeyspaceSize space) :
    desKeyspaceKey (mirrorSpace space) (mirrorCandidate space c) =
      ~~~desKeyspaceKey space c := by
  change desKeyWithParity (effective (mirrorSpace space) (mirrorCandidate space c)) =
    ~~~desKeyWithParity (effective space c)
  apply eq_of_agreeOffParity _ (oddParity_desKeyWithParity _)
    (oddParity_not (oddParity_desKeyWithParity _))
  intro i hi hparity
  obtain ⟨j, hj⟩ : ∃ j, i % 8 = j + 1 := ⟨i % 8 - 1, by omega⟩
  have hsplit : 8 * (i / 8) + (j + 1) = i := by omega
  have hdata : ∀ e : U64, (desKeyWithParity e).getLsbD i = e.getLsbD (7 * (i / 8) + j) := by
    intro e
    have hbit : (desKeyWithParity e).getLsbD (8 * (i / 8) + (j + 1)) =
        e.getLsbD (7 * (i / 8) + j) := getLsbD_dataBit e (by omega) (by omega)
    rwa [hsplit] at hbit
  rw [hdata, BitVec.getLsbD_not, decide_eq_true hi, Bool.true_and, hdata,
    getLsbD_effective_mirror hc (by omega)]

/-! ## Searches -/

variable {plaintext ciphertext start finish : U64}

/-- The complemented pair matches at the mirrored candidate. -/
theorem matches_mirror (hc : c < desKeyspaceSize space) (start' finish' : U64) :
    WorkerArg.Matches ⟨mirrorSpace space, ~~~plaintext, ~~~ciphertext, start', finish', false⟩
        (mirrorCandidate space c) ↔
      WorkerArg.Matches ⟨space, plaintext, ciphertext, start, finish, false⟩ c := by
  simp only [WorkerArg.Matches]
  rw [desKeyspaceKey_mirror hc, desEncryptBlock_complement]
  exact BitVec.not_inj

/-- The complemented search over the same candidates from the other end. -/
def mirrorSearch (space : DesKeyspace) (plaintext ciphertext start finish : U64) :
    Option AttackResult :=
  desBruteForce (mirrorSpace space) (~~~plaintext) (~~~ciphertext)
    (desKeyspaceSize space - finish) (desKeyspaceSize space - start)

theorem toNat_size_sub {x : U64} (h : x ≤ desKeyspaceSize space) :
    (desKeyspaceSize space - x).toNat = 2 ^ space.unknownBits - x.toNat := by
  have hle := two_pow_unknownBits_le space
  rw [BitVec.le_def, toNat_desKeyspaceSize] at h
  rw [BitVec.toNat_sub, toNat_desKeyspaceSize]
  omega

/-- The mirrored candidates of a range are the range of the complemented search. -/
theorem mirrorCandidate_range (hstart : start ≤ finish) (hfinish : finish ≤ desKeyspaceSize space)
    (hc : c < desKeyspaceSize space) :
    desKeyspaceSize space - finish ≤ mirrorCandidate space c ∧
        mirrorCandidate space c < desKeyspaceSize space - start ↔
      start ≤ c ∧ c < finish := by
  have hmirror := toNat_mirrorCandidate hc
  have hsub := toNat_size_sub hfinish
  have hsub' := toNat_size_sub (BitVec.le_trans hstart hfinish)
  rw [BitVec.lt_def, toNat_desKeyspaceSize] at hc
  rw [BitVec.le_def] at hstart hfinish
  rw [toNat_desKeyspaceSize] at hfinish
  simp only [BitVec.le_def, BitVec.lt_def, hmirror, hsub, hsub']
  omega

/-- Every candidate of the complemented search is the mirror of one of the range. -/
theorem exists_mirror (hstart : start ≤ finish) (hfinish : finish ≤ desKeyspaceSize space)
    {c' : U64} (hl : desKeyspaceSize space - finish ≤ c')
    (hu : c' < desKeyspaceSize space - start) :
    ∃ c, start ≤ c ∧ c < finish ∧ mirrorCandidate space c = c' := by
  have hsub := toNat_size_sub (BitVec.le_trans hstart hfinish)
  have hc' : c' < desKeyspaceSize space := by
    rw [BitVec.lt_def, hsub] at hu
    rw [BitVec.lt_def, toNat_desKeyspaceSize]
    omega
  have hback := mirrorCandidate_mirrorCandidate hc'
  have hrange := (mirrorCandidate_range hstart hfinish (mirrorCandidate_lt hc')).mp
    (by rw [hback]; exact ⟨hl, hu⟩)
  exact ⟨_, hrange.1, hrange.2, hback⟩

/-- What the complemented search finds first is the mirror of the highest match. -/
theorem highest_of_hit (hstart : start ≤ finish) (hfinish : finish ≤ desKeyspaceSize space)
    {s : SearchState}
    (h : Hit ⟨mirrorSpace space, ~~~plaintext, ~~~ciphertext, desKeyspaceSize space - finish,
      desKeyspaceSize space - start, false⟩ s) :
    ∃ c, start ≤ c ∧ c < finish ∧ mirrorCandidate space s.result.candidate = c ∧
      WorkerArg.Matches ⟨space, plaintext, ciphertext, start, finish, false⟩ c ∧
      (∀ d, start ≤ d → d < finish →
        WorkerArg.Matches ⟨space, plaintext, ciphertext, start, finish, false⟩ d → d ≤ c) ∧
      s.result.key = ~~~desKeyspaceKey space c ∧
      s.result.candidatesTested.toNat = finish.toNat - c.toNat := by
  obtain ⟨c, hl, hu, hmirror⟩ := exists_mirror hstart hfinish h.lower h.upper
  have hbelow : ∀ d, d < finish → d < desKeyspaceSize space := fun d hd =>
    Nat.lt_of_lt_of_le hd hfinish
  have hc := hbelow c hu
  have hnat := toNat_mirrorCandidate hc
  have hmatch := h.isMatch
  rw [← hmirror] at hmatch
  refine ⟨c, hl, hu, ?_, (matches_mirror hc _ _).mp hmatch, ?_, ?_, ?_⟩
  · rw [h.candidate, ← hmirror, mirrorCandidate_mirrorCandidate hc]
  · intro d hdl hdu hd
    have hrange := (mirrorCandidate_range hstart hfinish (hbelow d hdu)).mpr ⟨hdl, hdu⟩
    have hdnat := toNat_mirrorCandidate (hbelow d hdu)
    have hle : s.candidate ≤ mirrorCandidate space d :=
      BitVec.not_lt.mp fun hlt =>
        h.first _ hrange.1 hlt ((matches_mirror (hbelow d hdu) _ _).mpr hd)
    have hdlt := hbelow d hdu
    rw [BitVec.lt_def, toNat_desKeyspaceSize] at hc hdlt
    rw [← hmirror, BitVec.le_def, hnat, hdnat] at hle
    rw [BitVec.le_def]
    omega
  · rw [h.key, ← hmirror, desKeyspaceKey_mirror hc]
  · have htested := h.tested
    have hsub := toNat_size_sub hfinish
    rw [← hmirror, hnat, hsub] at htested
    rw [BitVec.lt_def] at hu
    rw [BitVec.le_def, toNat_desKeyspaceSize] at hfinish
    omega

/-- Searching the complemented pair in the complemented space, from the other end of the
range, succeeds exactly when the search does. It returns the complement of the key of the
highest match; the two searches test the candidates up to the lowest match and from the
highest one on, and without a match both of them test all candidates. -/
theorem mirrored_search (space : DesKeyspace) (plaintext ciphertext start finish : U64)
    (hstart : start ≤ finish) (hfinish : finish ≤ desKeyspaceSize space) :
    ∃ r r', desBruteForce space plaintext ciphertext start finish = some r ∧
      mirrorSearch space plaintext ciphertext start finish = some r' ∧
      r'.found = r.found ∧
      (r.found = true →
        let arg : WorkerArg := ⟨space, plaintext, ciphertext, start, finish, false⟩
        let highest := mirrorCandidate space r'.candidate
        start ≤ r.candidate ∧ highest < finish ∧ arg.Matches r.candidate ∧ arg.Matches highest ∧
        (∀ c, start ≤ c → c < finish → arg.Matches c → r.candidate ≤ c ∧ c ≤ highest) ∧
        r'.key = ~~~desKeyspaceKey space highest ∧
        r.candidatesTested.toNat = r.candidate.toNat - start.toNat + 1 ∧
        r'.candidatesTested.toNat = finish.toNat - highest.toNat) ∧
      (r.found = false → r.candidatesTested.toNat = finish.toNat - start.toNat ∧
        r'.candidatesTested.toNat = finish.toNat - start.toNat) := by
  obtain ⟨s, hs, hends⟩ := searchRange_ends
    ⟨space, plaintext, ciphertext, start, finish, false⟩ rfl
  obtain ⟨s', hs', hends'⟩ := searchRange_ends ⟨mirrorSpace space, ~~~plaintext, ~~~ciphertext,
    desKeyspaceSize space - finish, desKeyspaceSize space - start, false⟩ rfl
  refine ⟨s.result, s'.result, hs, hs', ?_⟩
  obtain hhit | ⟨hswept, hend⟩ := hends
  · have hlower := BitVec.le_def.mp hhit.lower
    have htested := hhit.tested
    have hcand := hhit.candidate
    simp only at hlower htested
    obtain hhit' | ⟨hswept', hend'⟩ := hends'
    · obtain ⟨c, hl, hu, hmirror, hmatch, hmax, hkey, htested'⟩ :=
        highest_of_hit hstart hfinish hhit'
      refine ⟨by rw [hhit.found, hhit'.found], fun _ => ?_, fun hnot => ?_⟩
      · rw [hmirror, hcand]
        refine ⟨hhit.lower, hu, hhit.isMatch, hmatch, ?_, hkey, by omega, htested'⟩
        exact fun d hdl hdu hd =>
          ⟨BitVec.not_lt.mp fun hlt => hhit.first d hdl hlt hd, hmax d hdl hdu hd⟩
      · rw [hhit.found] at hnot
        exact absurd hnot (by decide)
    · -- the mirror of the match lies in the range swept without one
      have hc : s.candidate < desKeyspaceSize space := Nat.lt_of_lt_of_le hhit.upper hfinish
      have hrange := (mirrorCandidate_range hstart hfinish hc).mpr ⟨hhit.lower, hhit.upper⟩
      exact absurd ((hswept'.solves hend').found_iff.mpr
        ⟨_, hrange.1, hrange.2, (matches_mirror hc _ _).mpr hhit.isMatch⟩) hswept'.not_found
  · obtain hhit' | ⟨hswept', hend'⟩ := hends'
    · obtain ⟨c, hl, hu, -, hmatch, -⟩ := highest_of_hit hstart hfinish hhit'
      exact absurd ((hswept.solves hend).found_iff.mpr ⟨c, hl, hu, hmatch⟩) hswept.not_found
    · have htested' := hswept'.tested_all hend'
      simp only at htested'
      rw [toNat_size_sub hfinish, toNat_size_sub (BitVec.le_trans hstart hfinish)] at htested'
      rw [BitVec.le_def] at hstart
      rw [BitVec.le_def, toNat_desKeyspaceSize] at hfinish
      refine ⟨by rw [hswept.notFound, hswept'.notFound], fun hf => ?_, fun _ =>
        ⟨hswept.tested_all hend, by omega⟩⟩
      exact absurd hf hswept.not_found

/-- A space of one unknown bit, searched from both ends. -/
theorem mirrored_search_one_bit :
    let space := keyspaceWith 1 ⟨Nat.le_refl 1, Nat.le_add_left 1 31⟩ 0#64
    let ciphertext := desEncryptBlock 0#64 (desKeyspaceKey space 1#64)
    ∃ r r', desBruteForce space 0#64 ciphertext 0#64 2#64 = some r ∧
      mirrorSearch space 0#64 ciphertext 0#64 2#64 = some r' ∧ r'.found = r.found := by
  intro space ciphertext
  obtain ⟨r, r', hr, hr', hfound, -⟩ :=
    mirrored_search space 0#64 ciphertext 0#64 2#64 (by decide) (by decide)
  exact ⟨r, r', hr, hr', hfound⟩

end MirroredSearch
