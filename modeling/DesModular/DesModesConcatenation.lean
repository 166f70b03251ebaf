import DesModular.DesModesRoundTrip

/-!
# Messages in two parts

A message may be cut at a block boundary: its ciphertext is made of the first part's
blocks and of the ciphertext of the second part, in CBC under the last block of the
first. A ciphertext may be cut in the same way.
-/
namespace DesModesConcatenation

open MachineWord ByteOrder Transducer DesModes DesModesSpec DesModeCalls DesModeBuffers
open DesModesRoundTrip
open DesApi (Size DesStatus)

/-- The IV for what follows the first `n` blocks of a ciphertext: the last of them. -/
def chainIv (iv cipher : Buffer) (n : Nat) : Buffer :=
  if n = 0 then iv
  else ⟨blockAt cipher.bytes (n - 1), Nat.lt_of_le_of_lt (List.length_take_le 8 _) (by decide)⟩

theorem bytes_chainIv (iv cipher : Buffer) (n : Nat) :
    (chainIv iv cipher n).bytes = if n = 0 then iv.bytes else blockAt cipher.bytes (n - 1) := by
  rw [chainIv]
  split
  · rfl
  · rfl

theorem length_chainIv {iv cipher : Buffer} (hiv : iv.bytes.length = 8) {n : Nat}
    (hcipher : 8 * n ≤ cipher.bytes.length) : (chainIv iv cipher n).bytes.length = 8 := by
  rw [bytes_chainIv]
  exact length_previous hiv hcipher

/-! ## Strings in two parts -/

/-- Enciphering two parts, the second under the last block of the first. -/
theorem encryptBytes_append (mode : Mode) (key : Bytes) {iv iv' front : Bytes}
    (hfront : front.length % 8 = 0)
    (hchain : mode = .cbc → iv' = if front.length / 8 = 0 then iv
      else blockAt (mode.encryptBytes key iv front) (front.length / 8 - 1)) (rest : Bytes) :
    mode.encryptBytes key iv (front ++ rest) =
      mode.encryptBytes key iv front ++ mode.encryptBytes key iv' rest := by
  cases mode with
  | ecb => exact applyStep_append (ecbEncryptStep (pack key)) () hfront rest
  | cbc =>
    have hwhole : front.length = 8 * (front.length / 8) := by omega
    have hcarry := final_encrypt key iv hwhole (Nat.le_refl _)
    rw [← hchain rfl, List.take_of_length_le (length_toWords _ _).le] at hcarry
    refine (applyStep_append (cbcEncryptStep (pack key)) (pack iv) hfront rest).trans ?_
    rw [hcarry]
    rfl

/-- Deciphering two parts, the second under the last block of the first. -/
theorem decryptBytes_append (key : Bytes) {iv iv' front : Bytes} (hfront : front.length % 8 = 0)
    (hchain : iv' = if front.length / 8 = 0 then iv else blockAt front (front.length / 8 - 1))
    (rest : Bytes) :
    Mode.cbc.decryptBytes key iv (front ++ rest) =
      Mode.cbc.decryptBytes key iv front ++ Mode.cbc.decryptBytes key iv' rest := by
  have hcarry := final_decrypt key iv front (Nat.le_refl (front.length / 8))
  rw [← hchain, List.take_of_length_le (length_toWords _ _).le] at hcarry
  refine (applyStep_append (cbcDecryptStep (pack key)) (pack iv) hfront rest).trans ?_
  rw [hcarry]
  rfl

/-! ## Calls on two parts -/

variable {key iv : Buffer}

/-- The ciphertext of whole blocks starts with their own blocks, and ends in those of the
padding. -/
theorem cipherBytes_front (mode : Mode) (key iv : Buffer) {front : Buffer}
    (hfront : front.bytes.length % 8 = 0) :
    ∃ tail, cipherBytes mode key iv front =
      mode.encryptBytes key.bytes iv.bytes front.bytes ++ tail := by
  have hpad := Pkcs7.pad_append hfront []
  rw [List.append_nil] at hpad
  rw [cipherBytes, hpad]
  exact ⟨_, encryptBytes_append mode key.bytes hfront (fun _ => rfl) _⟩

/-- Encrypting a message in two parts. -/
theorem encrypt_parts (mode : Mode) (hkey : key.bytes.length = 8) (hiv : iv.bytes.length = 8)
    {front rest whole out outFront outRest : Buffer} (hfront : front.bytes.length % 8 = 0)
    (hwhole : whole.bytes = front.bytes ++ rest.bytes)
    (hwrap : paddedLength whole < 2 ^ 64) (hcap : desPaddedLen whole.len ≤ out.len)
    (hcapFront : desPaddedLen front.len ≤ outFront.len)
    (hcapRest : desPaddedLen rest.len ≤ outRest.len) (outLen outLenFront outLenRest : Size) :
    ∃ e eFront, encryptBuffers mode ⟨key, iv, whole, out⟩ outLen = some e ∧ e.status = .ok ∧
      encryptBuffers mode ⟨key, iv, front, outFront⟩ outLenFront = some eFront ∧
      eFront.status = .ok ∧ front.bytes.length ≤ eFront.out.bytes.length ∧
      ∀ iv' : Buffer, iv'.bytes.length = 8 →
        (mode = .cbc → iv' = chainIv iv eFront.out (front.bytes.length / 8)) →
        ∃ eRest, encryptBuffers mode ⟨key, iv', rest, outRest⟩ outLenRest = some eRest ∧
          eRest.status = .ok ∧
          (e.out.take e.outLen.toNat).bytes =
            ((eFront.out.take eFront.outLen.toNat).take front.bytes.length).bytes ++
              (eRest.out.take eRest.outLen.toNat).bytes := by
  have hpad : Pkcs7.pad 8 whole.bytes = front.bytes ++ Pkcs7.pad 8 rest.bytes := by
    rw [hwhole, Pkcs7.pad_append hfront]
  have hlength := congrArg List.length hpad
  rw [length_padded, List.length_append, length_padded] at hlength
  have hrest := paddedLength_eq rest
  have hfrontLength := paddedLength_eq front
  obtain ⟨e, he, hok, -, hcipher⟩ := encryptBuffers_cipher mode hkey hiv hwrap
    ((paddedLen_le_iff hwrap out).mp hcap) outLen
  have hwrapFront : paddedLength front < 2 ^ 64 := by omega
  obtain ⟨eFront, heFront, hokFront, -, hcipherFront⟩ := encryptBuffers_cipher mode hkey hiv
    hwrapFront ((paddedLen_le_iff hwrapFront outFront).mp hcapFront) outLenFront
  obtain ⟨tail, htail⟩ := cipherBytes_front mode key iv hfront
  have hfrontBytes : (mode.encryptBytes key.bytes iv.bytes front.bytes).length =
      front.bytes.length := by
    rw [length_encryptBytes]
    omega
  have hstart : eFront.out.bytes = mode.encryptBytes key.bytes iv.bytes front.bytes ++
      (tail ++ eFront.out.bytes.drop eFront.outLen.toNat) := by
    rw [← List.append_assoc, ← htail, ← hcipherFront, Buffer.bytes_take, List.take_append_drop]
  refine ⟨e, eFront, he, hok, heFront, hokFront, ?_, ?_⟩
  · rw [hstart, List.length_append, hfrontBytes]
    exact Nat.le_add_right _ _
  · intro iv' hiv' hchain
    have hwrapRest : paddedLength rest < 2 ^ 64 := by omega
    obtain ⟨eRest, heRest, hokRest, -, hcipherRest⟩ := encryptBuffers_cipher mode hkey hiv'
      hwrapRest ((paddedLen_le_iff hwrapRest outRest).mp hcapRest) outLenRest
    have hlast : mode = .cbc → iv'.bytes = if front.bytes.length / 8 = 0 then iv.bytes
        else blockAt (mode.encryptBytes key.bytes iv.bytes front.bytes)
          (front.bytes.length / 8 - 1) := by
      intro hmode
      rw [hchain hmode, bytes_chainIv]
      split
      · rfl
      · rw [hstart]
        exact blockAt_append (by omega) _
    refine ⟨eRest, heRest, hokRest, ?_⟩
    rw [hcipher, cipherBytes, hpad, encryptBytes_append mode key.bytes hfront hlast, hcipherRest,
      Buffer.bytes_take, hcipherFront, htail, List.take_left' hfrontBytes, cipherBytes]

/-- The check of a decrypted string in two parts, and of the second part alone. -/
theorem unpadOutcome_append {plainFront plain : Bytes} {out outRest : Buffer} {k : Nat}
    (hlen : plain.length = 8 * (k + 1))
    (hcap : plainFront.length + plain.length ≤ out.bytes.length)
    (hcapRest : plain.length ≤ outRest.bytes.length) (outLen outLenRest : Size) :
    (unpadOutcome out (plainFront ++ plain) outLen).status =
        (unpadOutcome outRest plain outLenRest).status ∧
      ((unpadOutcome out (plainFront ++ plain) outLen).status = .ok →
        (unpadOutcome out (plainFront ++ plain) outLen).outLen.toNat =
            plainFront.length + (unpadOutcome outRest plain outLenRest).outLen.toNat ∧
          ((unpadOutcome out (plainFront ++ plain) outLen).out.take
              (unpadOutcome out (plainFront ++ plain) outLen).outLen.toNat).bytes.drop
                plainFront.length =
            ((unpadOutcome outRest plain outLenRest).out.take
              (unpadOutcome outRest plain outLenRest).outLen.toNat).bytes) := by
  have hsplit := Pkcs7.unpad_append (by decide : 0 < 8)
    (by omega : 8 ≤ plain.length) plainFront
  cases hunpad : Pkcs7.unpad 8 plain with
  | none =>
    rw [hunpad, Option.map_none] at hsplit
    simp only [unpadOutcome, hunpad, hsplit]
    refine ⟨trivial, ?_⟩
    intro hok
    cases hok
  | some n =>
    rw [hunpad, Option.map_some] at hsplit
    have hn : n ≤ plain.length := (Pkcs7.pad_of_unpad hlen hunpad).1
    have hfits := out.fits
    have hlt : plainFront.length + n < 2 ^ 64 := by omega
    have hjoined : (plainFront ++ plain).length ≤ out.bytes.length := by
      rw [List.length_append]
      exact hcap
    simp only [unpadOutcome, hunpad, hsplit, BitVec.toNat_ofNat, Nat.mod_eq_of_lt hlt,
      Nat.mod_eq_of_lt (Nat.lt_of_le_of_lt (Nat.le_add_left n plainFront.length) hlt)]
    refine ⟨trivial, fun _ => ⟨trivial, ?_⟩⟩
    rw [take_overwrite out hjoined (by rw [List.length_append]; omega),
      take_overwrite outRest hcapRest hn, List.take_length_add_append, List.drop_left' rfl]

/-- Decrypting the second part of a ciphertext alone. -/
theorem decrypt_parts (hkey : key.bytes.length = 8) (hiv : iv.bytes.length = 8)
    {front rest whole out outRest : Buffer} (hfront : front.bytes.length % 8 = 0)
    (hrest : 0 < rest.bytes.length) (hwhole : whole.bytes = front.bytes ++ rest.bytes)
    (hcap : whole.bytes.length ≤ out.bytes.length)
    (hcapRest : rest.bytes.length ≤ outRest.bytes.length) (outLen outLenRest : Size) :
    ∃ d dRest, decryptBuffers .cbc ⟨key, iv, whole, out⟩ outLen = some d ∧
      decryptBuffers .cbc ⟨key, chainIv iv front (front.bytes.length / 8), rest, outRest⟩
        outLenRest = some dRest ∧
      d.status = dRest.status ∧
      (d.status = .ok → d.outLen.toNat = front.bytes.length + dRest.outLen.toNat ∧
        (d.out.take d.outLen.toNat).bytes.drop front.bytes.length =
          (dRest.out.take dRest.outLen.toNat).bytes) := by
  have hlength := congrArg List.length hwhole
  rw [List.length_append] at hlength
  by_cases hpartial : rest.bytes.length % 8 = 0
  · obtain ⟨k, hk⟩ : ∃ k, rest.bytes.length = 8 * (k + 1) := ⟨rest.bytes.length / 8 - 1, by omega⟩
    have hcount : whole.bytes.length = 8 * (front.bytes.length / 8 + k + 1) := by omega
    have hiv' : (chainIv iv front (front.bytes.length / 8)).bytes.length = 8 :=
      length_chainIv hiv (by omega)
    have hplain := decryptBytes_append key.bytes hfront (bytes_chainIv iv front _) rest.bytes
    have hlengthFront : (Mode.cbc.decryptBytes key.bytes iv.bytes front.bytes).length =
        front.bytes.length := by
      rw [length_decryptBytes]
      omega
    have hd := decryptBuffers_eq .cbc (b := ⟨key, iv, whole, out⟩) hkey hiv hcount hcap outLen
    have hdRest := decryptBuffers_eq .cbc
      (b := ⟨key, chainIv iv front (front.bytes.length / 8), rest, outRest⟩) hkey hiv' hk hcapRest
      outLenRest
    simp only [hwhole, hplain] at hd
    have hlengthRest := length_decryptBytes_whole .cbc key.bytes
      (chainIv iv front (front.bytes.length / 8)).bytes hk
    have hroom : (Mode.cbc.decryptBytes key.bytes iv.bytes front.bytes).length +
        (Mode.cbc.decryptBytes key.bytes (chainIv iv front (front.bytes.length / 8)).bytes
          rest.bytes).length ≤ out.bytes.length := by omega
    have hroomRest : (Mode.cbc.decryptBytes key.bytes
        (chainIv iv front (front.bytes.length / 8)).bytes rest.bytes).length ≤
          outRest.bytes.length := by omega
    obtain ⟨hstatus, hresult⟩ :=
      unpadOutcome_append hlengthRest hroom hroomRest outLen outLenRest
    rw [hlengthFront] at hresult
    exact ⟨_, _, hd, hdRest, hstatus, hresult⟩
  · have hpartialWhole : PartialBlocks whole.len := (partialBlocks_len whole).mpr (by omega)
    have hpartialRest : PartialBlocks rest.len := (partialBlocks_len rest).mpr (.inr hpartial)
    obtain ⟨d, hd, hbad⟩ := decryptBuffers_partial .cbc (b := ⟨key, iv, whole, out⟩) hpartialWhole
      outLen
    obtain ⟨dRest, hdRest, hbadRest⟩ := decryptBuffers_partial .cbc
      (b := ⟨key, chainIv iv front (front.bytes.length / 8), rest, outRest⟩) hpartialRest outLenRest
    refine ⟨d, dRest, hd, hdRest, hbad.trans hbadRest.symm, ?_⟩
    intro hok
    rw [hbad] at hok
    cases hok

/-- The ciphertext of a message in two parts is made of the blocks of the first and of the
ciphertext of the second, in CBC under the last of these blocks. The second part of a CBC
ciphertext decrypts alone, under the block before it, to the end of the message. -/
theorem concatenation (key iv : Buffer) (hkey : key.bytes.length = 8)
    (hiv : iv.bytes.length = 8) :
    (∀ (front rest whole out outFront outRest : Buffer) (outLen outLenFront outLenRest : Size),
      front.bytes.length % 8 = 0 → whole.bytes = front.bytes ++ rest.bytes →
      whole.bytes.length + Pkcs7.padCount 8 whole.bytes.length < 2 ^ 64 →
      desPaddedLen whole.len ≤ out.len → desPaddedLen front.len ≤ outFront.len →
      desPaddedLen rest.len ≤ outRest.len →
      (∃ e eFront eRest, encryptBuffers .ecb ⟨key, iv, whole, out⟩ outLen = some e ∧
        e.status = .ok ∧
        encryptBuffers .ecb ⟨key, iv, front, outFront⟩ outLenFront = some eFront ∧
        eFront.status = .ok ∧
        encryptBuffers .ecb ⟨key, iv, rest, outRest⟩ outLenRest = some eRest ∧
        eRest.status = .ok ∧
        (e.out.take e.outLen.toNat).bytes =
          ((eFront.out.take eFront.outLen.toNat).take front.bytes.length).bytes ++
            (eRest.out.take eRest.outLen.toNat).bytes) ∧
      ∃ e eFront eRest, encryptBuffers .cbc ⟨key, iv, whole, out⟩ outLen = some e ∧
        e.status = .ok ∧
        encryptBuffers .cbc ⟨key, iv, front, outFront⟩ outLenFront = some eFront ∧
        eFront.status = .ok ∧
        encryptBuffers .cbc
            ⟨key, chainIv iv eFront.out (front.bytes.length / 8), rest, outRest⟩ outLenRest =
          some eRest ∧
        eRest.status = .ok ∧
        (e.out.take e.outLen.toNat).bytes =
          ((eFront.out.take eFront.outLen.toNat).take front.bytes.length).bytes ++
            (eRest.out.take eRest.outLen.toNat).bytes) ∧
    ∀ (front rest whole out outRest : Buffer) (outLen outLenRest : Size),
      front.bytes.length % 8 = 0 → 0 < rest.bytes.length →
      whole.bytes = front.bytes ++ rest.bytes → whole.bytes.length ≤ out.bytes.length →
      rest.bytes.length ≤ outRest.bytes.length →
      ∃ d dRest, decryptBuffers .cbc ⟨key, iv, whole, out⟩ outLen = some d ∧
        decryptBuffers .cbc ⟨key, chainIv iv front (front.bytes.length / 8), rest, outRest⟩
          outLenRest = some dRest ∧
        d.status = dRest.status ∧
        (d.status = .ok → d.outLen.toNat = front.bytes.length + dRest.outLen.toNat ∧
          (d.out.take d.outLen.toNat).bytes.drop front.bytes.length =
            (dRest.out.take dRest.outLen.toNat).bytes) := by
  constructor
  · intro front rest whole out outFront outRest outLen outLenFront outLenRest hfront hwhole hwrap
      hcap hcapFront hcapRest
    constructor
    · obtain ⟨e, eFront, he, hok, heFront, hokFront, -, hrest⟩ := encrypt_parts .ecb hkey hiv hfront
        hwhole hwrap hcap hcapFront hcapRest outLen outLenFront outLenRest
      obtain ⟨eRest, heRest, hokRest, hjoin⟩ := hrest iv hiv nofun
      exact ⟨e, eFront, eRest, he, hok, heFront, hokFront, heRest, hokRest, hjoin⟩
    · obtain ⟨e, eFront, he, hok, heFront, hokFront, hlen, hrest⟩ := encrypt_parts .cbc hkey hiv
        hfront hwhole hwrap hcap hcapFront hcapRest outLen outLenFront outLenRest
      have hchain : (chainIv iv eFront.out (front.bytes.length / 8)).bytes.length = 8 :=
        length_chainIv hiv (by omega)
      obtain ⟨eRest, heRest, hokRest, hjoin⟩ := hrest _ hchain (fun _ => rfl)
      exact ⟨e, eFront, eRest, he, hok, heFront, hokFront, heRest, hokRest, hjoin⟩
  · intro front rest whole out outRest outLen outLenRest hfront hrest hwhole hcap hcapRest
    exact decrypt_parts hkey hiv hfront hrest hwhole hcap hcapRest outLen outLenRest

/-- Two blocks of zeros, cut between them. -/
theorem concatenation_zeroBlocks :
    let whole : Buffer := ⟨List.replicate 16 0#8, by decide⟩
    let out : Buffer := ⟨List.replicate 24 0#8, by decide⟩
    (∃ e eFront eRest, encryptBuffers .cbc ⟨zeroBlock, zeroBlock, whole, out⟩ 0#64 = some e ∧
      encryptBuffers .cbc ⟨zeroBlock, zeroBlock, zeroBlock, out⟩ 0#64 = some eFront ∧
      encryptBuffers .cbc ⟨zeroBlock, chainIv zeroBlock eFront.out 1, zeroBlock, out⟩ 0#64 =
        some eRest ∧
      (e.out.take e.outLen.toNat).bytes =
        ((eFront.out.take eFront.outLen.toNat).take 8).bytes ++
          (eRest.out.take eRest.outLen.toNat).bytes) ∧
    ∃ d dRest, decryptBuffers .cbc ⟨zeroBlock, zeroBlock, whole, out⟩ 0#64 = some d ∧
      decryptBuffers .cbc ⟨zeroBlock, chainIv zeroBlock zeroBlock 1, zeroBlock, out⟩ 0#64 =
        some dRest ∧
      d.status = dRest.status := by
  intro whole out
  obtain ⟨hencrypt, hdecrypt⟩ := concatenation zeroBlock zeroBlock (by decide) (by decide)
  obtain ⟨-, e, eFront, eRest, he, -, heFront, -, heRest, -, hjoin⟩ := hencrypt zeroBlock zeroBlock
    whole out out out 0#64 0#64 0#64 (by decide) (by decide) (by decide) (by decide) (by decide)
    (by decide)
  obtain ⟨d, dRest, hd, hdRest, hstatus, -⟩ := hdecrypt zeroBlock zeroBlock whole out out 0#64 0#64
    (by decide) (by decide) (by decide) (by decide) (by decide)
  exact ⟨⟨e, eFront, eRest, he, heFront, heRest, hjoin⟩, d, dRest, hd, hdRest, hstatus⟩

end DesModesConcatenation
