import DesModular.DesModesPropagation
import Mathlib.Data.Set.Card

/-!
# What the padding check tells

`des_cbc_decrypt` adds the block before the last one, or the IV, to the last deciphered
block before it looks at the padding. A caller who can change those bytes and sees only
the status learns the deciphered block from it.
-/
namespace PaddingOracle

open MachineWord ByteOrder DesBlock DesModeCalls DesModeBuffers DesModesPropagation
open DesModesRoundTrip

/-! ## Single bytes -/

theorem getD_xorBytes {a b : Bytes} {i : Nat} (ha : i < a.length) (hb : i < b.length) :
    (xorBytes a b).getD i 0#8 = a.getD i 0#8 ^^^ b.getD i 0#8 := by
  have h : i < (xorBytes a b).length := by
    rw [length_xorBytes]
    omega
  rw [List.getD_eq_getElem _ _ h, List.getD_eq_getElem _ _ ha, List.getD_eq_getElem _ _ hb]
  exact List.getElem_zipWith

theorem getD_set_self {a : Bytes} {i : Nat} (h : i < a.length) (v : U8) :
    (a.set i v).getD i 0#8 = v := by
  rw [List.getD_eq_getElem _ _ (by rwa [List.length_set]), List.getElem_set_self]

theorem getD_set_ne {a : Bytes} {i j : Nat} (h : i ≠ j) (v : U8) :
    (a.set i v).getD j 0#8 = a.getD j 0#8 := by
  rw [List.getD_eq_getElem?_getD, List.getElem?_set_ne h, List.getD_eq_getElem?_getD]

def Buffer.set (b : Buffer) (i : Nat) (v : U8) : Buffer :=
  ⟨b.bytes.set i v, by rw [List.length_set]; exact b.fits⟩

@[simp] theorem Buffer.bytes_set (b : Buffer) (i : Nat) (v : U8) :
    (Buffer.set b i v).bytes = b.bytes.set i v := rfl

/-! ## The last block -/

/-- The block before the last one; before the only block comes the IV. -/
def previousBlock (b : Buffers) : Bytes :=
  if b.data.bytes.length = 8 then b.iv.bytes
  else blockAt b.data.bytes (b.data.bytes.length / 8 - 2)

/-- The last block, deciphered but not yet added to the one before. -/
def decipheredBlock (b : Buffers) : Bytes :=
  unpack 8 (desDecryptBlock (pack (blockAt b.data.bytes (b.data.bytes.length / 8 - 1)))
    (pack b.key.bytes))

/-- Byte `i` of the block before the last one changed to `v`. -/
def changePrevious (b : Buffers) (i : Nat) (v : U8) : Buffers :=
  if b.data.bytes.length = 8 then { b with iv := Buffer.set b.iv i v }
  else { b with data := Buffer.set b.data (b.data.bytes.length - 16 + i) v }

/-- The last block of the plaintext. -/
def lastPlain (b : Buffers) : Bytes := xorBytes (decipheredBlock b) (previousBlock b)

/-- Buffers of a CBC decryption that gets to the padding check. -/
structure Checked (b : Buffers) : Prop where
  key : b.key.bytes.length = 8
  iv : b.iv.bytes.length = 8
  blocks : ∃ k, b.data.bytes.length = 8 * (k + 1)
  room : b.data.bytes.length ≤ b.out.bytes.length

variable {b : Buffers}

theorem Checked.length_previous (h : Checked b) : (previousBlock b).length = 8 := by
  obtain ⟨k, hk⟩ := h.blocks
  unfold previousBlock
  split
  · exact h.iv
  · exact length_blockAt (by omega)

@[simp] theorem length_decipheredBlock (b : Buffers) : (decipheredBlock b).length = 8 :=
  length_unpack 8 _

theorem Checked.plainBlock_last (h : Checked b) :
    plainBlock .cbc b.key.bytes b.iv.bytes b.data.bytes (b.data.bytes.length / 8 - 1) =
      lastPlain b := by
  obtain ⟨k, hk⟩ := h.blocks
  have hfirst : b.data.bytes.length / 8 - 1 = 0 ↔ b.data.bytes.length = 8 := by omega
  have hsub : b.data.bytes.length / 8 - 1 - 1 = b.data.bytes.length / 8 - 2 := by omega
  simp only [plainBlock, lastPlain, decipheredBlock, previousBlock, hfirst, hsub]

@[simp] theorem Checked.length_lastPlain (h : Checked b) : (lastPlain b).length = 8 := by
  rw [lastPlain, length_xorBytes, length_decipheredBlock, h.length_previous]
  rfl

/-- The result of the call depends on the last block alone, and tells the number of
padding bytes. -/
theorem Checked.decrypt_last (h : Checked b) (outLen : DesApi.Size) :
    ∃ d, decryptBuffers .cbc b outLen = some d ∧
      (d.status = .ok ↔
        (Pkcs7.unpad 8 (lastPlain b)).isSome) ∧
      ∀ t, 0 < t → t ≤ 8 → (d.status = .ok ∧ d.outLen.toNat + t = b.data.bytes.length ↔
        Pkcs7.unpad 8 (lastPlain b) = some (8 - t)) := by
  obtain ⟨k, hk⟩ := h.blocks
  obtain ⟨d, hd, hblocks, hstatus, hresult⟩ :=
    decrypt_call .cbc h.key h.iv hk (hk ▸ h.room) outLen
  have hlast : blockAt d.out.bytes k = lastPlain b := by
    have hindex : b.data.bytes.length / 8 - 1 = k := by omega
    rw [hblocks k (Nat.lt_succ_self k), ← h.plainBlock_last, hindex]
  rw [hlast] at hstatus hresult
  refine ⟨d, hd, ?_⟩
  cases hunpad : Pkcs7.unpad 8 (lastPlain b) with
  | none =>
    rw [hunpad] at hstatus
    refine ⟨by simp [hstatus], ?_⟩
    intro t _ _
    simp [hstatus]
  | some n =>
    obtain ⟨s, hs, hs8, hn⟩ := Pkcs7.exists_of_unpad hunpad
    have hout := hresult n hunpad
    rw [hunpad] at hstatus
    rw [h.length_lastPlain] at hn
    refine ⟨by simp [hstatus], ?_⟩
    intro t ht ht8
    simp only [hstatus, Option.isSome_some, if_true, Option.some.injEq, true_and]
    omega

/-- The call says that the padding is right. -/
def Accepted (b : Buffers) (outLen : DesApi.Size) : Prop :=
  ∃ d, decryptBuffers .cbc b outLen = some d ∧ d.status = .ok

/-- The call says that the padding is right and that there are `t` bytes of it. -/
def Reports (b : Buffers) (outLen : DesApi.Size) (t : Nat) : Prop :=
  ∃ d, decryptBuffers .cbc b outLen = some d ∧ d.status = .ok ∧
    d.outLen.toNat + t = b.data.bytes.length

/-- `t` bytes are reported where the last `t` have the value `t`. -/
theorem Checked.reports_iff (h : Checked b) (outLen : DesApi.Size) {t : Nat} (ht : 0 < t)
    (ht8 : t ≤ 8) : Reports b outLen t ↔
      ∀ i < 8, 8 - t ≤ i → (lastPlain b).getD i 0#8 = BitVec.ofNat 8 t := by
  obtain ⟨d, hd, -, hreports⟩ := h.decrypt_last outLen
  have hbytes := Pkcs7.unpad_eq_some_iff_bytes (by decide : 8 < 256) ht ht8
    (h.length_lastPlain).ge
  rw [h.length_lastPlain] at hbytes
  rw [← hbytes, ← hreports t ht ht8]
  constructor
  · rintro ⟨d', hd', hreport⟩
    obtain rfl := Option.some.inj (hd.symm.trans hd')
    exact hreport
  · intro hreport
    exact ⟨d, hd, hreport⟩

theorem Checked.accepted_iff (h : Checked b) (outLen : DesApi.Size) :
    Accepted b outLen ↔ ∃ t, 0 < t ∧ t ≤ 8 ∧ Reports b outLen t := by
  constructor
  · rintro ⟨d, hd, hok⟩
    obtain ⟨d', hd', haccepts, hreports⟩ := h.decrypt_last outLen
    obtain rfl := Option.some.inj (hd.symm.trans hd')
    obtain ⟨n, hn⟩ := Option.isSome_iff_exists.mp (haccepts.mp hok)
    obtain ⟨t, ht, ht8, hsub⟩ := Pkcs7.exists_of_unpad hn
    rw [h.length_lastPlain] at hsub
    rw [hsub, ← hreports t ht ht8] at hn
    exact ⟨t, ht, ht8, d, hd, hn⟩
  · rintro ⟨t, -, -, d, hd, hok, -⟩
    exact ⟨d, hd, hok⟩

/-! ## Changing the block before -/

theorem Checked.change (h : Checked b) (i : Nat) (v : U8) : Checked (changePrevious b i v) := by
  unfold changePrevious
  split
  · exact ⟨h.key, by simpa using h.iv, h.blocks, h.room⟩
  · exact ⟨h.key, h.iv, by simpa using h.blocks, by simpa using h.room⟩

theorem Checked.deciphered_change (h : Checked b) {i : Nat} (hi : i < 8) (v : U8) :
    decipheredBlock (changePrevious b i v) = decipheredBlock b := by
  obtain ⟨k, hk⟩ := h.blocks
  unfold changePrevious
  split
  · rfl
  · have hdrop : b.data.bytes.length - 16 + i < 8 * (b.data.bytes.length / 8 - 1) := by omega
    simp only [decipheredBlock, Buffer.bytes_set, List.length_set, blockAt,
      List.drop_set_of_lt hdrop]

theorem Checked.previous_change (h : Checked b) {i : Nat} (hi : i < 8) (v : U8) :
    previousBlock (changePrevious b i v) = (previousBlock b).set i v := by
  obtain ⟨k, hk⟩ := h.blocks
  by_cases hfirst : b.data.bytes.length = 8
  · simp only [changePrevious, previousBlock, if_pos hfirst, Buffer.bytes_set]
  · have hdrop : ¬b.data.bytes.length - 16 + i < 8 * (b.data.bytes.length / 8 - 2) := by omega
    have hindex : b.data.bytes.length - 16 + i - 8 * (b.data.bytes.length / 8 - 2) = i := by omega
    simp only [changePrevious, previousBlock, if_neg hfirst, Buffer.bytes_set, List.length_set,
      blockAt, List.drop_set, if_neg hdrop, hindex, List.take_set]

/-- A changed byte changes the same byte of the last block of the plaintext. -/
theorem Checked.plain_change (h : Checked b) {i j : Nat} (hi : i < 8) (hj : j < 8) (v : U8) :
    (lastPlain (changePrevious b i v)).getD j 0#8 =
      if i = j then (decipheredBlock b).getD j 0#8 ^^^ v else (lastPlain b).getD j 0#8 := by
  have hprevious := h.length_previous
  have hdeciphered : j < (decipheredBlock b).length := by rwa [length_decipheredBlock]
  rw [lastPlain, h.deciphered_change hi, h.previous_change hi,
    getD_xorBytes hdeciphered (by rw [List.length_set]; omega)]
  split
  next hij => rw [hij, getD_set_self (by omega)]
  next hij => rw [getD_set_ne hij, lastPlain, getD_xorBytes hdeciphered (by omega)]

theorem ofNat_inj {s t : Nat} (hs : s ≤ 8) (ht : t ≤ 8) (h : BitVec.ofNat 8 s = BitVec.ofNat 8 t) :
    s = t := by
  have hvalue := congrArg BitVec.toNat h
  simp only [BitVec.toNat_ofNat] at hvalue
  omega

/-- The bytes behind byte `8 - t` of the plaintext have the value `t` already. -/
def TailSet (b : Buffers) (t : Nat) : Prop :=
  ∀ i < 8, 8 - t < i → (lastPlain b).getD i 0#8 = BitVec.ofNat 8 t

/-- With the tail set, one value of the byte before it gives `t` bytes of padding. -/
theorem Checked.reports_change (h : Checked b) (outLen : DesApi.Size) {t : Nat} (ht : 0 < t)
    (ht8 : t ≤ 8) (htail : TailSet b t) (v : U8) :
    Reports (changePrevious b (8 - t) v) outLen t ↔
      v = (decipheredBlock b).getD (8 - t) 0#8 ^^^ BitVec.ofNat 8 t := by
  have hplace : 8 - t < 8 := by omega
  rw [(h.change _ v).reports_iff outLen ht ht8, ← xor_eq_iff_right_eq]
  constructor
  · intro hbytes
    have hbyte := hbytes (8 - t) hplace (Nat.le_refl _)
    rwa [h.plain_change hplace hplace, if_pos rfl] at hbyte
  · intro hvalue i hi hle
    rw [h.plain_change hplace hi]
    split
    next hi' => rwa [← hi']
    next hi' => exact htail i hi (by omega)

/-- With a tail of one byte or more, no other padding is possible. -/
theorem Checked.accepted_change (h : Checked b) (outLen : DesApi.Size) {t : Nat} (ht : 2 ≤ t)
    (ht8 : t ≤ 8) (htail : TailSet b t) (v : U8) :
    Accepted (changePrevious b (8 - t) v) outLen ↔
      v = (decipheredBlock b).getD (8 - t) 0#8 ^^^ BitVec.ofNat 8 t := by
  have hplace : 8 - t < 8 := by omega
  rw [← h.reports_change outLen (by omega) ht8 htail v, (h.change _ v).accepted_iff]
  constructor
  · rintro ⟨s, hs, hs8, hreports⟩
    -- the last byte still has the value it was set to
    have hlast := ((h.change _ v).reports_iff outLen hs hs8).mp hreports 7 (by decide) (by omega)
    rw [h.plain_change hplace (by decide), if_neg (by omega), htail 7 (by decide) (by omega)]
      at hlast
    obtain rfl := ofNat_inj ht8 hs8 hlast
    exact hreports
  · intro hreports
    exact ⟨t, by omega, ht8, hreports⟩

/-- Of the last byte two values at most are accepted. -/
theorem Checked.accepted_last (h : Checked b) (outLen : DesApi.Size) {v : U8}
    (haccepted : Accepted (changePrevious b 7 v) outLen) :
    v = (decipheredBlock b).getD 7 0#8 ^^^ 1#8 ∨
      v = (decipheredBlock b).getD 7 0#8 ^^^ (lastPlain b).getD 6 0#8 := by
  obtain ⟨t, ht, ht8, hreports⟩ := ((h.change 7 v).accepted_iff outLen).mp haccepted
  have hbytes := ((h.change 7 v).reports_iff outLen ht ht8).mp hreports
  have hlast := hbytes 7 (by decide) (by omega)
  rw [h.plain_change (by decide) (by decide), if_pos rfl, xor_eq_iff_right_eq] at hlast
  by_cases hone : t = 1
  · left
    rw [hlast, hone]
  · right
    have hbefore := hbytes 6 (by decide) (by omega)
    rw [h.plain_change (by decide) (by decide), if_neg (by decide)] at hbefore
    rw [hlast, hbefore]

/-- The padding oracle. For every ciphertext, one or two of the 256 values of the last byte
before the last block are accepted, among them the one that turns the last byte of the
plaintext into 1. Once the last `t - 1` bytes of the plaintext have the value `t`, the
answers to changes of the byte before them give away the deciphered byte: one value is
reported as `t` bytes of padding, and from `t = 2` on no other is even accepted. -/
theorem padding_oracle (b : Buffers) (h : Checked b) (outLen : DesApi.Size) :
    (1 ≤ {v : U8 | Accepted (changePrevious b 7 v) outLen}.ncard ∧
      {v : U8 | Accepted (changePrevious b 7 v) outLen}.ncard ≤ 2) ∧
    Accepted (changePrevious b 7 ((decipheredBlock b).getD 7 0#8 ^^^ 1#8)) outLen ∧
    ∀ t, 1 ≤ t → t ≤ 8 → TailSet b t → ∀ v,
      (Reports (changePrevious b (8 - t) v) outLen t ↔
        v = (decipheredBlock b).getD (8 - t) 0#8 ^^^ BitVec.ofNat 8 t) ∧
      (2 ≤ t → (Accepted (changePrevious b (8 - t) v) outLen ↔
        v = (decipheredBlock b).getD (8 - t) 0#8 ^^^ BitVec.ofNat 8 t)) := by
  have hone : Accepted (changePrevious b 7 ((decipheredBlock b).getD 7 0#8 ^^^ 1#8)) outLen := by
    have htail : TailSet b 1 := fun i hi hlt => absurd hi (by omega)
    rw [(h.change _ _).accepted_iff]
    exact ⟨1, by decide, by decide,
      (h.reports_change outLen (by decide) (by decide) htail _).mpr rfl⟩
  have hsubset : {v : U8 | Accepted (changePrevious b 7 v) outLen} ⊆
      {(decipheredBlock b).getD 7 0#8 ^^^ 1#8,
        (decipheredBlock b).getD 7 0#8 ^^^ (lastPlain b).getD 6 0#8} :=
    fun v hv => h.accepted_last outLen hv
  have hfinite := (Set.toFinite {(decipheredBlock b).getD 7 0#8 ^^^ 1#8,
    (decipheredBlock b).getD 7 0#8 ^^^ (lastPlain b).getD 6 0#8}).subset hsubset
  have hpair := Set.ncard_insert_le ((decipheredBlock b).getD 7 0#8 ^^^ 1#8)
    {(decipheredBlock b).getD 7 0#8 ^^^ (lastPlain b).getD 6 0#8}
  rw [Set.ncard_singleton] at hpair
  refine ⟨⟨?_, ?_⟩, hone, ?_⟩
  · exact (Set.ncard_pos hfinite).mpr ⟨_, hone⟩
  · exact (Set.ncard_le_ncard hsubset (Set.toFinite _)).trans hpair
  · intro t ht ht8 htail v
    exact ⟨h.reports_change outLen ht ht8 htail v,
      fun ht2 => h.accepted_change outLen ht2 ht8 htail v⟩

/-- Two blocks of zeros behind a zero IV. -/
def zeroCall : Buffers :=
  ⟨zeroBlock, zeroBlock, ⟨List.replicate 16 0#8, by decide⟩, ⟨List.replicate 16 0#8, by decide⟩⟩

theorem checked_zeroCall : Checked zeroCall := ⟨by decide, by decide, ⟨1, by decide⟩, by decide⟩

theorem padding_oracle_zeroCall :
    1 ≤ {v : U8 | Accepted (changePrevious zeroCall 7 v) 0#64}.ncard ∧
      {v : U8 | Accepted (changePrevious zeroCall 7 v) 0#64}.ncard ≤ 2 :=
  (padding_oracle zeroCall checked_zeroCall 0#64).1

/-! ## All answers together -/

/-- The first `n` bytes of the block before the last one replaced. -/
def withPrevious (b : Buffers) (bytes : Bytes) : Nat → Buffers
  | 0 => b
  | n + 1 => changePrevious (withPrevious b bytes n) n (bytes.getD n 0#8)

theorem Checked.withPrevious (h : Checked b) (bytes : Bytes) (n : Nat) (hn : n ≤ 8) :
    Checked (withPrevious b bytes n) ∧
      decipheredBlock (withPrevious b bytes n) = decipheredBlock b ∧
      ∀ j < n, (lastPlain (PaddingOracle.withPrevious b bytes n)).getD j 0#8 =
        (decipheredBlock b).getD j 0#8 ^^^ bytes.getD j 0#8 := by
  induction n with
  | zero => exact ⟨h, rfl, fun j hj => absurd hj (by omega)⟩
  | succ n ih =>
    obtain ⟨hchecked, hdeciphered, hplain⟩ := ih (by omega)
    refine ⟨hchecked.change _ _, ?_, ?_⟩
    · exact (hchecked.deciphered_change hn _).trans hdeciphered
    · intro j hj
      simp only [PaddingOracle.withPrevious]
      rw [hchecked.plain_change hn (by omega), hdeciphered]
      split
      next hnj => rw [hnj]
      next hnj => exact hplain j (by omega)

/-- The answer to a whole block put before the last one. -/
theorem Checked.answer_iff (h : Checked b) (bytes : Bytes) (outLen : DesApi.Size) :
    Accepted (PaddingOracle.withPrevious b bytes 8) outLen ↔
      ∃ t, 0 < t ∧ t ≤ 8 ∧ ∀ i < 8, 8 - t ≤ i →
        (decipheredBlock b).getD i 0#8 ^^^ bytes.getD i 0#8 = BitVec.ofNat 8 t := by
  obtain ⟨hchecked, -, hplain⟩ := h.withPrevious bytes 8 (Nat.le_refl 8)
  rw [hchecked.accepted_iff]
  constructor
  · rintro ⟨t, ht, ht8, hreports⟩
    refine ⟨t, ht, ht8, ?_⟩
    intro i hi hle
    rw [← hplain i hi]
    exact (hchecked.reports_iff outLen ht ht8).mp hreports i hi hle
  · rintro ⟨t, ht, ht8, hbytes⟩
    refine ⟨t, ht, ht8, (hchecked.reports_iff outLen ht ht8).mpr ?_⟩
    intro i hi hle
    rw [hplain i hi]
    exact hbytes i hi hle

variable {b' : Buffers} {outLen outLen' : DesApi.Size}

/-- The same answers make the last deciphered bytes equal: otherwise some accepted last
byte would need a second padding byte on the other side. -/
theorem last_of_answers (h : Checked b) (h' : Checked b')
    (hanswers : ∀ bytes : Bytes, bytes.length = 8 →
      Accepted (withPrevious b bytes 8) outLen → Accepted (withPrevious b' bytes 8) outLen') :
    (decipheredBlock b).getD 7 0#8 = (decipheredBlock b').getD 7 0#8 := by
  by_contra hne
  let last := (decipheredBlock b).getD 7 0#8 ^^^ 1#8
  let before := (decipheredBlock b').getD 6 0#8 ^^^ 9#8
  let bytes : Bytes := [0#8, 0#8, 0#8, 0#8, 0#8, 0#8, before, last]
  have haccepted : Accepted (withPrevious b bytes 8) outLen := by
    rw [h.answer_iff]
    refine ⟨1, by decide, by decide, ?_⟩
    intro i hi hle
    obtain rfl : i = 7 := by omega
    exact (xor_eq_iff_right_eq _ _ _).mpr rfl
  obtain ⟨t, ht, ht8, hbytes⟩ := (h'.answer_iff bytes outLen').mp (hanswers bytes rfl haccepted)
  have hlast : (decipheredBlock b').getD 7 0#8 ^^^ last = BitVec.ofNat 8 t :=
    hbytes 7 (by decide) (by omega)
  by_cases hone : t = 1
  · subst hone
    rw [xor_eq_iff_right_eq] at hlast
    exact hne ((BitVec.xor_left_inj (1#8)).mp hlast)
  · have hbefore : (decipheredBlock b').getD 6 0#8 ^^^ before = BitVec.ofNat 8 t :=
      hbytes 6 (by decide) (by omega)
    rw [xor_eq_iff_right_eq, BitVec.xor_right_inj] at hbefore
    have hvalue := congrArg BitVec.toNat hbefore
    simp only [BitVec.toNat_ofNat] at hvalue
    omega

/-- Seen from the status alone, the deciphered block is no secret. -/
theorem answers_determine_block (b b' : Buffers) (h : Checked b) (h' : Checked b')
    (outLen outLen' : DesApi.Size) :
    (∀ bytes : Bytes, bytes.length = 8 →
      (Accepted (withPrevious b bytes 8) outLen ↔ Accepted (withPrevious b' bytes 8) outLen')) ↔
      decipheredBlock b = decipheredBlock b' := by
  constructor
  · intro hanswers
    have hlast := last_of_answers h h' fun bytes hbytes => (hanswers bytes hbytes).mp
    let bytes : Bytes := xorBytes (decipheredBlock b) (List.replicate 8 8#8)
    have hxor : ∀ i < 8, bytes.getD i 0#8 = (decipheredBlock b).getD i 0#8 ^^^ 8#8 := by
      intro i hi
      rw [getD_xorBytes (by rwa [length_decipheredBlock]) (by rwa [List.length_replicate]),
        List.getD_replicate _ hi]
    have haccepted : Accepted (withPrevious b bytes 8) outLen := by
      rw [h.answer_iff]
      refine ⟨8, by decide, by decide, ?_⟩
      intro i hi _
      exact (xor_eq_iff_right_eq _ _ _).mpr (hxor i hi)
    obtain ⟨t, ht, ht8, hbytes⟩ :=
      (h'.answer_iff bytes outLen').mp ((hanswers bytes (by simp [bytes])).mp haccepted)
    have hseven := hbytes 7 (by decide) (by omega)
    rw [hxor 7 (by decide), ← hlast, xor_cancel_left] at hseven
    obtain rfl := ofNat_inj (Nat.le_refl 8) ht8 hseven
    apply List.ext_getElem (by simp)
    intro i h1 h2
    rw [length_decipheredBlock] at h1
    have hbyte := hbytes i h1 (by omega)
    rw [hxor i h1, xor_eq_iff_right_eq, BitVec.xor_left_inj] at hbyte
    rwa [List.getD_eq_getElem, List.getD_eq_getElem] at hbyte
  · intro hequal bytes _
    rw [h.answer_iff, h'.answer_iff, hequal]

/-- The same ciphertext under two keys: some block put before the last one tells them apart. -/
theorem answers_determine_block_keys :
    ¬∀ bytes : Bytes, bytes.length = 8 → (Accepted (withPrevious zeroCall bytes 8) 0#64 ↔
      Accepted (withPrevious { zeroCall with key := ⟨List.replicate 8 2#8, by decide⟩ } bytes 8)
        0#64) := by
  intro hanswers
  have h : Checked { zeroCall with key := ⟨List.replicate 8 2#8, by decide⟩ } :=
    ⟨by decide, by decide, ⟨1, by decide⟩, by decide⟩
  have hequal := (answers_determine_block _ _ checked_zeroCall h 0#64 0#64).mp hanswers
  revert hequal
  decide +kernel

end PaddingOracle
