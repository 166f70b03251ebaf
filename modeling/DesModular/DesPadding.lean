import DesModular.DesModesRoundTrip

/-!
# Padding as a grammar

`des_pkcs7_unpad` accepts the buffers that `des_pkcs7_pad` can produce and
reports the length of the one buffer each of them is the padding of.
-/
namespace DesPadding

open MachineWord ByteOrder ByteMemory DesModes DesModesSpec DesModeCalls DesModeBuffers
open DesModesRoundTrip
open DesApi (Size DesStatus)

/-- `des_pkcs7_pad` from one buffer to another. -/
def padBuffers (data out : Buffer) (outLen : Size) : Option Outcome :=
  let b : Buffers := ⟨data, data, data, out⟩
  (desPkcs7Pad b.memory b.args.data b.args.dataLen b.args.out b.args.outCap outLen).map b.outcome

/-- `des_pkcs7_unpad` of a buffer. -/
def unpadBuffer (data : Buffer) (outLen : Size) : Option Outcome :=
  let b : Buffers := ⟨data, data, data, data⟩
  (desPkcs7Unpad b.memory b.args.out b.args.outCap outLen).map b.outcome

/-- Some call of `pad` with this data succeeds and leaves `padded` in the bytes it
reports. -/
def Pads (data padded : Buffer) : Prop :=
  ∃ out outLen e, padBuffers data out outLen = some e ∧ e.status = .ok ∧
    e.out.take e.outLen.toNat = padded

/-! ## Padding -/

theorem padBuffers_small {data out : Buffer} (h : out.len < desPaddedLen data.len)
    (outLen : Size) : ∃ e, padBuffers data out outLen = some e ∧ e.status = .errBufferTooSmall := by
  let b : Buffers := ⟨data, data, data, out⟩
  have hcall : desPkcs7Pad b.memory b.args.data b.args.dataLen b.args.out b.args.outCap outLen =
      some ⟨.errBufferTooSmall, b.memory, outLen⟩ := desPkcs7Pad_small h outLen
  exact ⟨_, congrArg (Option.map b.outcome) hcall, rfl⟩

theorem padBuffers_wrap {data out : Buffer} (h : 2 ^ 64 ≤ paddedLength data) (outLen : Size) :
    padBuffers data out outLen = none := by
  let b : Buffers := ⟨data, data, data, out⟩
  have hdataLen : b.args.dataLen.toNat = data.bytes.length := data.toNat_len
  have hcall : desPkcs7Pad b.memory b.args.data b.args.dataLen b.args.out b.args.outCap outLen =
      none := desPkcs7Pad_wrap (by rw [hdataLen]; exact h)
    (Nat.lt_of_lt_of_le out.fits (Nat.le_add_left _ _)) b.args.outCap outLen
  exact congrArg (Option.map b.outcome) hcall

/-- With room for the padded length, `out` starts with the padded data. -/
theorem padBuffers_ok {data out : Buffer} (hwrap : paddedLength data < 2 ^ 64)
    (hcap : paddedLength data ≤ out.bytes.length) (outLen : Size) :
    padBuffers data out outLen =
      some ⟨.ok, out.overwrite (Pkcs7.pad 8 data.bytes), desPaddedLen data.len⟩ := by
  let b : Buffers := ⟨data, data, data, out⟩
  have hdataLen : b.args.dataLen.toNat = data.bytes.length := data.toNat_len
  have hv := valid_args .ecb b
  have hcall := desPkcs7Pad_ok (by rw [hdataLen]; exact hwrap)
    (by rw [hdataLen]; exact out.toNat_len ▸ hcap) hv.data hv.out (.inl (by rintro ⟨⟩)) outLen
  have hdata : b.memory.bytes b.args.data data.bytes.length = data.bytes :=
    bytes_region b .data rfl
  rw [hdataLen, hdata] at hcall
  refine (congrArg (Option.map b.outcome) hcall).trans ?_
  rw [Option.map_some, Buffers.outcome]
  congr 2
  apply Buffer.ext
  exact bytes_write_out b (length_padded data ▸ hcap)

/-- Any sufficient capacity will do. -/
theorem padBuffers_of_pad {data padded out : Buffer} (h : padded.bytes = Pkcs7.pad 8 data.bytes)
    (hcap : padded.bytes.length ≤ out.bytes.length) (outLen : Size) :
    ∃ e, padBuffers data out outLen = some e ∧ e.status = .ok ∧ e.outLen = padded.len ∧
      e.out.take e.outLen.toNat = padded := by
  have hlen : padded.bytes.length = paddedLength data := by
    rw [h, length_padded]
  have hwrap : paddedLength data < 2 ^ 64 := hlen ▸ padded.fits
  have hpadded := length_padded data
  refine ⟨_, padBuffers_ok hwrap (hlen ▸ hcap) outLen, rfl, ?_, ?_⟩
  · apply BitVec.eq_of_toNat_eq
    rw [toNat_paddedLen hwrap, Buffer.toNat_len, hlen]
  · apply Buffer.ext
    simp only [toNat_paddedLen hwrap]
    rw [take_overwrite out (by omega) (by omega), h]
    exact List.take_of_length_le (by omega)

theorem pads_iff (data padded : Buffer) :
    Pads data padded ↔ padded.bytes = Pkcs7.pad 8 data.bytes := by
  constructor
  · rintro ⟨out, outLen, e, he, hok, hpadded⟩
    by_cases hwrap : paddedLength data < 2 ^ 64
    · by_cases hcap : desPaddedLen data.len ≤ out.len
      · have hroom := (paddedLen_le_iff hwrap out).mp hcap
        have hlen := length_padded data
        obtain rfl := Option.some.inj (he.symm.trans (padBuffers_ok hwrap hroom outLen))
        simp only [toNat_paddedLen hwrap] at hpadded
        rw [← hpadded, take_overwrite out (by omega) (by omega)]
        exact List.take_of_length_le (by omega)
      · obtain ⟨e', he', hsmall⟩ := padBuffers_small (BitVec.not_le.mp hcap) outLen
        obtain rfl := Option.some.inj (he.symm.trans he')
        rw [hok] at hsmall
        cases hsmall
    · rw [padBuffers_wrap (Nat.le_of_not_lt hwrap)] at he
      cases he
  · intro h
    obtain ⟨e, he, hok, -, hpadded⟩ := padBuffers_of_pad h (Nat.le_refl _) 0#64
    exact ⟨padded, 0#64, e, he, hok, hpadded⟩

/-! ## Unpadding -/

theorem unpadBuffer_partial {data : Buffer} (h : PartialBlocks data.len) (outLen : Size) :
    unpadBuffer data outLen = some ⟨.errInvalidLength, data, outLen⟩ := by
  let b : Buffers := ⟨data, data, data, data⟩
  have hcall : desPkcs7Unpad b.memory b.args.out b.args.outCap outLen =
      some ⟨.errInvalidLength, b.memory, outLen⟩ := if_pos h
  have hdata : b.memory.bytes ⟨.out, 0⟩ data.bytes.length = data.bytes := bytes_region b .out rfl
  refine (congrArg (Option.map b.outcome) hcall).trans ?_
  rw [Option.map_some, Buffers.outcome]
  congr 2
  exact Buffer.ext hdata

theorem unpadBuffer_whole {data : Buffer} {k : Nat} (h : data.bytes.length = 8 * (k + 1))
    (outLen : Size) :
    unpadBuffer data outLen = some (match Pkcs7.unpad 8 data.bytes with
      | some n => ⟨.ok, data, BitVec.ofNat 64 n⟩
      | none => ⟨.errInvalidPadding, data, outLen⟩) := by
  let b : Buffers := ⟨data, data, data, data⟩
  have hdataLen : b.args.outCap.toNat = data.bytes.length := data.toNat_len
  have hdata : b.memory.bytes b.args.out data.bytes.length = data.bytes := bytes_region b .out rfl
  have hcall := desPkcs7Unpad_eq (hdataLen.trans h) (valid_args .ecb b).out outLen
  rw [hdataLen, hdata] at hcall
  refine (congrArg (Option.map b.outcome) hcall).trans ?_
  rw [Option.map_some, Buffers.outcome]
  cases hunpad : Pkcs7.unpad 8 data.bytes with
  | some n =>
    rw [unpadResult_some hunpad]
    congr 2
    exact Buffer.ext hdata
  | none =>
    rw [unpadResult_none hunpad]
    congr 2
    exact Buffer.ext hdata

/-! ## The grammar -/

/-- What is the padding of something is not empty and made of whole blocks. -/
theorem Pads.whole {data padded : Buffer} (h : Pads data padded) :
    ∃ k, padded.bytes.length = 8 * (k + 1) := by
  rw [pads_iff] at h
  exact ⟨data.bytes.length / 8, by rw [h, length_padded, paddedLength_eq]⟩

theorem pads_take_iff {d : Buffer} {k : Nat} (hlen : d.bytes.length = 8 * (k + 1)) (n : Nat) :
    n ≤ d.bytes.length ∧ Pads (d.take n) d ↔ Pkcs7.unpad 8 d.bytes = some n := by
  constructor
  · rintro ⟨hn, hpads⟩
    rw [pads_iff] at hpads
    have hunpad := Pkcs7.unpad_pad (by decide : 0 < 8) (by decide) (d.take n).bytes
    rw [← hpads, Buffer.bytes_take, List.length_take, Nat.min_eq_left hn] at hunpad
    exact hunpad
  · intro hunpad
    obtain ⟨hn, hpad⟩ := Pkcs7.pad_of_unpad hlen hunpad
    exact ⟨hn, (pads_iff _ _).mpr hpad.symm⟩

theorem pads_take_unique {d : Buffer} {n n' : Nat} (hn : n ≤ d.bytes.length)
    (hn' : n' ≤ d.bytes.length) (h : Pads (d.take n) d) (h' : Pads (d.take n') d) : n = n' := by
  obtain ⟨k, hlen⟩ := h.whole
  have hunpad := (pads_take_iff hlen n).mp ⟨hn, h⟩
  rw [(pads_take_iff hlen n').mp ⟨hn', h'⟩] at hunpad
  exact (Option.some.inj hunpad).symm

/-- How a result of `unpad` relates to the grammar. -/
structure UnpadContract (d : Buffer) (outLen : Size) (r : Outcome) : Prop where
  unchanged : r.out = d
  accepts : ∀ n : Nat, r.status = .ok ∧ r.outLen.toNat = n ↔
    n ≤ d.bytes.length ∧ Pads (d.take n) d
  invalidLength : r.status = .errInvalidLength ↔ d.bytes.length = 0 ∨ d.bytes.length % 8 ≠ 0
  invalidPadding : r.status = .errInvalidPadding ↔
    ¬(d.bytes.length = 0 ∨ d.bytes.length % 8 ≠ 0) ∧
      ¬∃ n ≤ d.bytes.length, Pads (d.take n) d
  outLen : r.status ≠ .ok → r.outLen = outLen

theorem unpadContract_partial {d : Buffer} (h : PartialBlocks d.len) (outLen : Size) :
    UnpadContract d outLen ⟨.errInvalidLength, d, outLen⟩ where
  unchanged := rfl
  accepts n := by
    refine ⟨nofun, fun hpads => ?_⟩
    obtain ⟨k, hk⟩ := hpads.2.whole
    rw [partialBlocks_len] at h
    omega
  invalidLength := ⟨fun _ => (partialBlocks_len d).mp h, fun _ => rfl⟩
  invalidPadding := ⟨nofun, fun hs => absurd ((partialBlocks_len d).mp h) hs.1⟩
  outLen _ := rfl

theorem unpadContract_ok {d : Buffer} {k n : Nat} (hlen : d.bytes.length = 8 * (k + 1))
    (h : Pkcs7.unpad 8 d.bytes = some n) (outLen : Size) :
    UnpadContract d outLen ⟨.ok, d, BitVec.ofNat 64 n⟩ where
  unchanged := rfl
  accepts n' := by
    have hn : n < 2 ^ 64 := Nat.lt_of_le_of_lt (Pkcs7.pad_of_unpad hlen h).1 d.fits
    rw [pads_take_iff hlen, h, BitVec.toNat_ofNat, Nat.mod_eq_of_lt hn]
    exact ⟨fun hs => congrArg some hs.2, fun hs => ⟨rfl, Option.some.inj hs⟩⟩
  invalidLength := ⟨nofun, fun hs => by omega⟩
  invalidPadding := by
    obtain ⟨hn, hpads⟩ := (pads_take_iff hlen n).mpr h
    exact ⟨nofun, fun hs => absurd ⟨n, hn, hpads⟩ hs.2⟩
  outLen hs := absurd rfl hs

theorem unpadContract_invalid {d : Buffer} {k : Nat} (hlen : d.bytes.length = 8 * (k + 1))
    (h : Pkcs7.unpad 8 d.bytes = none) (outLen : Size) :
    UnpadContract d outLen ⟨.errInvalidPadding, d, outLen⟩ where
  unchanged := rfl
  accepts n := by
    rw [pads_take_iff hlen, h]
    exact ⟨nofun, nofun⟩
  invalidLength := ⟨nofun, fun hs => by omega⟩
  invalidPadding := by
    refine ⟨fun _ => ⟨by omega, ?_⟩, fun _ => rfl⟩
    rintro ⟨n, hn, hpads⟩
    have hunpad := (pads_take_iff hlen n).mp ⟨hn, hpads⟩
    rw [h] at hunpad
    cases hunpad
  outLen _ := rfl

theorem unpad_contract (d : Buffer) (outLen : Size) :
    ∃ r, unpadBuffer d outLen = some r ∧ UnpadContract d outLen r := by
  by_cases hpartial : PartialBlocks d.len
  · exact ⟨_, unpadBuffer_partial hpartial outLen, unpadContract_partial hpartial outLen⟩
  · obtain ⟨k, hk⟩ := not_partialBlocks_iff.mp hpartial
    rw [Buffer.toNat_len] at hk
    refine ⟨_, unpadBuffer_whole hk outLen, ?_⟩
    cases hunpad : Pkcs7.unpad 8 d.bytes with
    | some n => exact unpadContract_ok hk hunpad outLen
    | none => exact unpadContract_invalid hk hunpad outLen

/-- What was padded is recovered. -/
theorem unpadBuffer_of_pad {message padded : Buffer}
    (h : padded.bytes = Pkcs7.pad 8 message.bytes) (outLen : Size) :
    unpadBuffer padded outLen = some ⟨.ok, padded, message.len⟩ := by
  have hwhole : padded.bytes.length = 8 * (message.bytes.length / 8 + 1) := by
    rw [h, length_padded, paddedLength_eq]
  have hunpad : Pkcs7.unpad 8 padded.bytes = some message.bytes.length := by
    rw [h]
    exact Pkcs7.unpad_pad (by decide) (by decide) message.bytes
  rw [unpadBuffer_whole hwhole, hunpad]
  rfl

/-- `unpad` accepts exactly what `pad` produces, says where the data ends, and classifies
everything else; and it accepts every padded message. -/
theorem unpad_accepts_exactly (d : Buffer) (outLen : Size) :
    (∃ r, unpadBuffer d outLen = some r ∧ UnpadContract d outLen r) ∧
    (∀ n n', n ≤ d.bytes.length → n' ≤ d.bytes.length → Pads (d.take n) d →
      Pads (d.take n') d → n = n') ∧
    (∀ data, Pads data d → ∀ (out : Buffer) (outLen' : Size), d.bytes.length ≤ out.bytes.length →
      ∃ e, padBuffers data out outLen' = some e ∧ e.status = .ok ∧ e.outLen = d.len ∧
        e.out.take e.outLen.toNat = d) ∧
    ∀ (message out : Buffer) (outLen' : Size),
      message.bytes.length + Pkcs7.padCount 8 message.bytes.length < 2 ^ 64 →
      desPaddedLen message.len ≤ out.len →
      ∃ e, padBuffers message out outLen' = some e ∧ e.status = .ok ∧
        e.outLen = desPaddedLen message.len ∧
        ∃ u, unpadBuffer (e.out.take e.outLen.toNat) outLen = some u ∧ u.status = .ok ∧
          u.outLen = message.len ∧ u.out.take message.bytes.length = message := by
  refine ⟨unpad_contract d outLen, ?_, ?_, ?_⟩
  · intro n n' hn hn' h h'
    exact pads_take_unique hn hn' h h'
  · intro data h out outLen' hcap
    exact padBuffers_of_pad ((pads_iff data d).mp h) hcap outLen'
  · intro message out outLen' hwrap hcap
    have hroom := (paddedLen_le_iff hwrap out).mp hcap
    have hlen := length_padded message
    let padded : Buffer := ⟨Pkcs7.pad 8 message.bytes, hlen ▸ hwrap⟩
    have hpadded : padded.bytes = Pkcs7.pad 8 message.bytes := rfl
    obtain ⟨e, he, hok, houtLen, htake⟩ := padBuffers_of_pad hpadded (hlen ▸ hroom) outLen'
    refine ⟨e, he, hok, ?_, ⟨.ok, padded, message.len⟩, ?_, rfl, rfl, ?_⟩
    · apply BitVec.eq_of_toNat_eq
      rw [houtLen, Buffer.toNat_len, toNat_paddedLen hwrap, hlen]
    · rw [htake]
      exact unpadBuffer_of_pad hpadded outLen
    · exact Buffer.ext (List.take_left' rfl)

end DesPadding
