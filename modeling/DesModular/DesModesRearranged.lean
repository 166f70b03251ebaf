import DesModular.DesModesPropagation

/-!
# Rearranged ciphertexts

Whole blocks of a ciphertext, put together in any order, left out or repeated. ECB
decrypts every block to what it was before, CBC whenever the block before it is the same,
and the padding check sees nothing but the last block.
-/
namespace DesModesRearranged

open MachineWord ByteOrder DesBlock DesModeCalls DesModeBuffers DesModesPropagation
open DesModesRoundTrip
open DesApi (Size)

/-- The chosen blocks one after the other. -/
def selectBlocks (bytes : Bytes) (chosen : List Nat) : Bytes := chosen.flatMap (blockAt bytes)

/-- What CBC adds to a block: the ciphertext block before it, or the IV. -/
def before (iv cipher : Bytes) (i : Nat) : Bytes := if i = 0 then iv else blockAt cipher (i - 1)

theorem selectBlocks_eq {bytes : Bytes} {chosen : List Nat} {n : Nat}
    (hlen : bytes.length = 8 * n) (hin : ∀ i ∈ chosen, i < n) :
    selectBlocks bytes chosen = ofWords (chosen.map fun i => pack (blockAt bytes i)) := by
  rw [selectBlocks, ofWords, List.flatMap_map]
  apply List.flatMap_congr
  intro i hi
  have hlt := hin i hi
  exact (unpack_pack_eight (length_blockAt (by omega))).symm

theorem length_selectBlocks {bytes : Bytes} {chosen : List Nat} {n : Nat}
    (hlen : bytes.length = 8 * n) (hin : ∀ i ∈ chosen, i < n) :
    (selectBlocks bytes chosen).length = 8 * chosen.length := by
  rw [selectBlocks_eq hlen hin, length_ofWords, List.length_map]

theorem blockAt_selectBlocks {bytes : Bytes} {chosen : List Nat} {n : Nat}
    (hlen : bytes.length = 8 * n) (hin : ∀ i ∈ chosen, i < n) (i : Nat) (hi : i < chosen.length) :
    blockAt (selectBlocks bytes chosen) i = blockAt bytes chosen[i] := by
  have hlt := hin _ (List.getElem_mem hi)
  rw [selectBlocks_eq hlen hin, blockAt_ofWords _ i (by rwa [List.length_map]), List.getElem_map,
    unpack_pack_eight (length_blockAt (by omega))]

theorem plainBlock_cbc (key iv cipher : Bytes) (i : Nat) : plainBlock .cbc key iv cipher i =
    xorBytes (unpack 8 (desDecryptBlock (pack (blockAt cipher i)) (pack key)))
      (before iv cipher i) := rfl

variable {iv cipher : Bytes} {chosen : List Nat} {n : Nat}

theorem plainBlock_ecb_selected (key : Bytes) (hlen : cipher.length = 8 * n)
    (hin : ∀ i ∈ chosen, i < n) (i : Nat) (hi : i < chosen.length) :
    plainBlock .ecb key iv (selectBlocks cipher chosen) i =
      plainBlock .ecb key iv cipher chosen[i] := by
  simp only [plainBlock, blockAt_selectBlocks hlen hin i hi]

/-- In CBC the block before in the new order replaces the block before in the old one. -/
theorem plainBlock_cbc_selected (key : Bytes) (hiv : iv.length = 8) (hlen : cipher.length = 8 * n)
    (hin : ∀ i ∈ chosen, i < n) (i : Nat) (hi : i < chosen.length) :
    plainBlock .cbc key iv (selectBlocks cipher chosen) i =
      xorBytes (plainBlock .cbc key iv cipher chosen[i])
        (xorBytes (before iv cipher chosen[i]) (before iv (selectBlocks cipher chosen) i)) := by
  have hlt := hin _ (List.getElem_mem hi)
  have hbefore : (before iv cipher chosen[i]).length = 8 := length_previous hiv (by omega)
  rw [plainBlock_cbc, plainBlock_cbc, blockAt_selectBlocks hlen hin i hi, ← xorBytes_assoc,
    xorBytes_cancel (by rw [length_unpack, hbefore])]

/-- Decrypting a ciphertext put together from whole blocks of another one. In ECB every
block decrypts as before. In CBC it differs by what is added to it, and so decrypts as
before where the block before it is the same. The padding check gives the same answer
when the last block decrypts as the last block did. -/
theorem rearranged_blocks (key iv cipher cipher' out out' : Buffer) (outLen : Size) (k : Nat)
    (chosen : List Nat) (hkey : key.bytes.length = 8) (hiv : iv.bytes.length = 8)
    (hlen : cipher.bytes.length = 8 * (k + 1)) (hchosen : chosen ≠ [])
    (hin : ∀ i ∈ chosen, i < k + 1) (hselect : cipher'.bytes = selectBlocks cipher.bytes chosen)
    (hcap : cipher.bytes.length ≤ out.bytes.length)
    (hcap' : cipher'.bytes.length ≤ out'.bytes.length) (mode : Mode) :
    ∃ d d', decryptBuffers mode ⟨key, iv, cipher, out⟩ outLen = some d ∧
      decryptBuffers mode ⟨key, iv, cipher', out'⟩ outLen = some d' ∧
      (mode = .ecb → ∀ i (hi : i < chosen.length),
        blockAt d'.out.bytes i = blockAt d.out.bytes chosen[i]) ∧
      (mode = .cbc → ∀ i (hi : i < chosen.length),
        blockAt d'.out.bytes i = xorBytes (blockAt d.out.bytes chosen[i])
          (xorBytes (before iv.bytes cipher.bytes chosen[i])
            (before iv.bytes cipher'.bytes i)) ∧
        (before iv.bytes cipher'.bytes i = before iv.bytes cipher.bytes chosen[i] →
          blockAt d'.out.bytes i = blockAt d.out.bytes chosen[i])) ∧
      (blockAt d'.out.bytes (chosen.length - 1) = blockAt d.out.bytes k →
        d'.status = d.status ∧ (d.status = .ok →
          d'.outLen.toNat + cipher.bytes.length = d.outLen.toNat + cipher'.bytes.length)) := by
  have hpos : 0 < chosen.length := List.length_pos_iff.mpr hchosen
  have hlen' : cipher'.bytes.length = 8 * (chosen.length - 1 + 1) := by
    rw [hselect, length_selectBlocks hlen hin, Nat.sub_add_cancel hpos]
  obtain ⟨d, hd, hblocks, hstatus, hresult⟩ :=
    decrypt_call mode hkey hiv hlen (hlen ▸ hcap) outLen
  obtain ⟨d', hd', hblocks', hstatus', hresult'⟩ :=
    decrypt_call mode hkey hiv hlen' (hlen' ▸ hcap') outLen
  refine ⟨d, d', hd, hd', ?_, ?_, ?_⟩
  · rintro rfl i hi
    have hlt := hin _ (List.getElem_mem hi)
    rw [hblocks' i (by omega), hblocks _ hlt, hselect, plainBlock_ecb_selected _ hlen hin i hi]
  · rintro rfl i hi
    have hlt := hin _ (List.getElem_mem hi)
    have hblock : blockAt d'.out.bytes i = xorBytes (blockAt d.out.bytes chosen[i])
        (xorBytes (before iv.bytes cipher.bytes chosen[i]) (before iv.bytes cipher'.bytes i)) := by
      rw [hblocks' i (by omega), hblocks _ hlt, hselect,
        plainBlock_cbc_selected _ hiv hlen hin i hi]
    refine ⟨hblock, ?_⟩
    intro hsame
    have hbefore : (before iv.bytes cipher.bytes chosen[i]).length = 8 :=
      length_previous hiv (by omega)
    have hsize := length_blockAt_le d.out.bytes chosen[i]
    rw [hblock, hsame, ← xorBytes_assoc, xorBytes_cancel (by rwa [hbefore])]
  · intro hlast
    rw [hlast] at hstatus' hresult'
    refine ⟨by rw [hstatus, hstatus'], ?_⟩
    intro hok
    cases hunpad : Pkcs7.unpad 8 (blockAt d.out.bytes k) with
    | none =>
      rw [hok, hunpad] at hstatus
      cases hstatus
    | some n =>
      have hn := hresult n hunpad
      have hn' := hresult' n hunpad
      omega

/-- The two blocks of a ciphertext exchanged. -/
theorem rearranged_blocks_exchanged :
    let cipher : Buffer := ⟨List.replicate 8 1#8 ++ List.replicate 8 2#8, by decide⟩
    let cipher' : Buffer := ⟨List.replicate 8 2#8 ++ List.replicate 8 1#8, by decide⟩
    ∃ d d', decryptBuffers .ecb ⟨zeroBlock, zeroBlock, cipher, cipher⟩ 0#64 = some d ∧
      decryptBuffers .ecb ⟨zeroBlock, zeroBlock, cipher', cipher⟩ 0#64 = some d' ∧
      blockAt d'.out.bytes 0 = blockAt d.out.bytes 1 := by
  intro cipher cipher'
  obtain ⟨d, d', hd, hd', hblocks, -⟩ := rearranged_blocks zeroBlock zeroBlock cipher cipher'
    cipher cipher 0#64 1 [1, 0] (by decide) (by decide) (by decide) (by decide) (by decide)
    (by decide) (by decide) (by decide) .ecb
  exact ⟨d, d', hd, hd', hblocks rfl 0 (by decide)⟩

end DesModesRearranged
