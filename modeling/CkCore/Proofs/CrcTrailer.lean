import CkCore.Proofs.CrcBursts

namespace CkCore.Proofs.CrcTrailer
open Lib Lib.Crc CkCore.CrcStream Proofs.Crc

section
variable {c : CrcReference} {s : CrcStream} {message : List Byte}

/-- One byte of the trailer is eight bits of the register, the final value xored
in. -/
theorem trailer_byte (h : Stands c (c.register message) s) {i : Nat} (hi : i * 8 + 8 ≤ c.width) :
    c.bits (.ofBitVec ((s.result >>>
        (if s.reflected then i * 8 else s.order - 8 - i * 8)).setWidth 8)) =
      topBits 8 ((c.register message ^^^ c.output c.final) <<< (i * 8)) := by
  have hresult : ∀ n, n < c.width → s.result.getLsbD n = (c.crc message).getLsbD n := by
    intro n hn
    have hmost := h.most
    have hin : n < 32 := by omega
    simp [h.result, hin]
  rw [bits_eq]
  apply topBits_eq
  intro j hj
  rw [BitVec.getMsbD_shiftLeft, BitVec.getMsbD_xor]
  cases hc : c.reflected with
  | true =>
    have hr : s.reflected = true := h.reflected.trans hc
    have houtput : ∀ x : BitVec c.width, c.output x = x.reverse := by
      intro x
      simp [CrcReference.output, hc]
    have hbit := hresult (i * 8 + j) (by omega)
    rw [CrcReference.crc, houtput, BitVec.getLsbD_xor, BitVec.getLsbD_reverse] at hbit
    rw [houtput, BitVec.getMsbD_reverse, Nat.add_comm j, ← hbit]
    simp [reorder, hc, hr, hj, BitVec.getMsbD_reverse]
  | false =>
    have hr : s.reflected = false := h.reflected.trans hc
    have houtput : ∀ x : BitVec c.width, c.output x = x := by
      intro x
      simp [CrcReference.output, hc]
    have hlt : i * 8 + j < c.width := by omega
    have hbit := hresult (c.width - 1 - (i * 8 + j)) (by omega)
    rw [CrcReference.crc, houtput, BitVec.getLsbD_xor] at hbit
    have hpos : c.width - 8 - i * 8 + (7 - j) = c.width - 1 - (i * 8 + j) := by omega
    have hseven : 7 - j < 8 := by omega
    simp [reorder, hc, hr, hj, houtput, BitVec.getMsbD_eq_getLsbD, h.order, hpos, hbit, hlt,
      hseven, Nat.add_comm j]

theorem trailer_bits (h : Stands c (c.register message) s) (hw : c.width = s.order / 8 * 8) :
    s.trailer.flatMap c.bits = topBits c.width (c.register message ^^^ c.output c.final) := by
  have hchunks : topBits c.width (c.register message ^^^ c.output c.final) =
      topBits (s.order / 8 * 8) (c.register message ^^^ c.output c.final) := by rw [← hw]
  rw [hchunks, topBits_chunks, trailer, List.flatMap_map]
  apply List.flatMap_congr
  intro i hi
  have := List.mem_range.mp hi
  exact trailer_byte h (by omega)

/-- What the trailer leaves does not depend on the message. -/
theorem register_trailer (h : Stands c (c.register message) s) (hw : c.width = s.order / 8 * 8) :
    c.register (message ++ s.trailer) = shifts c.poly c.width (c.output c.final) := by
  rw [CrcReference.register, List.flatMap_append, feeds_append, trailer_bits h hw]
  exact feeds_itself c.poly (c.register message) (c.output c.final)

end

theorem residue_eq (type : CrcType) :
    (((CrcReference.standard type).output (shifts (CrcReference.standard type).poly
      (CrcReference.standard type).width ((CrcReference.standard type).output
        (CrcReference.standard type).final))) ^^^ (CrcReference.standard type).final).setWidth 32 =
      residue type := by
  cases type <;> decide +kernel

/-- A message is sent with its checksum behind it. However the receiver splits
what it gets over writes, its own checksum is the constant of the type when that
is what was sent, and is not when it differs from it in a burst no longer than the
CRC is wide, be it in the message or in the checksum. -/
theorem transfer_checked (type : CrcType) (cs : List CrcCall) {cs' : List CrcCall} :
    (CrcCall.message cs' = CrcCall.message cs ++ ((create type).calls cs).trailer →
      ((create type).calls cs').result = residue type) ∧
    ((CrcCall.message cs').length =
        (CrcCall.message cs ++ ((create type).calls cs).trailer).length →
      CrcBursts.Burst type (CrcCall.message cs ++ ((create type).calls cs).trailer)
        (CrcCall.message cs') →
      CrcCall.message cs' ≠ CrcCall.message cs ++ ((create type).calls cs).trailer →
      ((create type).calls cs').result ≠ residue type) := by
  have hbuilt := create_built type
  have hstart : Stands (.standard type) ((CrcReference.standard type).register []) (create type) :=
    create_stands type
  have hsender := hstart.calls cs
  have hwidth : (CrcReference.standard type).width = ((create type).calls cs).order / 8 * 8 := by
    rw [hsender.order]
    cases type <;> rfl
  have hregister := register_trailer hsender hwidth
  have hresult : ((create type).calls cs').result =
      ((CrcReference.standard type).crc (CrcCall.message cs')).setWidth 32 :=
    (hstart.calls cs').result
  have hright : ((CrcReference.standard type).crc
      (CrcCall.message cs ++ ((create type).calls cs).trailer)).setWidth 32 = residue type := by
    rw [CrcReference.crc, ← residue_eq]
    exact congrArg (fun r => (_ ^^^ _ : BitVec _).setWidth 32) hregister
  constructor
  · intro hsent
    rw [hresult, hsent]
    exact hright
  · intro hlen hburst hne hsame
    obtain ⟨start, hout⟩ := hburst
    rw [hbuilt.order] at hout
    rw [hresult, ← hright] at hsame
    have hequal := CrcBursts.crc_injective hbuilt.most hsame
    have hconstant : (CrcReference.standard type).poly.getLsbD 0 = true := by
      cases type <;> decide
    have hpositive : 0 < (CrcReference.standard type).width := by
      have := hbuilt.least
      omega
    apply hne
    exact CrcBursts.register_burst hconstant hpositive hlen (fun i hi => (hout i hi).symm) hequal

/-- Two bytes and their checksum, the second time with one of its bytes changed. -/
theorem transfer_checked_two :
    ((create .crcCcitt).calls [.write [0x70], .write [0x6a, 0xc5, 0xb5]]).result = 0 ∧
    ((create .crcCcitt).calls [.write [0x70, 0x6a, 0xc5, 0xb4]]).result ≠ 0 := by
  have htrailer : ((create .crcCcitt).calls [.write [0x70, 0x6a]]).trailer = [0xc5, 0xb5] := by
    decide +kernel
  constructor
  · apply (transfer_checked .crcCcitt [.write [0x70, 0x6a]]).1
    rw [htrailer]
    rfl
  · apply (transfer_checked .crcCcitt [.write [0x70, 0x6a]]).2
    · rw [htrailer]
      rfl
    · rw [htrailer]
      refine ⟨16, ?_⟩
      intro i hi
      rcases hi with hi | hi
      · have hfront : ∀ i : Fin 16,
            (CrcBursts.consumed .crcCcitt [0x70, 0x6a, 0xc5, 0xb5])[i.val]? =
            (CrcBursts.consumed .crcCcitt [0x70, 0x6a, 0xc5, 0xb4])[i.val]? := by decide
        exact hfront ⟨i, hi⟩
      · have hlong : 32 ≤ i := hi
        have hnone : ∀ m : List Byte, m.length = 4 →
            (CrcBursts.consumed .crcCcitt m)[i]? = none := by
          intro m hm
          apply List.getElem?_eq_none
          rw [CrcBursts.consumed, CrcBursts.flatMap_bits_length, hm]
          exact hlong
        exact (hnone _ rfl).trans (hnone [0x70, 0x6a, 0xc5, 0xb4] rfl).symm
    · rw [htrailer]
      decide

end CkCore.Proofs.CrcTrailer
