import CkCore.Proofs.Crc

namespace CkCore.Proofs.CrcBursts
open Lib Lib.Crc CkCore.CrcStream Proofs.Crc

/-- The bits of a message in the order the algorithm consumes them. -/
def consumed (type : CrcType) (message : List Byte) : List Bool :=
  message.flatMap (CrcReference.standard type).bits

/-- The messages agree outside a window of as many bits as the CRC is wide. -/
def Burst (type : CrcType) (m m' : List Byte) : Prop :=
  ∃ start, ∀ i, i < start ∨ start + (create type).order ≤ i →
    (consumed type m)[i]? = (consumed type m')[i]?

/-- Two sequences that agree outside a window differ only in the part between a
common front and a common tail. -/
theorem agree_outside {α : Type} {xs ys : List α} (hlen : xs.length = ys.length) {start n : Nat}
    (h : ∀ i, i < start ∨ start + n ≤ i → xs[i]? = ys[i]?) :
    ∃ front mid mid' tail, xs = front ++ mid ++ tail ∧ ys = front ++ mid' ++ tail ∧
      mid.length = mid'.length ∧ mid.length ≤ n := by
  have hfront : xs.take start = ys.take start := by
    apply List.ext_getElem?
    intro i
    rw [List.getElem?_take, List.getElem?_take]
    split
    · next hi => exact h i (Or.inl hi)
    · rfl
  have htail : xs.drop (start + n) = ys.drop (start + n) := by
    apply List.ext_getElem?
    intro i
    rw [List.getElem?_drop, List.getElem?_drop]
    exact h _ (Or.inr (Nat.le_add_right _ _))
  have hsplit : ∀ zs : List α,
      zs = zs.take start ++ (zs.drop start).take n ++ zs.drop (start + n) := by
    intro zs
    rw [List.append_assoc, ← List.drop_drop, List.take_append_drop, List.take_append_drop]
  refine ⟨xs.take start, (xs.drop start).take n, (ys.drop start).take n, xs.drop (start + n),
    hsplit xs, ?_, ?_, List.length_take_le _ _⟩
  · rw [hfront, htail]
    exact hsplit ys
  · simp only [List.length_take, List.length_drop, hlen]

section
variable {c : CrcReference}

theorem bits_length (c : CrcReference) (byte : Byte) : (c.bits byte).length = 8 := by
  rw [bits_eq, topBits_getMsbD, List.length_map, List.length_range]

theorem bits_injective {a b : Byte} (h : c.bits a = c.bits b) : a = b := by
  rw [bits_eq, bits_eq] at h
  have hreorder := topBits_injective h
  have hsame : a.toBitVec = b.toBitVec := by
    unfold reorder at hreorder
    split at hreorder
    · simpa only [BitVec.reverse_reverse_eq] using congrArg BitVec.reverse hreorder
    · exact hreorder
  exact UInt8.toBitVec_inj.mp hsame

/-- Messages of one length are known from their bits. -/
theorem message_injective {m m' : List Byte} (hlen : m.length = m'.length)
    (h : m.flatMap c.bits = m'.flatMap c.bits) : m = m' := by
  induction m generalizing m' with
  | nil => exact (List.eq_nil_of_length_eq_zero hlen.symm).symm
  | cons byte m ih =>
    cases m' with
    | nil => cases hlen
    | cons byte' m' =>
      rw [List.flatMap_cons, List.flatMap_cons] at h
      obtain ⟨hbits, hrest⟩ := List.append_inj h (by rw [bits_length, bits_length])
      rw [bits_injective hbits, ih (Nat.succ.inj hlen) hrest]

theorem flatMap_bits_length (c : CrcReference) (m : List Byte) :
    (m.flatMap c.bits).length = 8 * m.length := by
  induction m with
  | nil => rfl
  | cons byte m ih =>
    rw [List.flatMap_cons, List.length_append, ih, bits_length, List.length_cons]
    omega

/-- The checksum gives the register away. -/
theorem crc_injective (hmax : c.width ≤ 32) {m m' : List Byte}
    (h : (c.crc m).setWidth 32 = (c.crc m').setWidth 32) : c.register m = c.register m' := by
  have hcrc := congrArg (BitVec.setWidth c.width) h
  rw [setWidth_widen hmax, setWidth_widen hmax, CrcReference.crc, CrcReference.crc] at hcrc
  have houtput := (BitVec.xor_left_inj _).mp hcrc
  unfold CrcReference.output at houtput
  split at houtput
  · simpa only [BitVec.reverse_reverse_eq] using congrArg BitVec.reverse houtput
  · exact houtput

/-- Messages that differ in a window no wider than the register leave different
registers behind. -/
theorem register_burst (hp : c.poly.getLsbD 0 = true) (hw : 0 < c.width) {m m' : List Byte}
    (hlen : m.length = m'.length) {start : Nat}
    (hout : ∀ i, i < start ∨ start + c.width ≤ i →
      (m.flatMap c.bits)[i]? = (m'.flatMap c.bits)[i]?)
    (h : c.register m = c.register m') : m = m' := by
  have hbits : (m.flatMap c.bits).length = (m'.flatMap c.bits).length := by
    rw [flatMap_bits_length, flatMap_bits_length, hlen]
  obtain ⟨front, mid, mid', tail, hm, hm', hmid, hwidth⟩ := agree_outside hbits hout
  have hfed : feeds c.poly c.initial (front ++ mid ++ tail) =
      feeds c.poly c.initial (front ++ mid' ++ tail) := by
    rw [← hm, ← hm']
    exact h
  rw [feeds_append _ _ (front ++ mid), feeds_append _ _ (front ++ mid')] at hfed
  have hfront := feeds_injective hp hw hfed
  rw [feeds_append, feeds_append] at hfront
  have hsame : mid = mid' := feeds_window hp hmid hwidth hfront
  exact message_injective hlen (hm.trans (hsame ▸ hm'.symm))

end

/-- Every burst no longer than the CRC is wide changes the checksum, wherever it
lies and however the two messages were split over writes. -/
theorem bursts_detected (type : CrcType) {cs cs' : List CrcCall}
    (hlen : (CrcCall.message cs).length = (CrcCall.message cs').length)
    (hne : CrcCall.message cs ≠ CrcCall.message cs')
    (hburst : Burst type (CrcCall.message cs) (CrcCall.message cs')) :
    ((create type).calls cs).result ≠ ((create type).calls cs').result := by
  intro hsame
  have hbuilt := create_built type
  have hstart : Stands (.standard type) ((CrcReference.standard type).register []) (create type) :=
    create_stands type
  rw [(hstart.calls cs).result, (hstart.calls cs').result] at hsame
  have hregister := crc_injective hbuilt.most hsame
  obtain ⟨start, hout⟩ := hburst
  rw [hbuilt.order] at hout
  have hconstant : (CrcReference.standard type).poly.getLsbD 0 = true := by cases type <;> decide
  exact hne (register_burst hconstant (by have := hbuilt.least; omega) hlen hout hregister)

/-- One byte for another is a burst of eight bits. -/
theorem bursts_detected_byte :
    ((create .crc16).calls [.write [1, 2]]).result ≠
      ((create .crc16).calls [.write [1], .write [3]]).result := by
  refine bursts_detected .crc16 (by decide) (by decide) ⟨0, ?_⟩
  intro i hi
  have hend : 16 ≤ i := hi.resolve_left (Nat.not_lt_zero i)
  have hlength : ∀ m : List Byte, m.length = 2 → (consumed .crc16 m)[i]? = none := by
    intro m hm
    apply List.getElem?_eq_none
    rw [consumed, flatMap_bits_length, hm]
    exact hend
  rw [hlength _ rfl, hlength _ rfl]

end CkCore.Proofs.CrcBursts
