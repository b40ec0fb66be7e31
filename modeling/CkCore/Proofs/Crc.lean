import CkCore.Lib.Gf2
import CkCore.Spec.Crc

namespace CkCore.Proofs.Crc
open Lib Lib.Crc CkCore.CrcStream

section
variable {w : Nat}

theorem twoPow_ne_zero {n : Nat} (hn : n < w) : BitVec.twoPow w n ≠ 0 := by
  intro h
  have hbit := congrArg (BitVec.getLsbD · n) h
  simp [hn] at hbit

/-- Masking with one bit tests it. -/
theorem and_twoPow_ne (x : BitVec w) {n : Nat} (hn : n < w) :
    x &&& BitVec.twoPow w n ≠ 0 ↔ x.getLsbD n = true := by
  rw [BitVec.and_twoPow]
  cases x.getLsbD n
  · simp
  · simp only [↓reduceIte, iff_true]
    exact twoPow_ne_zero hn

theorem twoPow_shiftRight {n : Nat} (hn : n + 1 < w) :
    BitVec.twoPow w (n + 1) >>> 1 = BitVec.twoPow w n := by
  apply BitVec.eq_of_getLsbD_eq
  intro i _
  have hlow : n < w := by omega
  have hsame : n + 1 = 1 + i ↔ n = i := by omega
  simp only [BitVec.getLsbD_ushiftRight, BitVec.getLsbD_twoPow, hn, hlow, hsame]

theorem twoPow_shiftLeft (n : Nat) : BitVec.twoPow w n <<< 1 = BitVec.twoPow w (n + 1) := by
  rw [BitVec.twoPow_eq, BitVec.twoPow_eq, BitVec.shiftLeft_add]

theorem setWidth_shiftLeft {v : Nat} (hv : v ≤ w) (x : BitVec w) (n : Nat) :
    (x <<< n).setWidth v = x.setWidth v <<< n := by
  apply BitVec.eq_of_getLsbD_eq
  intro i hi
  have hw : i < w := by omega
  have hin : i - n < v := by omega
  simp only [BitVec.getLsbD_setWidth, BitVec.getLsbD_shiftLeft, hi, hw, hin, decide_true,
    Bool.true_and]

theorem setWidth_widen {v : Nat} (hv : w ≤ v) (x : BitVec w) : (x.setWidth v).setWidth w = x := by
  rw [BitVec.setWidth_setWidth_of_le x hv, BitVec.setWidth_eq]

/-- Masking the low bits is cutting a word down and widening it again. -/
theorem and_mask {v : Nat} (x : BitVec w) :
    x &&& (BitVec.allOnes v).setWidth w = (x.setWidth v).setWidth w := by
  apply BitVec.eq_of_getLsbD_eq
  intro i hi
  by_cases hv : i < v <;> simp [hi, hv]

theorem reverse_xor (a b : BitVec w) : (a ^^^ b).reverse = a.reverse ^^^ b.reverse := by
  apply BitVec.eq_of_getLsbD_eq
  intro i _
  simp only [BitVec.getLsbD_reverse, BitVec.getLsbD_xor, BitVec.getMsbD_xor]

/-- Shifting a reversed register down is reversing the register shifted up. -/
theorem reverse_shiftRight {v : Nat} (hv : w ≤ v) (r : BitVec w) (n : Nat) :
    r.reverse.setWidth v >>> n = (r <<< n).reverse.setWidth v := by
  apply BitVec.eq_of_getLsbD_eq
  intro i hi
  simp only [BitVec.getLsbD_ushiftRight, BitVec.getLsbD_setWidth, BitVec.getLsbD_reverse,
    BitVec.getMsbD_shiftLeft, hi, decide_true, Bool.true_and, Nat.add_comm n i]
  by_cases hn : i + n < v
  · simp [hn]
  · simp [hn, BitVec.getMsbD_of_ge r (i + n) (by omega)]

/-- The low bits of a reversed register are its top bits reversed. -/
theorem reverse_low {k v : Nat} (hk : k ≤ w) (hv : w ≤ v) (r : BitVec w) :
    (r.reverse.setWidth v).setWidth k = (top k r).reverse := by
  apply BitVec.eq_of_getLsbD_eq
  intro i hi
  have hiv : i < v := by omega
  rw [BitVec.getLsbD_reverse, top_getMsbD hk r hi, ← BitVec.getLsbD_reverse]
  simp [hi, hiv]

theorem high_low {k v : Nat} (hv : w ≤ v) (r : BitVec w) :
    (r.setWidth v >>> (w - k)).setWidth k = top k r := by
  apply BitVec.eq_of_getLsbD_eq
  intro i hi
  simp only [top, BitVec.getLsbD_setWidth, BitVec.getLsbD_ushiftRight]
  by_cases hn : w - k + i < v
  · simp [hn]
  · simp [hn, BitVec.getLsbD_of_ge r (w - k + i) (by omega)]

end

/-- What the loop of reflect does with one bit. -/
theorem reflectLoop_pass (crc result : BitVec 32) {n : Nat} (m : Nat) (hn : n < 32) :
    reflectLoop crc (BitVec.twoPow 32 n) (BitVec.twoPow 32 m) result =
      reflectLoop crc (BitVec.twoPow 32 n >>> 1) (BitVec.twoPow 32 (m + 1))
        (if crc.getLsbD n then result ||| BitVec.twoPow 32 m else result) := by
  rw [reflectLoop, if_neg (twoPow_ne_zero hn), twoPow_shiftLeft]
  simp only [and_twoPow_ne crc hn]

theorem picked_getLsbD (bit : Bool) (result : BitVec 32) {m : Nat} (hm : m < 32) (k : Nat) :
    (if bit then result ||| BitVec.twoPow 32 m else result).getLsbD k =
      (result.getLsbD k || (bit && decide (m = k))) := by
  cases bit <;> simp [BitVec.getLsbD_twoPow, hm]

/-- With `n + 1` bits to go the loop still copies them, in reverse order, to the
places from `m` on. -/
theorem reflectLoop_getLsbD (crc : BitVec 32) (n m : Nat) (hnm : n + m < 32) (result : BitVec 32)
    (k : Nat) :
    (reflectLoop crc (BitVec.twoPow 32 n) (BitVec.twoPow 32 m) result).getLsbD k =
      (result.getLsbD k || (decide (m ≤ k ∧ k ≤ m + n) && crc.getLsbD (m + n - k))) := by
  induction n generalizing m result with
  | zero =>
    have hlast : BitVec.twoPow 32 0 >>> 1 = 0 := by decide
    rw [reflectLoop_pass crc result m (by omega), hlast, reflectLoop, if_pos rfl,
      picked_getLsbD _ result (by omega)]
    by_cases hk : m = k
    · subst hk
      simp
    · have hout : ¬ (m ≤ k ∧ k ≤ m + 0) := by omega
      simp only [hk, hout, decide_false, Bool.false_and, Bool.and_false, Bool.or_false]
  | succ n ih =>
    rw [reflectLoop_pass crc result m (by omega), twoPow_shiftRight (by omega),
      ih (m + 1) (by omega), picked_getLsbD _ result (by omega)]
    by_cases hk : m = k
    · subst hk
      simp
    · have hrange : (m + 1 ≤ k ∧ k ≤ m + 1 + n) ↔ (m ≤ k ∧ k ≤ m + (n + 1)) := by omega
      have hidx : m + 1 + n - k = m + (n + 1) - k := by omega
      simp only [hk, hrange, hidx, decide_false, Bool.and_false, Bool.or_false]

/-- reflect reverses the low bits and drops the others. -/
theorem reflect_eq (crc : BitVec 32) {length : Nat} (hpos : 0 < length) (hmax : length ≤ 32) :
    reflect crc length = (crc.setWidth length).reverse.setWidth 32 := by
  have hone : (1 : BitVec 32) = BitVec.twoPow 32 0 := rfl
  have hhigh : (1 : BitVec 32) <<< (length - 1) = BitVec.twoPow 32 (length - 1) :=
    (BitVec.twoPow_eq 32 (length - 1)).symm
  apply BitVec.eq_of_getLsbD_eq
  intro k hk
  rw [reflect, hhigh, hone, reflectLoop_getLsbD crc (length - 1) 0 (by omega)]
  simp only [BitVec.getLsbD_setWidth, BitVec.getLsbD_reverse, BitVec.getMsbD_eq_getLsbD]
  by_cases hl : k < length
  · have hin : k ≤ length - 1 := by omega
    have hidx : length - 1 - k < length := by omega
    simp [hk, hl, hin, hidx]
  · have hout : ¬ k ≤ length - 1 := by omega
    simp [hl, hout]

/-- Cut down to the order, the inner loop of the constructor moves a register of
that width: what it leaves above never comes back. -/
theorem tableLoop_narrow {w : Nat} (hpos : 0 < w) (hmax : w ≤ 32) (poly : BitVec 32) (n : Nat)
    (crc : BitVec 32) :
    (tableLoop (BitVec.twoPow 32 (w - 1)) poly n crc).setWidth w =
      shifts (poly.setWidth w) n (crc.setWidth w) := by
  induction n generalizing crc with
  | zero => rfl
  | succ n ih =>
    have hmsb : (crc.setWidth w).msb = crc.getLsbD (w - 1) := by
      rw [BitVec.msb_eq_getLsbD_last, BitVec.getLsbD_setWidth]
      have hin : w - 1 < w := by omega
      simp [hin]
    have hstep : (if crc &&& BitVec.twoPow 32 (w - 1) ≠ 0 then (crc <<< 1) ^^^ poly
        else crc <<< 1).setWidth w = shift (poly.setWidth w) (crc.setWidth w) := by
      simp only [and_twoPow_ne crc (by omega : w - 1 < 32), shift, hmsb]
      split
      · rw [BitVec.setWidth_xor, setWidth_shiftLeft hmax]
      · rw [setWidth_shiftLeft hmax]
    rw [tableLoop, ih, hstep, shifts]

/-- The value a register of the reference has in the code: reversed when
reflected, widened to 32 bits. -/
def stored (c : CrcReference) (r : BitVec c.width) : BitVec 32 := (c.output r).setWidth 32

def reorder (c : CrcReference) (b : BitVec 8) : BitVec 8 := if c.reflected then b.reverse else b

/-- The settings of a stream are those of the reference. -/
structure Configured (c : CrcReference) (s : CrcStream) : Prop where
  least : 8 ≤ c.width
  most : c.width ≤ 32
  reflected : s.reflected = c.reflected
  order : s.order = c.width
  mask : s.mask = (BitVec.allOnes c.width).setWidth 32

/-- A stream as the constructor leaves it, apart from its checksum. -/
structure Built (c : CrcReference) (s : CrcStream) : Prop extends Configured c s where
  initial : s.initial = stored c c.initial
  final : s.final = c.final.setWidth 32
  table : ∀ b : BitVec 8, s.table.get ⟨b.toNat, b.isLt⟩ =
    stored c (shifts c.poly 8 (atTop c.width (reorder c b)))

/-- A stream whose checksum stands for the register `r`. -/
structure Stands (c : CrcReference) (r : BitVec c.width) (s : CrcStream) : Prop
    extends Built c s where
  checksum : s.checksum = stored c r

variable {c : CrcReference} {s : CrcStream}

theorem Configured.tableEntry (h : Configured c s) (poly : BitVec 32) (b : BitVec 8) :
    tableEntry s (BitVec.twoPow 32 (c.width - 1)) poly b.toNat =
      stored c (shifts (poly.setWidth c.width) 8 (atTop c.width (reorder c b))) := by
  have hb : BitVec.ofNat 32 b.toNat = b.setWidth 32 := BitVec.ofNat_toNat 32 b
  have hstart : (if c.reflected then reflect (b.setWidth 32) 8 else b.setWidth 32) =
      (reorder c b).setWidth 32 := by
    rw [reflect_eq _ (by decide) (by decide), setWidth_widen (by decide), reorder]
    split <;> rfl
  have hmove : ((reorder c b).setWidth 32 <<< (c.width - 8)).setWidth c.width =
      atTop c.width (reorder c b) := by
    rw [setWidth_shiftLeft h.most, BitVec.setWidth_setWidth_of_le _ h.most, atTop]
  have hloop := tableLoop_narrow (by have := h.least; omega) h.most poly 8
    ((reorder c b).setWidth 32 <<< (c.width - 8))
  rw [hmove] at hloop
  simp only [CrcStream.tableEntry, h.reflected, h.order, h.mask, hb, hstart, and_mask]
  rw [← hloop, stored, CrcReference.output]
  split
  · rw [reflect_eq _ (by have := h.least; omega) h.most, setWidth_widen h.most]
  · rfl

/-- The constructor's high bit and mask, for either order. -/
theorem create_mask (w : Nat) (hw : w = 16 ∨ w = 32) :
    ((((1 : BitVec 32) <<< (w - 1)) - 1) <<< 1) ||| 1 = (BitVec.allOnes w).setWidth 32 := by
  rcases hw with rfl | rfl <;> decide

theorem create_configured (type : CrcType) : Configured (.standard type) (create type) := by
  cases type with
  | crc16 => exact ⟨by decide, by decide, rfl, rfl, create_mask 16 (Or.inl rfl)⟩
  | crc32 => exact ⟨by decide, by decide, rfl, rfl, create_mask 32 (Or.inr rfl)⟩
  | crcCcitt => exact ⟨by decide, by decide, rfl, rfl, create_mask 16 (Or.inl rfl)⟩

theorem tableEntry_congr {s t : CrcStream} (hr : s.reflected = t.reflected)
    (ho : s.order = t.order) (hm : s.mask = t.mask) (high poly : BitVec 32) (i : Nat) :
    tableEntry s high poly i = tableEntry t high poly i := by
  simp only [tableEntry, hr, ho, hm]

theorem get_ofFn {α : Type} {n : Nat} (f : Fin n → α) (i : Fin n) :
    (Vector.ofFn f).get i = f i := by
  simp only [Vector.get, Vector.toArray_ofFn, Array.getElem_ofFn]
  rfl

theorem create_entry (type : CrcType) (i : Fin 256) :
    (create type).table.get i = tableEntry (create type)
      (BitVec.twoPow 32 ((CrcReference.standard type).width - 1))
      ((CrcReference.standard type).poly.setWidth 32) i := by
  have hfill : (create type).table.get i = tableEntry
      { (configure type).2 with mask := (create type).mask }
      ((1 : BitVec 32) <<< ((configure type).2.order - 1)) (configure type).1 i := by
    simp only [create, get_ofFn]
  have hhigh : (1 : BitVec 32) <<< ((configure type).2.order - 1) =
      BitVec.twoPow 32 ((CrcReference.standard type).width - 1) := by cases type <;> decide
  have hpoly : (configure type).1 = (CrcReference.standard type).poly.setWidth 32 := by
    cases type <;> decide
  have hr : (configure type).2.reflected = (create type).reflected := by cases type <;> rfl
  have ho : (configure type).2.order = (create type).order := by cases type <;> rfl
  rw [hfill, hhigh, hpoly]
  apply tableEntry_congr
  · exact hr
  · exact ho
  · rfl

theorem create_built (type : CrcType) : Built (.standard type) (create type) := by
  have h := create_configured type
  refine ⟨h, ?_, ?_, ?_⟩
  · cases type <;> decide +kernel
  · cases type <;> rfl
  · intro b
    rw [create_entry, h.tableEntry, setWidth_widen h.most]

theorem create_stands (type : CrcType) :
    Stands (.standard type) (CrcReference.standard type).initial (create type) := by
  have h := create_built type
  have hstart : (create type).checksum = (create type).initial := by cases type <;> rfl
  exact ⟨h, hstart.trans h.initial⟩

/-- reset puts the initial value back, whatever was written. -/
theorem Built.reset (h : Built c s) : Stands c c.initial s.reset :=
  ⟨⟨⟨h.least, h.most, h.reflected, h.order, h.mask⟩, h.initial, h.final, h.table⟩, h.initial⟩

/-- The table holds what a byte does to the bits it meets. -/
theorem Built.lookup (h : Built c s) (low : BitVec 32) (byte : Byte) :
    s.lookup low byte =
      stored c (shifts c.poly 8
        (atTop c.width (reorder c (low.setWidth 8 ^^^ byte.toBitVec)))) := by
  have hidx : (low &&& 0xff) ^^^ byte.toBitVec.setWidth 32 =
      (low.setWidth 8 ^^^ byte.toBitVec).setWidth 32 := by
    have hmask : (0xff : BitVec 32) = (BitVec.allOnes 8).setWidth 32 := by decide
    rw [hmask, and_mask, BitVec.setWidth_xor]
  have hnat : ((low &&& 0xff) ^^^ byte.toBitVec.setWidth 32).toNat =
      (low.setWidth 8 ^^^ byte.toBitVec).toNat := by
    rw [hidx, BitVec.toNat_setWidth]
    have := (low.setWidth 8 ^^^ byte.toBitVec).isLt
    omega
  rw [← h.table, CrcStream.lookup]
  congr 1
  exact Fin.ext hnat

theorem bits_eq (c : CrcReference) (byte : Byte) :
    c.bits byte = topBits 8 (reorder c byte.toBitVec) := by
  simp only [CrcReference.bits, reorder, topBits_getMsbD]
  split <;> simp only [BitVec.getMsbD_reverse]

theorem output_reflected (hc : c.reflected = true) (r : BitVec c.width) :
    stored c r = r.reverse.setWidth 32 := by
  rw [stored, CrcReference.output, if_pos hc]

theorem output_plain (hc : c.reflected = false) (r : BitVec c.width) :
    stored c r = r.setWidth 32 := by
  rw [stored, CrcReference.output, hc]
  rfl

/-- One byte through the table of a reflected stream. -/
theorem Stands.pass_reflected {r : BitVec c.width} (h : Stands c r s) (hc : c.reflected = true)
    (byte : Byte) : (s.checksum >>> 8) ^^^ s.lookup s.checksum byte =
      stored c (feeds c.poly r (c.bits byte)) := by
  have hlow : (stored c r).setWidth 8 = (top 8 r).reverse := by
    rw [output_reflected hc]
    exact reverse_low h.least h.most r
  have hchunk : reorder c ((top 8 r).reverse ^^^ byte.toBitVec) =
      top 8 r ^^^ byte.toBitVec.reverse := by
    rw [reorder, if_pos hc, reverse_xor, BitVec.reverse_reverse_eq]
  have hbits : c.bits byte = topBits 8 byte.toBitVec.reverse := by
    rw [bits_eq, reorder, if_pos hc]
  rw [h.lookup, h.checksum, hlow, hchunk, hbits, feeds_chunk h.least]
  simp only [output_reflected hc]
  rw [reverse_shiftRight h.most, reverse_xor, BitVec.setWidth_xor]

/-- One byte through the table of a stream that is not reflected. -/
theorem Stands.pass_plain {r : BitVec c.width} (h : Stands c r s) (hc : c.reflected = false)
    (byte : Byte) :
    ((s.checksum <<< 8) ^^^ s.lookup (s.checksum >>> (s.order - 8)) byte) &&& s.mask =
      stored c (feeds c.poly r (c.bits byte)) := by
  have hhigh : (stored c r >>> (c.width - 8)).setWidth 8 = top 8 r := by
    rw [output_plain hc]
    exact high_low h.most r
  have hsame : ∀ b, reorder c b = b := by
    intro b
    rw [reorder, hc]
    rfl
  have hbits : c.bits byte = topBits 8 byte.toBitVec := by
    rw [bits_eq, hsame]
  rw [h.lookup, h.checksum, h.order, h.mask, hhigh, hsame, hbits, feeds_chunk h.least, and_mask]
  simp only [output_plain hc]
  rw [BitVec.setWidth_xor, setWidth_shiftLeft h.most, setWidth_widen h.most,
    setWidth_widen h.most]

/-- One byte of write is eight bits of the reference. -/
theorem Stands.writePass {r : BitVec c.width} (h : Stands c r s) (byte : Byte) :
    Stands c (feeds c.poly r (c.bits byte)) (s.writePass byte) := by
  unfold CrcStream.writePass
  cases hc : c.reflected with
  | true =>
    rw [if_pos (h.reflected.trans hc)]
    exact ⟨⟨⟨h.least, h.most, h.reflected, h.order, h.mask⟩, h.initial, h.final, h.table⟩,
      h.pass_reflected hc byte⟩
  | false =>
    rw [if_neg (by rw [h.reflected, hc]; decide)]
    exact ⟨⟨⟨h.least, h.most, h.reflected, h.order, h.mask⟩, h.initial, h.final, h.table⟩,
      h.pass_plain hc byte⟩

/-- A write feeds the bits of its bytes, in order. -/
theorem Stands.write {r : BitVec c.width} (h : Stands c r s) (buffer : List Byte) :
    Stands c (feeds c.poly r (buffer.flatMap c.bits)) (s.write buffer).2 := by
  induction buffer generalizing r s with
  | nil => exact h
  | cons byte buffer ih =>
    rw [List.flatMap_cons, feeds_append]
    exact ih (h.writePass byte)

/-- What a run of calls keeps: the checksum stands for the message since the
last reset. -/
theorem Stands.call {message : List Byte} (h : Stands c (c.register message) s)
    (call : CrcCall) : Stands c (c.register (call.after message)) (s.call call) := by
  cases call with
  | write buffer =>
    have hw := h.write buffer
    rw [CrcReference.register, ← feeds_append, ← List.flatMap_append] at hw
    exact hw
  | reset => exact h.reset

theorem Stands.calls {message : List Byte} (h : Stands c (c.register message) s)
    (cs : List CrcCall) :
    Stands c (c.register (cs.foldl CrcCall.after message)) (s.calls cs) := by
  induction cs generalizing message s with
  | nil => exact h
  | cons call cs ih => exact ih (h.call call)

theorem Stands.result {message : List Byte} (h : Stands c (c.register message) s) :
    s.result = (c.crc message).setWidth 32 := by
  rw [CrcStream.result, h.checksum, h.final, stored, CrcReference.crc, BitVec.setWidth_xor]

open Polynomial in
/-- The dividend of the reference: the initial value in front of the message,
moved up by the width. -/
noncomputable def dividend (c : CrcReference) (message : List Byte) : (ZMod 2)[X] :=
  Gf2.ofRegister c.initial * X ^ (message.flatMap c.bits).length +
    Gf2.ofBits (message.flatMap c.bits) * X ^ c.width

open Polynomial in
/-- However the message is split over writes, before or after resets, checksum
is the reference value: the remainder of the division over GF(2), reflected and
inverted as the type says. -/
theorem checksum_is_crc (type : CrcType) (cs : List CrcCall) :
    ((create type).calls cs).result =
      ((CrcReference.standard type).crc (CrcCall.message cs)).setWidth 32 ∧
    Gf2.ofRegister ((CrcReference.standard type).register (CrcCall.message cs)) =
      dividend (.standard type) (CrcCall.message cs) %ₘ
        Gf2.divisor (CrcReference.standard type).poly := by
  constructor
  · exact ((create_stands type).calls cs).result
  · exact Gf2.feeds_remainder _ _ _

-- The repository's own test takes this value from the UDF reference.
example : ((CrcReference.standard .crcCcitt).crc [0x70, 0x6a, 0x77]).toNat = 0x3299 := by
  decide +kernel

end CkCore.Proofs.Crc
