import CkCore.Model.Strings

namespace CkCore.Proofs.Strings
open Lib CkCore.Strings

section
variable {α : Type}

/-- The longest part in front of a text that fits an array with a zero behind it. -/
structure LongestFit (text : List α) (len : Nat) (part : List α) : Prop where
  front : part <+: text
  fits : part.length + 1 ≤ len
  longest : ∀ other, other <+: text → other.length + 1 ≤ len → other.length ≤ part.length

theorem take_longest (text : List α) {len : Nat} (h : 1 ≤ len) :
    LongestFit text len (text.take (len - 1)) := by
  refine ⟨List.take_prefix _ _, ?_, ?_⟩
  · rw [List.length_take]
    omega
  · intro other hfront hfits
    have hle := hfront.length_le
    rw [List.length_take]
    omega

theorem LongestFit.unique {text part : List α} {len : Nat} (h : LongestFit text len part) :
    part = text.take (len - 1) := by
  have hfits := h.fits
  have hlongest := take_longest text (show 1 ≤ len by omega)
  have hsame : part.length = (text.take (len - 1)).length :=
    Nat.le_antisymm (hlongest.longest part h.front hfits)
      (h.longest _ hlongest.front hlongest.fits)
  exact (List.prefix_of_prefix_length_le h.front hlongest.front (Nat.le_of_eq hsame)).eq_of_length
    hsame

end

section
variable {α β : Type}

/-- What a conversion leaves in an array of the given length: if there is any
room, the characters that fit and a zero, which is the first one. -/
structure Converted [OfNat β 0] (conv : α → β) (text : List α) (len : Nat)
    (out : List β) : Prop where
  length : out.length = len
  text : 1 ≤ len → ∃ part rest, LongestFit text len part ∧ (∀ c ∈ part, conv c ≠ 0) ∧
    out = part.map conv ++ [0] ++ rest

/-- The call writes no element from the given length on, and converts. -/
def Safe [OfNat β 0] (conv : α → β) (text : List α) (len : Nat)
    (call : Nat → Except Fault (List β)) : Prop :=
  ∃ fuel out, call fuel = .ok out ∧ Converted conv text len out

variable [OfNat α 0] {conv : α → β} {str : CString α} {out : List β} {len : Nat}

/-- A pass converts one character. -/
theorem convert_pass {i outLen : Nat} (hi : i < outLen) (hlen : outLen ≤ str.chars.length)
    (hout : outLen ≤ out.length) (hfront : out.take i = (str.chars.take i).map conv) :
    ∃ out', convertPass conv str outLen (i, out) = .ok (.again (i + 1, out')) ∧
      out'.length = out.length ∧ out'.take (i + 1) = (str.chars.take (i + 1)).map conv := by
  have hin : i < str.chars.length := by omega
  have hload : load (str.chars ++ [0]) i 1 = .ok [str.chars[i]] := by
    rw [load_ok (by rw [List.length_append]; omega), List.drop_append_of_le_length (by omega),
      List.drop_eq_getElem_cons hin]
    rfl
  have hfits : i + ([str.chars[i]].map conv).length ≤ out.length := by
    rw [List.length_map, List.length_singleton]
    omega
  obtain ⟨out', hstore⟩ : ∃ out', store out i ([str.chars[i]].map conv) = .ok out' :=
    ⟨_, store_ok hfits⟩
  have htake := store_take hstore
  refine ⟨out', ?_, store_length hstore, ?_⟩
  · rw [convertPass, if_pos hi, hload, ok_bind, hstore]
    rfl
  · rw [List.length_map, List.length_singleton] at htake
    rw [htake, hfront, List.take_add_one, List.getElem?_eq_getElem hin, List.map_append]
    rfl

/-- The loop converts as many characters as it is to. -/
theorem convert_loop (conv : α → β) {outLen : Nat} (hlen : outLen ≤ str.chars.length)
    (hout : outLen ≤ out.length) :
    ∃ fuel out', loop (convertPass conv str outLen) fuel (0, out) = .ok out' ∧
      out'.length = out.length ∧ out'.take outLen = (str.chars.take outLen).map conv := by
  have hpass : ∀ c : Nat × List β, (c.1 ≤ outLen ∧ c.2.length = out.length ∧
      c.2.take c.1 = (str.chars.take c.1).map conv) →
      (∃ c', convertPass conv str outLen c = .ok (.again c') ∧ (c'.1 ≤ outLen ∧
        c'.2.length = out.length ∧ c'.2.take c'.1 = (str.chars.take c'.1).map conv) ∧
        outLen - c'.1 < outLen - c.1) ∨
      ∃ out', convertPass conv str outLen c = .ok (.leave out') ∧ out'.length = out.length ∧
        out'.take outLen = (str.chars.take outLen).map conv := by
    rintro ⟨i, b⟩ ⟨hi, hb, hfront⟩
    dsimp only at hi hb hfront
    by_cases hmore : i < outLen
    · obtain ⟨b', hstep, hb', hfront'⟩ := convert_pass hmore hlen (hb ▸ hout) hfront
      exact Or.inl ⟨_, hstep, ⟨hmore, hb'.trans hb, hfront'⟩, by dsimp only; omega⟩
    · have hend : i = outLen := by omega
      subst hend
      refine Or.inr ⟨b, ?_, hb, hfront⟩
      rw [convertPass, if_neg hmore]
      rfl
  obtain ⟨out', hloop, hresult⟩ := loop_total (fun c => outLen - c.1) hpass (outLen + 1) (0, out)
    ⟨Nat.zero_le _, rfl, rfl⟩ (Nat.lt_succ_self _)
  exact ⟨_, out', hloop, hresult⟩

variable [OfNat β 0]

/-- With room for one element the conversion stays inside and ends its text,
when no character becomes a zero. -/
theorem convert_safe (hlen : 1 ≤ len) (hsmall : len < sizeWord) (hout : out.length = len)
    (hzero : ∀ c ∈ str.chars.take (len - 1), conv c ≠ 0) :
    Safe conv str.chars len (convert conv str out len) := by
  generalize hn : (if str.strlen ≥ len then subSize len 1 else str.strlen) = outLen
  have hmin : outLen = min (len - 1) str.chars.length := by
    have hsub : subSize len 1 = len - 1 := by
      unfold subSize sizeWord
      unfold sizeWord at hsmall
      omega
    rw [← hn, hsub]
    unfold CString.strlen
    split <;> omega
  have hshort : outLen ≤ str.chars.length := by omega
  have htake : str.chars.take outLen = str.chars.take (len - 1) := by
    rw [hmin, ← List.take_take, List.take_length]
  have hfits : outLen ≤ out.length := by omega
  obtain ⟨fuel, b, hloop, hb, hfront⟩ := convert_loop conv hshort hfits
  have hroom : outLen + [(0 : β)].length ≤ b.length := by
    rw [List.length_singleton]
    omega
  have hstore := store_ok hroom
  refine ⟨fuel, _, ?_, (store_length hstore).trans (hb.trans hout), ?_⟩
  · rw [convert, hn, hloop, ok_bind, hstore]
  · intro _
    refine ⟨_, b.drop (outLen + 1), take_longest str.chars hlen, hzero, ?_⟩
    rw [hfront, htake]
    rfl

/-- Without room the length to convert wraps around, and the first character
is written outside. -/
theorem convert_outside (conv : α → β) (str : CString α) (hout : out.length = 0) (fuel : Nat) :
    ∃ e, convert conv str out 0 fuel = .error e := by
  have hn : (if str.strlen ≥ 0 then subSize 0 1 else str.strlen) = sizeWord - 1 := by
    rw [if_pos (Nat.zero_le _)]
    rfl
  have hpass : ∃ e, convertPass conv str (sizeWord - 1) (0, out) = .error e := by
    obtain ⟨c, hload⟩ : ∃ c, load (str.chars ++ [0]) 0 1 = .ok [c] := by
      cases hchars : str.chars with
      | nil => exact ⟨0, rfl⟩
      | cons c rest => exact ⟨c, by simp [load]⟩
    have hstore : store out 0 ([c].map conv) = .error .outOfBounds :=
      store_out (by rw [hout]; exact Nat.zero_lt_one)
    refine ⟨.outOfBounds, ?_⟩
    rw [convertPass, if_pos (by decide), hload, ok_bind, hstore]
    rfl
  obtain ⟨e, hpass⟩ := hpass
  rw [convert, hn]
  cases fuel with
  | zero => exact ⟨_, rfl⟩
  | succ fuel =>
    rw [loop_fails hpass]
    exact ⟨_, rfl⟩

theorem convert_safe_iff (hsmall : len < sizeWord) (hout : out.length = len) :
    Safe conv str.chars len (convert conv str out len) ↔
      1 ≤ len ∧ ∀ c ∈ str.chars.take (len - 1), conv c ≠ 0 := by
  constructor
  · rintro ⟨fuel, b, hcall, hconverted⟩
    have hlen : 1 ≤ len := by
      apply Nat.pos_of_ne_zero
      rintro rfl
      obtain ⟨e, herror⟩ := convert_outside conv str hout fuel
      rw [herror] at hcall
      cases hcall
    obtain ⟨part, _, hfit, hzero, _⟩ := hconverted.text hlen
    rw [← hfit.unique]
    exact ⟨hlen, hzero⟩
  · rintro ⟨hlen, hzero⟩
    exact convert_safe hlen hsmall hout hzero

end

theorem strncpy_fills (out : List Byte) (ansi : CString Byte) : ansiToAuto ansi out out.length =
    .ok (ansi.chars.take out.length ++ List.replicate (out.length - ansi.strlen) 0) := by
  have hlen : (ansi.chars.take out.length ++ List.replicate (out.length - ansi.strlen) 0).length =
      out.length := by
    rw [List.length_append, List.length_take, List.length_replicate, CString.strlen]
    omega
  rw [ansiToAuto, strncpy, store_ok (by omega), hlen, Nat.zero_add, List.drop_length]
  simp

/-- strncpy stays inside, but ends the text only when all of it fits. -/
theorem auto_safe_iff (ansi : CString Byte) (out : List Byte) :
    Safe id ansi.chars out.length (fun _ => ansiToAuto ansi out out.length) ↔
      out.length = 0 ∨ ansi.strlen < out.length := by
  have hcall := strncpy_fills out ansi
  constructor
  · rintro ⟨_, b, hb, hconverted⟩
    apply Decidable.by_contra
    intro hlong
    rw [not_or, Nat.not_lt] at hlong
    obtain ⟨part, rest, _, _, hzero⟩ := hconverted.text (Nat.pos_of_ne_zero hlong.1)
    dsimp only at hb
    rw [hcall, Nat.sub_eq_zero_of_le hlong.2] at hb
    cases hb
    have hmem : (0 : Byte) ∈ ansi.chars.take out.length := by
      rw [List.replicate_zero, List.append_nil] at hzero
      rw [hzero]
      simp
    exact ansi.ended 0 (List.mem_of_mem_take hmem) rfl
  · intro h
    refine ⟨0, _, hcall, ?_, ?_⟩
    · rw [List.length_append, List.length_take, List.length_replicate, CString.strlen]
      omega
    · intro hroom
      have hshort : ansi.strlen < out.length := h.resolve_left (by omega)
      obtain ⟨n, hn⟩ : ∃ n, out.length - ansi.strlen = n + 1 :=
        ⟨out.length - ansi.strlen - 1, by omega⟩
      have hall : ∀ k, ansi.strlen ≤ k → ansi.chars.take k = ansi.chars :=
        fun _ hk => List.take_of_length_le hk
      refine ⟨_, List.replicate n 0, take_longest ansi.chars hroom,
        fun c hc => ansi.ended c (List.mem_of_mem_take hc), ?_⟩
      rw [hall _ (by omega), hall _ (by omega), hn, List.map_id, List.replicate_succ,
        List.append_assoc]
      rfl

/-- The lengths the conversions are given are ints from 0 on. -/
def intLength (len : Nat) : Prop := len < 0x80000000

theorem intLength_small {len : Nat} (h : intLength len) : len < sizeWord := by
  unfold intLength at h
  unfold sizeWord
  omega

/-- No char but the zero becomes a zero. -/
theorem widen_ne_zero {c : Byte} (h : c ≠ 0) : widen c ≠ 0 := by
  intro hzero
  apply h
  have hint : c.toBitVec.toInt = 0 := by
    rw [← BitVec.toInt_signExtend_of_le (show 8 ≤ 32 by decide)]
    exact congrArg BitVec.toInt hzero
  exact UInt8.toBitVec_inj.mp (BitVec.eq_of_toInt_eq hint)

theorem narrow_eq_zero {c : WChar} : narrow c = 0 ↔ c &&& 0xff = 0 := by
  have hlow : (c &&& 0xff).toNat < 2 ^ 8 := by
    rw [BitVec.toNat_and]
    exact Nat.lt_of_le_of_lt Nat.and_le_right (by decide)
  rw [narrow, ← UInt8.toBitVec_inj, ← BitVec.toNat_inj, ← BitVec.toNat_inj]
  change ((c &&& 0xff).setWidth 8).toNat = 0 ↔ (c &&& 0xff).toNat = 0
  rw [BitVec.toNat_setWidth, Nat.mod_eq_of_lt hlow]

/-- ansi_to_utf16 is safe just when there is room for the zero, utf16_to_ansi
just when besides none of the characters that fit has a low byte of zero; the
one that copies just when there is room for the whole text and the zero, or none
at all. -/
theorem conversions_safe_iff (len : Nat) (hlen : intLength len) :
    (∀ (ansi : CString Byte) (utf : List WChar), utf.length = len →
      (Safe widen ansi.chars len (ansiToUtf16 ansi utf len) ↔ 1 ≤ len)) ∧
    (∀ (utf : CString WChar) (ansi : List Byte), ansi.length = len →
      (Safe narrow utf.chars len (utf16ToAnsi utf ansi len) ↔
        1 ≤ len ∧ ∀ c ∈ utf.chars.take (len - 1), c &&& 0xff ≠ 0)) ∧
    ∀ (ansi : CString Byte) (out : List Byte), out.length = len →
      (Safe id ansi.chars len (fun _ => ansiToAuto ansi out len) ↔
        len = 0 ∨ ansi.strlen < len) := by
  refine ⟨?_, ?_, ?_⟩
  · intro ansi utf hutf
    refine (convert_safe_iff (intLength_small hlen) hutf).trans (and_iff_left fun c hc => ?_)
    exact widen_ne_zero (ansi.ended c (List.mem_of_mem_take hc))
  · intro utf ansi hansi
    refine (convert_safe_iff (intLength_small hlen) hansi).trans (and_congr_right fun _ => ?_)
    exact forall₂_congr fun c _ => not_congr narrow_eq_zero
  · rintro ansi out rfl
    exact auto_safe_iff ansi out

/-- The text without a character. -/
def empty : CString Byte := ⟨[], fun _ h => absurd h List.not_mem_nil, by decide⟩

def ab : CString Byte :=
  ⟨[0x61, 0x62], List.forall_mem_cons.mpr ⟨by decide, List.forall_mem_singleton.mpr (by decide)⟩,
    by decide⟩

/-- A text of two characters in an array of three. -/
theorem conversions_safe_three : Safe id ab.chars 3 (fun _ => ansiToAuto ab [1, 1, 1] 3) :=
  ((conversions_safe_iff 3 (by unfold intLength; decide)).2.2 ab [1, 1, 1] rfl).mpr
    (Or.inr (by decide))

/-- The characters U+4E00 and U+0041. -/
def oneA : CString WChar :=
  ⟨[0x4E00, 0x41], List.forall_mem_cons.mpr ⟨by decide, List.forall_mem_singleton.mpr (by decide)⟩,
    by decide⟩

/-- With length 0 even an empty text is written outside, a text of two
characters fills an array of two without a zero, and one of two characters that
fit an array of three becomes empty. -/
theorem no_room_for_zero :
    ansiToUtf16 empty [] 0 1 = .error .outOfBounds ∧
    ansiToAuto ab [1, 1] 2 = .ok [0x61, 0x62] ∧
    utf16ToAnsi oneA [1, 1, 1] 3 9 = .ok [0, 0x41, 0] ∧
    ¬ Safe widen empty.chars 0 (ansiToUtf16 empty [] 0) ∧
    ¬ Safe id ab.chars 2 (fun _ => ansiToAuto ab [1, 1] 2) ∧
    ¬ Safe narrow oneA.chars 3 (utf16ToAnsi oneA [1, 1, 1] 3) := by
  refine ⟨rfl, rfl, rfl, ?_, ?_, ?_⟩
  · intro h
    have hroom := (convert_safe_iff (by decide) rfl).mp h
    exact absurd hroom.1 (by decide)
  · intro h
    have hroom := (auto_safe_iff ab [1, 1]).mp h
    exact absurd hroom (by decide)
  · intro h
    have hroom := (convert_safe_iff (by decide) rfl).mp h
    exact hroom.2 0x4E00 List.mem_cons_self (by decide)

end CkCore.Proofs.Strings
