import CkCore.Spec.Lines
import CkCore.Spec.Streams

namespace CkCore.Proofs.Detection
open Lib CkCore.LineReader

section
variable {σ : Type} {src : InStream σ} {content : List Byte} {pos : σ → Nat}
  {bytes rest mark : List Byte} {stale : Nat → Byte} {found : Encoding × σ}

/-- A mark is found in the array just when the bytes read start with it: what
the array holds behind them is not looked at. -/
theorem hit_iff (hl : mark.length ≤ bytes.length) :
    (mark.zipIdx.all fun (byte, i) => bytes.getD i (stale i) == byte) = true ↔ mark <+: bytes := by
  rw [List.all_eq_true, List.prefix_iff_getElem]
  constructor
  · intro h
    refine ⟨hl, ?_⟩
    intro i hi
    have hin : i < bytes.length := by omega
    have hmem : (mark[i], i) ∈ mark.zipIdx := by
      rw [List.mem_zipIdx_iff_getElem?]
      exact List.getElem?_eq_getElem hi
    have hbyte := h _ hmem
    simp only [List.getD_eq_getElem?_getD, List.getElem?_eq_getElem hin, Option.getD_some,
      beq_iff_eq] at hbyte
    exact hbyte.symm
  · rintro ⟨_, h⟩ ⟨byte, i⟩ hmem
    rw [List.mem_zipIdx_iff_getElem?] at hmem
    obtain ⟨hi, hbyte⟩ := List.getElem?_eq_some_iff.mp hmem
    have hin : i < bytes.length := by omega
    simp only [List.getD_eq_getElem?_getD, List.getElem?_eq_getElem hin, Option.getD_some,
      beq_iff_eq]
    rw [← h i hi, hbyte]

/-- What the tests have found so far is the longest of the marks they looked
for, and the stream stands behind it. -/
def Found (pos : σ → Nat) (rest : List Byte) (tests : Nat) (found : Encoding × σ) : Prop :=
  (found.1, pos found.2) = longest .ansi (marks.take tests) rest

/-- One more test keeps this when it skips what the tests in front of it have
not skipped of its mark. -/
theorem Found.check {tests : Nat} (h : Found pos rest tests found) (hx : Exact src content pos)
    (hb : bytes <+: rest) (hfits : rest.length ≤ content.length) (stale : Nat → Byte)
    (encoding : Encoding) (skip : Nat) {value : Encoding}
    (hmark : marks[tests]? = some (mark, value))
    (hl : mark.length ≤ bytes.length)
    (hle : ∀ entry ∈ marks.take tests, entry.1.length ≤ mark.length)
    (hskip : (longest .ansi (marks.take tests) mark).2 + skip = mark.length)
    (hvalue : encoding = value ∨
      encoding = found.1 ∧ (longest .ansi (marks.take tests) mark).1 = value) :
    ∃ found', LineReader.check src (fun i => bytes.getD i (stale i)) mark encoding skip found =
      .ok found' ∧ Found pos rest (tests + 1) found' := by
  have htake : marks.take (tests + 1) = marks.take tests ++ [(mark, value)] := by
    rw [List.take_add_one, hmark]
    rfl
  unfold Found LineReader.check
  rw [htake]
  by_cases hp : mark <+: rest
  · have hhit : mark <+: bytes := List.prefix_of_prefix_length_le hp hb hl
    have hmarked := longest_of_prefix Encoding.ansi hp hle
    unfold Found at h
    rw [hmarked] at h
    have hpos : pos found.2 + skip = mark.length := by
      rw [← hskip, ← h]
    have hvalue' : encoding = value := by
      rcases hvalue with hval | ⟨henc, hval⟩
      · exact hval
      · rw [henc, ← hval, ← h]
    have hin : pos found.2 + skip ≤ content.length := by
      have hle := hp.length_le
      omega
    obtain ⟨s', hseek, hs'⟩ := hx.current found.2 skip hin
    refine ⟨(encoding, s'), ?_, ?_⟩
    · rw [if_pos ((hit_iff hl).mpr hhit), hseek]
      rfl
    · rw [longest_snoc _ _ hp, hmarked, if_pos (by dsimp only; omega), hs', hpos, hvalue']
  · refine ⟨found, if_neg fun hhit => hp (((hit_iff hl).mp hhit).trans hb), ?_⟩
    rw [longest_miss _ _ (List.forall_mem_singleton.mpr hp)]
    exact h

/-- Marks longer than what there is to read are not in front of it. -/
theorem Found.all {tests n : Nat} (h : Found pos rest tests found) (hshort : rest.length < n)
    (hlong : ∀ entry ∈ marks.drop tests, n ≤ entry.1.length) :
    (found.1, pos found.2) = longest .ansi marks rest := by
  have hmiss : ∀ entry ∈ marks.drop tests, ¬ entry.1 <+: rest := by
    intro entry hentry hp
    have hlen := hlong entry hentry
    have hle := hp.length_le
    omega
  have hall := longest_miss Encoding.ansi (marks.take tests) hmiss
  rw [List.take_append_drop] at hall
  rw [hall]
  exact h

/-- The tests find the longest of the marks, and leave the stream behind it. -/
theorem detect_longest (hx : Exact src content pos) (stale : Nat → Byte) (s : σ) :
    ∃ encoding s', detect src stale s = .ok (encoding, s') ∧
      (encoding, pos s') = longest .ansi marks (content.drop (pos s)) := by
  obtain ⟨s₁, hread, _⟩ := hx.read s 4
  obtain ⟨s₂, hseek, hpos⟩ := hx.begin s₁ 0 (Nat.zero_le _)
  generalize hrest : content.drop (pos s) = rest at hread
  have hfits : rest.length ≤ content.length := by
    rw [← hrest, List.length_drop]
    exact Nat.sub_le _ _
  have hb : rest.take 4 <+: rest := List.take_prefix 4 rest
  have hlen : (rest.take 4).length = min 4 rest.length := List.length_take
  have h0 : Found pos rest 0 (Encoding.ansi, s₂) := congrArg _ hpos
  simp only [detect, hread, ok_bind, hseek]
  by_cases hr2 : rest.length < 2
  · rw [if_pos (by omega)]
    exact ⟨_, _, rfl, h0.all hr2 (by decide)⟩
  · rw [if_neg (by omega)]
    have hl2 : 2 ≤ (rest.take 4).length := by omega
    obtain ⟨f1, hc, h1⟩ := h0.check hx hb hfits stale .utf16be 2
      (show marks[0]? = some ([0xfe, 0xff], .utf16be) from rfl)
      hl2 (by decide) (by decide) (Or.inl rfl)
    rw [hc, ok_bind]
    obtain ⟨f2, hc, h2⟩ := h1.check hx hb hfits stale .utf16le 2
      (show marks[1]? = some ([0xff, 0xfe], .utf16le) from rfl)
      hl2 (by decide) (by decide) (Or.inl rfl)
    rw [hc, ok_bind]
    by_cases hr3 : rest.length < 3
    · rw [if_pos (by omega)]
      exact ⟨_, _, rfl, h2.all hr3 (by decide)⟩
    · rw [if_neg (by omega)]
      have hl3 : 3 ≤ (rest.take 4).length := by omega
      obtain ⟨f3, hc, h3⟩ := h2.check hx hb hfits stale .utf1 3
        (show marks[2]? = some ([0xf7, 0x64, 0x4c], .utf1) from rfl)
        hl3 (by decide) (by decide) (Or.inl rfl)
      rw [hc, ok_bind]
      obtain ⟨f4, hc, h4⟩ := h3.check hx hb hfits stale .utf8 3
        (show marks[3]? = some ([0xef, 0xbb, 0xbf], .utf8) from rfl)
        hl3 (by decide) (by decide) (Or.inl rfl)
      rw [hc, ok_bind]
      obtain ⟨f5, hc, h5⟩ := h4.check hx hb hfits stale .scsu 3
        (show marks[4]? = some ([0x0e, 0xfe, 0xff], .scsu) from rfl)
        hl3 (by decide) (by decide) (Or.inl rfl)
      rw [hc, ok_bind]
      obtain ⟨f6, hc, h6⟩ := h5.check hx hb hfits stale .bocu1 3
        (show marks[5]? = some ([0xfb, 0xee, 0x28], .bocu1) from rfl)
        hl3 (by decide) (by decide) (Or.inl rfl)
      rw [hc, ok_bind]
      by_cases hr4 : rest.length < 4
      · rw [if_pos (by omega)]
        exact ⟨_, _, rfl, h6.all hr4 (by decide)⟩
      · rw [if_neg (by omega)]
        have hl4 : 4 ≤ (rest.take 4).length := by omega
        obtain ⟨f7, hc, h7⟩ := h6.check hx hb hfits stale .utf32be 4
          (show marks[6]? = some ([0x00, 0x00, 0xfe, 0xff], .utf32be) from rfl)
          hl4 (by decide) (by decide) (Or.inl rfl)
        rw [hc, ok_bind]
        obtain ⟨f8, hc, h8⟩ := h7.check hx hb hfits stale .utf32le 2
          (show marks[7]? = some ([0xff, 0xfe, 0x00, 0x00], .utf32le) from rfl)
          hl4 (by decide) (by decide) (Or.inl rfl)
        rw [hc, ok_bind]
        obtain ⟨f9, hc, h9⟩ := h8.check hx hb hfits stale .utfebcdic 4
          (show marks[8]? = some ([0xdd, 0x73, 0x66, 0x73], .utfebcdic) from rfl)
          hl4 (by decide) (by decide) (Or.inl rfl)
        rw [hc, ok_bind]
        obtain ⟨f10, hc, h10⟩ := h9.check hx hb hfits stale f9.1 1
          (show marks[9]? = some ([0xfb, 0xee, 0x28, 0xff], .bocu1) from rfl)
          hl4 (by decide) (by decide) (Or.inr ⟨rfl, by decide⟩)
        rw [hc]
        exact ⟨_, _, rfl,
          h10.all (Nat.lt_succ_self _) fun _ hentry => absurd hentry List.not_mem_nil⟩

/-- Content without a mark is taken for ANSI and read from its beginning. -/
theorem detect_ansi (hx : Exact src content pos) (hb : unmarked content) (stale : Nat → Byte)
    {s : σ} (hs : pos s = 0) :
    ∃ s', detect src stale s = .ok (.ansi, s') ∧ pos s' = 0 := by
  obtain ⟨encoding, s', hdetect, hlongest⟩ := detect_longest hx stale s
  have hnone : ∀ entry ∈ marks, ¬ entry.1 <+: content := by
    intro entry hentry
    refine hb entry.1 ?_
    rw [← marks_byteOrderMarks]
    exact List.mem_map_of_mem hentry
  have hmiss := longest_miss Encoding.ansi [] hnone
  rw [List.nil_append] at hmiss
  rw [hs, List.drop_zero, hmiss] at hlongest
  obtain ⟨rfl, hpos⟩ := Prod.mk.inj hlongest
  exact ⟨s', hdetect, hpos⟩

/-- Detection gives the encoding of the longest mark in front of what there is
to read, ANSI without one, and leaves the stream right behind the mark. -/
theorem encoding_detects (hx : Exact src content pos) (stale : Nat → Byte) (s : σ) :
    ∃ encoding s', detect src stale s = .ok (encoding, s') ∧
      IsLongest .ansi marks (content.drop (pos s)) (encoding, pos s') := by
  obtain ⟨encoding, s', hdetect, hlongest⟩ := detect_longest hx stale s
  refine ⟨encoding, s', hdetect, ?_⟩
  rw [hlongest]
  exact longest_isLongest _ _ _

/-- The mark of UTF-32LE begins with the one of UTF-16LE. -/
theorem encoding_detects_utf32le : ∃ encoding s',
    detect (pieces [0xff, 0xfe, 0x00, 0x00, 0x61] 5) (fun _ => 0) 0 = .ok (encoding, s') ∧
      IsLongest .ansi marks [0xff, 0xfe, 0x00, 0x00, 0x61] (encoding, s'.val) :=
  encoding_detects (pieces_exact [0xff, 0xfe, 0x00, 0x00, 0x61]) (fun _ => 0) 0

end

end CkCore.Proofs.Detection
