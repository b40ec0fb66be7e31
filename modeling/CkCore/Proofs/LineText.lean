import CkCore.Proofs.LineReader

namespace CkCore.Proofs.LineText
open Lib CkCore.LineReader LineReader Detection

section
variable {T : Type} [DecidableEq T] {cr lf : T}

/-- The units that end no line. -/
def text (cr lf : T) (us : List T) : List T := us.filter fun c => decide (c ≠ cr ∧ c ≠ lf)

theorem text_append (us vs : List T) : text cr lf (us ++ vs) = text cr lf us ++ text cr lf vs :=
  List.filter_append us vs

theorem text_cons (c : T) (us : List T) :
    text cr lf (c :: us) = text cr lf [c] ++ text cr lf us := text_append [c] us

theorem text_cr : text cr lf [cr] = [] := by simp [text]

theorem text_lf : text cr lf [lf] = [] := by simp [text]

theorem afterCr_text (us : List T) :
    text cr lf ((afterCr lf us).next ++ (afterCr lf us).rest) = text cr lf us := by
  cases us with
  | nil => rfl
  | cons next rest =>
    by_cases hl : next = lf
    · rw [afterCr, if_pos hl, text_cons next, hl, text_lf]
      rfl
    · rw [afterCr, if_neg hl]
      rfl

/-- A cut parts a text in order, and drops nothing but terminators. -/
theorem cut_text (us : List T) :
    text cr lf (cut cr lf us).line ++ text cr lf ((cut cr lf us).next ++ (cut cr lf us).rest) =
      text cr lf us := by
  induction us with
  | nil => rfl
  | cons c us ih =>
    rw [text_cons c us]
    by_cases hl : c = lf
    · rw [hl, cut_lf, text_lf]
      rfl
    · by_cases hc : c = cr
      · rw [cut, if_neg hl, if_pos hc, afterCr_line, hc, text_cr]
        exact afterCr_text us
      · rw [cut_plain hl hc, text_cons c, List.append_assoc, ih]

/-- The calls that units and the bytes of an incomplete one can take at most. -/
def calls (next us : List T) (tail : List Byte) : Nat :=
  next.length + us.length + if tail = [] then 0 else 1

end

section
variable {T σ : Type} {type : CharType T} {src : InStream σ} {content : List Byte}
  {pos : σ → Nat}

theorem Units.exists (type : CharType T) (bytes : List Byte) :
    ∃ us tail, Units type bytes us tail ∧ us.length = bytes.length / type.size := by
  obtain ⟨n, hn⟩ : ∃ n, bytes.length ≤ n := ⟨_, Nat.le_refl _⟩
  have hpos := type.positive
  induction n generalizing bytes with
  | zero =>
    have hshort : bytes.length < type.size := by omega
    exact ⟨[], bytes, .none hshort, (Nat.div_eq_of_lt hshort).symm⟩
  | succ n ih =>
    by_cases hshort : bytes.length < type.size
    · exact ⟨[], bytes, .none hshort, (Nat.div_eq_of_lt hshort).symm⟩
    · have hsize : type.size ≤ bytes.length := Nat.le_of_not_lt hshort
      have hrest : (bytes.drop type.size).length = bytes.length - type.size := List.length_drop
      obtain ⟨us, tail, hu, hlen⟩ := ih (bytes.drop type.size) (by omega)
      have hunit := Units.unit (List.length_take_of_le hsize) hu
      rw [List.take_append_drop] at hunit
      refine ⟨_, tail, hunit, ?_⟩
      rw [List.length_cons, hlen, hrest, Nat.div_eq_sub_div hpos hsize]

variable [DecidableEq T] {self : LineReader T σ}

/-- On less than a unit a call returns what was pushed back, and nothing is left. -/
theorem readLine_tail (hx : Exact src content pos)
    (hshort : (content.drop (pos self.stream)).length < type.size) {fuel : Nat} (hf : 0 < fuel) :
    ∃ s', readLine type src fuel self =
        .ok (self.nextStr, { self with nextStr := [], stream := s' }) ∧
      content.drop (pos s') = [] := by
  by_cases hmore : content.drop (pos self.stream) = []
  · have hself : content.drop (pos ({ self with nextStr := [] } : LineReader T σ).stream) = [] :=
      hmore
    exact ⟨self.stream, loop_last hf (linePass_end hx hself _), hmore⟩
  · have hself : (content.drop (pos ({ self with nextStr := [] } : LineReader T σ).stream)).length <
        type.size := hshort
    obtain ⟨s', hpass, hs'⟩ := linePass_short hx hself hmore self.nextStr
    exact ⟨s', loop_last hf hpass, hs'⟩

/-- A call that is made leaves fewer calls to make, and returns the text it
takes. -/
theorem readLine_text (hx : Exact src content pos) {us : List T} {tail : List Byte}
    (hu : Units type (content.drop (pos self.stream)) us tail) {fuel : Nat}
    (hf : us.length < fuel) (hmore : ¬ self.end src = true) :
    ∃ line self' us' tail', readLine type src fuel self = .ok (line, self') ∧
      Units type (content.drop (pos self'.stream)) us' tail' ∧ us'.length ≤ us.length ∧
      calls self'.nextStr us' tail' < calls self.nextStr us tail ∧
      text type.cr type.lf line ++ text type.cr type.lf (self'.nextStr ++ us') =
        text type.cr type.lf (self.nextStr ++ us) := by
  cases us with
  | nil =>
    obtain ⟨hrem, hshort⟩ := hu.short
    rw [← hrem] at hshort
    obtain ⟨s', hread, hs'⟩ := readLine_tail hx hshort hf
    refine ⟨_, _, [], [], hread, ?_, Nat.le_refl _, ?_, ?_⟩
    · rw [hs']
      exact .none type.positive
    · have hpos : self.nextStr ≠ [] ∨ tail ≠ [] := by
        rw [← not_and_or]
        intro hnone
        apply hmore
        rw [LineReader.end, (end_iff hx _).mpr (hrem.trans hnone.2), hnone.1]
        rfl
      unfold calls
      rcases hpos with hnext | htail
      · have hlen := List.length_pos_iff.mpr hnext
        simp only [List.length_nil, if_true]
        omega
      · simp only [List.length_nil, if_true, htail, if_false]
        omega
    · rw [List.append_nil, List.append_nil]
      exact List.append_nil _
  | cons c us =>
    obtain ⟨s', hread, tail', hleft, ht⟩ := readLine_cut hx hu hf
    refine ⟨_, _, _, tail', hread, hleft, cut_rest_length _ _ _, ?_, ?_⟩
    · have hshorter : (cut type.cr type.lf (c :: us)).next.length +
          (cut type.cr type.lf (c :: us)).rest.length ≤ us.length := cut_shorter c us
      have htail : (if tail' = [] then 0 else 1) ≤ if tail = [] then 0 else 1 := by
        rcases ht with rfl | rfl
        · exact Nat.le_refl _
        · exact Nat.zero_le _
      unfold calls
      rw [List.length_cons]
      dsimp only
      omega
    · rw [text_append, text_append self.nextStr, List.append_assoc, cut_text]

/-- Reading to the end takes no more calls than counted, and returns the text. -/
theorem drain_text (hx : Exact src content pos) {fuel : Nat} {us : List T} {tail : List Byte}
    (hu : Units type (content.drop (pos self.stream)) us tail) (hf : us.length < fuel) {n : Nat}
    (hn : calls self.nextStr us tail < n) (acc : List (List T)) :
    ∃ lines, loop (drainPass type src fuel) n (acc, self) = .ok (acc ++ lines) ∧
      lines.length ≤ calls self.nextStr us tail ∧
      text type.cr type.lf lines.flatten = text type.cr type.lf (self.nextStr ++ us) := by
  induction n generalizing self us tail acc with
  | zero => omega
  | succ n ih =>
    by_cases hend : self.end src = true
    · have hpass : drainPass type src fuel (acc, self) = .ok (.leave acc) := by
        rw [drainPass, if_pos hend]
        rfl
      rw [LineReader.end, Bool.and_eq_true, end_iff hx, beq_iff_eq, List.length_eq_zero_iff] at hend
      have hnone : us = [] := by
        rw [hend.1] at hu
        generalize hbytes : ([] : List Byte) = bytes at hu
        cases hu with
        | none short => rfl
        | unit full rest =>
          have hpos := type.positive
          rw [(List.append_eq_nil_iff.mp hbytes.symm).1] at full
          simp only [List.length_nil] at full
          omega
      refine ⟨[], ?_, Nat.zero_le _, ?_⟩
      · rw [loop_leave hpass, List.append_nil]
      · rw [hend.2, hnone]
        rfl
    · obtain ⟨line, self', us', tail', hread, hu', hle, hless, htext⟩ :=
        readLine_text hx hu hf hend
      have hpass : drainPass type src fuel (acc, self) =
          .ok (.again (acc ++ [line], self')) := by
        rw [drainPass, if_neg hend, hread]
        rfl
      obtain ⟨lines, hloop, hcalls, hlines⟩ :=
        ih hu' (Nat.lt_of_le_of_lt hle hf) (Nat.lt_of_lt_of_le hless (Nat.le_of_lt_succ hn))
          (acc ++ [line])
      refine ⟨line :: lines, ?_, Nat.lt_of_le_of_lt hcalls hless, ?_⟩
      · rw [loop_again hpass, hloop, List.append_assoc]
        rfl
      · rw [List.flatten_cons, text_append, hlines, htext]

/-- More fuel does not change what a call returned, nor what all of them did. -/
theorem drain_mono {stale : Nat → Byte} {s : σ} {m n : Nat} {lines : List (List T)}
    (h : drain type src stale m s = .ok lines) (hmn : m ≤ n) :
    drain type src stale n s = .ok lines := by
  unfold drain at h ⊢
  obtain ⟨self, hcreate, hloop⟩ := bind_ok h
  rw [hcreate, ok_bind]
  refine loop_mono_body ?_ hloop hmn
  rintro ⟨acc, self⟩ pass hpass
  by_cases hend : self.end src = true
  · rw [drainPass, if_pos hend] at hpass ⊢
    exact hpass
  · rw [drainPass, if_neg hend] at hpass ⊢
    obtain ⟨⟨line, self'⟩, hread, hagain⟩ := bind_ok hpass
    have hmore : readLine type src n self = .ok (line, self') := loop_mono hread hmn
    rw [hmore, ok_bind]
    exact hagain

/-- Reading unmarked content line by line ends after one call more than there
are units at most, and the lines have all of the text in its order. -/
theorem lines_keep_text (hx : Exact src content pos) (hb : unmarked content) (stale : Nat → Byte)
    {s : σ} (hs : pos s = 0) (type : CharType T) :
    ∃ us tail lines, Units type content us tail ∧ us.length = content.length / type.size ∧
      (∀ fuel, content.length + 1 < fuel → drain type src stale fuel s = .ok lines) ∧
      lines.length ≤ us.length + 1 ∧
      text type.cr type.lf lines.flatten = text type.cr type.lf us := by
  obtain ⟨us, tail, hu, hlen⟩ := Units.exists type content
  obtain ⟨s', hdetect, hpos⟩ := detect_ansi hx hb stale hs
  have hcreate : create src stale s = .ok (⟨.ansi, [], s'⟩ : LineReader T σ) := by
    rw [create, hdetect]
    rfl
  have hu' : Units type (content.drop (pos (⟨.ansi, [], s'⟩ : LineReader T σ).stream)) us tail := by
    rw [hpos]
    exact hu
  have hle : us.length ≤ content.length := by
    rw [hlen]
    exact Nat.div_le_self _ _
  have hcalls : calls ([] : List T) us tail ≤ us.length + 1 := by
    unfold calls
    simp only [List.length_nil]
    split <;> omega
  have hfuel : us.length < content.length + 2 := by omega
  have hn : calls ([] : List T) us tail < content.length + 2 := by omega
  obtain ⟨lines, hloop, hcount, htext⟩ := drain_text hx hu' hfuel hn []
  refine ⟨us, tail, lines, hu, hlen, ?_, Nat.le_trans hcount hcalls, htext⟩
  intro fuel hfuel
  refine drain_mono ?_ (Nat.succ_le_of_lt hfuel)
  rw [drain, hcreate]
  exact hloop

/-- Three shorts, of which the second is a CR, and half of another one. -/
theorem lines_keep_text_short : ∃ us tail lines,
    Units .short [97, 0, 13, 0, 98, 0, 99] us tail ∧ us.length = 3 ∧
      (∀ fuel, 8 < fuel → drain .short (pieces [97, 0, 13, 0, 98, 0, 99] 7) (fun _ => 0) fuel 0 =
        .ok lines) ∧
      lines.length ≤ us.length + 1 ∧ text 13 10 lines.flatten = text 13 10 us :=
  lines_keep_text (pieces_exact [97, 0, 13, 0, 98, 0, 99]) (by decide) (fun _ => 0) rfl .short

end

end CkCore.Proofs.LineText
