import CkCore.Proofs.Detection

namespace CkCore.Proofs.LineReader
open Lib CkCore.LineReader Detection

section
variable {T : Type} [DecidableEq T]

/-- What one call takes off a text: the line, the unit pushed back and what is
left unread. -/
structure Cut (T : Type) where
  line : List T
  next : List T
  rest : List T

/-- The look-ahead after a CR. -/
def afterCr (lf : T) : List T → Cut T
  | [] => ⟨[], [], []⟩
  | next :: rest => if next = lf then ⟨[], [], rest⟩ else ⟨[], [next], rest⟩

def cut (cr lf : T) : List T → Cut T
  | [] => ⟨[], [], []⟩
  | c :: us =>
    if c = lf then ⟨[], [], us⟩
    else if c = cr then afterCr lf us
    else ⟨c :: (cut cr lf us).line, (cut cr lf us).next, (cut cr lf us).rest⟩

/-- The lines the calls return on a text, with what has been pushed back. -/
inductive Reads (cr lf : T) : List T → List T → List (List T) → Prop where
  | done : Reads cr lf [] [] []
  | line {next us : List T} {lines : List (List T)} (more : ¬ (next = [] ∧ us = []))
      (tail : Reads cr lf (cut cr lf us).next (cut cr lf us).rest lines) :
      Reads cr lf next us ((next ++ (cut cr lf us).line) :: lines)

variable {cr lf : T}

theorem cut_lf (us : List T) : cut cr lf (lf :: us) = ⟨[], [], us⟩ := if_pos rfl

theorem cut_cr (hne : cr ≠ lf) (us : List T) : cut cr lf (cr :: us) = afterCr lf us := by
  rw [cut, if_neg hne, if_pos rfl]

theorem cut_plain {c : T} (hl : c ≠ lf) (hc : c ≠ cr) (us : List T) :
    cut cr lf (c :: us) =
      ⟨c :: (cut cr lf us).line, (cut cr lf us).next, (cut cr lf us).rest⟩ := by
  rw [cut, if_neg hl, if_neg hc]

theorem afterCr_line (us : List T) : (afterCr lf us).line = [] := by
  cases us with
  | nil => rfl
  | cons next rest =>
    rw [afterCr]
    by_cases hl : next = lf
    · rw [if_pos hl]
    · rw [if_neg hl]

theorem afterCr_le (us : List T) :
    (afterCr lf us).next.length + (afterCr lf us).rest.length ≤ us.length := by
  cases us with
  | nil => exact Nat.le_refl 0
  | cons next rest =>
    by_cases hl : next = lf
    · simp [afterCr, hl]
    · simp [afterCr, hl, Nat.add_comm]

/-- A call uses up at least one unit of a text that has any. -/
theorem cut_shorter (c : T) (us : List T) :
    (cut cr lf (c :: us)).next.length + (cut cr lf (c :: us)).rest.length ≤ us.length := by
  induction us generalizing c with
  | nil =>
    unfold cut
    split
    · exact Nat.le_refl _
    · split <;> exact Nat.le_refl _
  | cons d us ih =>
    unfold cut
    split
    · simp
    · split
      · exact afterCr_le _
      · exact Nat.le_succ_of_le (ih d)

theorem cut_nil : cut cr lf ([] : List T) = ⟨[], [], []⟩ := rfl

/-- The calls end after at most one call for each unit not yet returned. -/
theorem Reads.exists (cr lf : T) (next us : List T) :
    ∃ lines, Reads cr lf next us lines ∧ lines.length ≤ next.length + us.length := by
  obtain ⟨n, hn⟩ : ∃ n, next.length + us.length ≤ n := ⟨_, Nat.le_refl _⟩
  induction n generalizing next us with
  | zero =>
    have hnext : next = [] := List.length_eq_zero_iff.mp (by omega)
    have hus : us = [] := List.length_eq_zero_iff.mp (by omega)
    subst hnext hus
    exact ⟨[], .done, Nat.le_refl _⟩
  | succ n ih =>
    by_cases hend : next = [] ∧ us = []
    · obtain ⟨rfl, rfl⟩ := hend
      exact ⟨[], .done, Nat.le_refl _⟩
    · have hless : (cut cr lf us).next.length + (cut cr lf us).rest.length + 1 ≤
          next.length + us.length := by
        cases us with
        | nil =>
          have hpos : 0 < next.length := List.length_pos_iff.mpr fun h => hend ⟨h, rfl⟩
          simpa [cut] using Nat.succ_le_of_lt hpos
        | cons c us =>
          have hshorter : (cut cr lf (c :: us)).next.length + (cut cr lf (c :: us)).rest.length ≤
              us.length := cut_shorter c us
          simp only [List.length_cons]
          omega
      obtain ⟨lines, hl, hlen⟩ := ih (cut cr lf us).next (cut cr lf us).rest (by omega)
      refine ⟨_, .line hend hl, ?_⟩
      rw [List.length_cons]
      omega

/-- A text whose first line is taken off by a call without any push-back. -/
theorem linesOf_cut (hne : cr ≠ lf) (c : T) (us : List T) :
    linesOf cr lf (c :: us) = (cut cr lf (c :: us)).line ::
      linesOf cr lf ((cut cr lf (c :: us)).next ++ (cut cr lf (c :: us)).rest) := by
  induction us generalizing c with
  | nil =>
    by_cases hl : c = lf
    · simp [linesOf, hl, cut_lf]
    · by_cases hc : c = cr
      · subst hc
        simp [linesOf, cut_cr hne, afterCr]
      · simp [linesOf, hl, hc, cut]
  | cons next rest ih =>
    by_cases hl : c = lf
    · simp [linesOf, hl, cut_lf]
    · by_cases hc : c = cr
      · subst hc
        rw [linesOf, if_neg hl, if_pos rfl, cut_cr hne, afterCr]
        split <;> rfl
      · rw [linesOf, if_neg hl, if_neg hc, cut_plain hl hc, ih next]
        rfl

/-- A unit that ends no line goes in front of the first. -/
theorem linesOf_plain {c : T} (hl : c ≠ lf) (hc : c ≠ cr) (us : List T) :
    linesOf cr lf (c :: us) = onFirst c (linesOf cr lf us) := by
  cases us with
  | nil => simp [linesOf, hl, hc, onFirst]
  | cons next rest => rw [linesOf, if_neg hl, if_neg hc]

/-- What has been pushed back ends no line. -/
def plain (cr lf : T) (next : List T) : Prop := next = [] ∨ ∃ c, next = [c] ∧ c ≠ cr ∧ c ≠ lf

theorem cut_next (hne : cr ≠ lf) {us : List T} (hus : ¬ [cr, cr] <:+: us) :
    plain cr lf (cut cr lf us).next := by
  induction us with
  | nil => exact Or.inl rfl
  | cons c us ih =>
    have htail : ¬ [cr, cr] <:+: us := fun h => hus (h.trans (List.suffix_cons c us).isInfix)
    by_cases hl : c = lf
    · subst hl
      rw [cut_lf]
      exact Or.inl rfl
    · by_cases hc : c = cr
      · subst hc
        rw [cut_cr hne]
        cases us with
        | nil => exact Or.inl rfl
        | cons next rest =>
          by_cases hn : next = lf
          · simp [afterCr, hn, plain]
          · have hcr : next ≠ c := by
              intro h
              subst h
              exact hus ⟨[], rest, rfl⟩
            simp [afterCr, hn, hcr, plain]
      · rw [cut_plain hl hc]
        exact ih htail

/-- What a call leaves unread is a suffix of the text. -/
theorem cut_rest (us : List T) : (cut cr lf us).rest <:+ us := by
  induction us with
  | nil => exact List.suffix_refl _
  | cons c us ih =>
    have hafter : (afterCr lf us).rest <:+ us := by
      cases us with
      | nil => exact List.suffix_refl _
      | cons next rest =>
        by_cases hl : next = lf
        · simp [afterCr, hl]
        · simp [afterCr, hl]
    have htail : us <:+ c :: us := List.suffix_cons c us
    unfold cut
    split
    · exact htail
    · split
      · exact hafter.trans htail
      · exact ih.trans htail

/-- Two carriage returns in a row leave the second of them pushed back, or both
unread. -/
theorem cut_double (hne : cr ≠ lf) {us : List T} (hus : [cr, cr] <:+: us) :
    cr ∈ (cut cr lf us).next ∨ [cr, cr] <:+: (cut cr lf us).rest := by
  induction us with
  | nil => simp at hus
  | cons c us ih =>
    rcases List.infix_cons_iff.mp hus with hfront | htail
    · obtain ⟨rfl, rest, hrest⟩ : c = cr ∧ ∃ rest, us = cr :: rest := by
        obtain ⟨rest, h⟩ := hfront
        simp only [List.cons_append, List.nil_append, List.cons.injEq] at h
        exact ⟨h.1.symm, rest, h.2.symm⟩
      rw [cut_cr hne, hrest, afterCr, if_neg hne]
      exact Or.inl (List.mem_singleton.mpr rfl)
    · by_cases hl : c = lf
      · subst hl
        rw [cut_lf]
        exact Or.inr htail
      · by_cases hc : c = cr
        · subst hc
          rw [cut_cr hne]
          cases us with
          | nil => simp at htail
          | cons next rest =>
            by_cases hn : next = lf
            · have hrest : [c, c] <:+: rest := by
                rcases List.infix_cons_iff.mp htail with ⟨more, h⟩ | hr
                · simp only [List.cons_append, List.cons.injEq] at h
                  exact absurd (h.1.trans hn) hne
                · exact hr
              simp only [afterCr, hn, if_true]
              exact Or.inr hrest
            · rcases List.infix_cons_iff.mp htail with ⟨more, h⟩ | hr
              · simp only [List.cons_append, List.cons.injEq] at h
                simp [afterCr, hn, h.1]
              · simp only [afterCr, hn, if_false]
                exact Or.inr hr
        · rw [cut_plain hl hc]
          exact ih htail

/-- Without two carriage returns in a row the calls return the lines. -/
theorem Reads.lines {next us : List T} {lines : List (List T)} (h : Reads cr lf next us lines)
    (hne : cr ≠ lf) (hnext : plain cr lf next) (hus : ¬ [cr, cr] <:+: us) :
    lines = linesOf cr lf (next ++ us) := by
  induction h with
  | done => rfl
  | @line next us lines more tail ih =>
    have hrest : ¬ [cr, cr] <:+: (cut cr lf us).rest :=
      fun h => hus (h.trans (cut_rest us).isInfix)
    have hlines := ih (cut_next hne hus) hrest
    have hsplit : us = [] ∨ linesOf cr lf us = (cut cr lf us).line :: lines := by
      cases us with
      | nil => exact Or.inl rfl
      | cons c us => exact Or.inr (by rw [linesOf_cut hne, hlines])
    rcases hnext with rfl | ⟨c, rfl, hc, hl⟩
    · rcases hsplit with rfl | hsplit
      · exact absurd ⟨rfl, rfl⟩ more
      · exact hsplit.symm
    · have happ : linesOf cr lf ([c] ++ us) = onFirst c (linesOf cr lf us) :=
        linesOf_plain hl hc us
      rw [happ]
      rcases hsplit with rfl | hsplit
      · rw [hlines]
        rfl
      · rw [hsplit]
        rfl

/-- Two carriage returns in a row put one of them into a returned line. -/
theorem Reads.double {next us : List T} {lines : List (List T)} (h : Reads cr lf next us lines)
    (hne : cr ≠ lf) (hus : cr ∈ next ∨ [cr, cr] <:+: us) : ∃ line ∈ lines, cr ∈ line := by
  induction h with
  | done => simp at hus
  | @line next us lines more tail ih =>
    rcases hus with hnext | hus
    · exact ⟨_, List.mem_cons_self, List.mem_append_left _ hnext⟩
    · obtain ⟨line, hl, hc⟩ := ih (cut_double hne hus)
      exact ⟨line, List.mem_cons_of_mem _ hl, hc⟩

omit [DecidableEq T] in
theorem onFirst_free {c : T} (hc : c ≠ cr) (hl : c ≠ lf) {lines : List (List T)}
    (h : ∀ line ∈ lines, cr ∉ line ∧ lf ∉ line) :
    ∀ line ∈ onFirst c lines, cr ∉ line ∧ lf ∉ line := by
  cases lines with
  | nil => simp [onFirst, hc.symm, hl.symm]
  | cons first lines =>
    intro line hline
    rcases List.mem_cons.mp hline with rfl | hmem
    · have hfirst := h first List.mem_cons_self
      simp [hc.symm, hl.symm, hfirst]
    · exact h line (List.mem_cons_of_mem _ hmem)

/-- No line of a text contains a terminator. -/
theorem linesOf_free (us : List T) : ∀ line ∈ linesOf cr lf us, cr ∉ line ∧ lf ∉ line := by
  have hempty : ∀ lines : List (List T), (∀ line ∈ lines, cr ∉ line ∧ lf ∉ line) →
      ∀ line ∈ [] :: lines, cr ∉ line ∧ lf ∉ line := by
    intro lines h
    simpa using h
  induction us using linesOf.induct cr lf with
  | case1 => simp [linesOf]
  | case2 c h => simp [linesOf, h]
  | case3 c h =>
    rw [not_or] at h
    simp [linesOf, h.1, h.2, Ne.symm h.1, Ne.symm h.2]
  | case4 next rest ih =>
    rw [linesOf, if_pos rfl]
    exact hempty _ ih
  | case5 rest hne ih =>
    rw [linesOf, if_neg hne, if_pos rfl, if_pos rfl]
    exact hempty _ ih
  | case6 next rest hn hne ih =>
    rw [linesOf, if_neg hne, if_pos rfl, if_neg hn]
    exact hempty _ ih
  | case7 c next rest hl hc ih =>
    rw [linesOf, if_neg hl, if_neg hc]
    exact onFirst_free hc hl ih

/-- The lines returned are those of the text, and none holds a terminator. -/
def exactly (cr lf : T) (us : List T) (lines : List (List T)) : Prop :=
  lines = linesOf cr lf us ∧ ∀ line ∈ lines, cr ∉ line ∧ lf ∉ line

/-- The calls return the lines just when no two carriage returns follow each
other. -/
theorem Reads.exactly_iff {us : List T} {lines : List (List T)} (h : Reads cr lf [] us lines)
    (hne : cr ≠ lf) : exactly cr lf us lines ↔ ¬ [cr, cr] <:+: us := by
  constructor
  · intro ⟨_, hfree⟩ hus
    obtain ⟨line, hl, hc⟩ := h.double hne (Or.inr hus)
    exact (hfree line hl).1 hc
  · intro hus
    have hlines := h.lines hne (Or.inl rfl) hus
    rw [List.nil_append] at hlines
    refine ⟨hlines, ?_⟩
    rw [hlines]
    exact linesOf_free us

end

section
variable {T σ : Type}

/-- Bytes as the units they hold and the bytes of an incomplete last unit. -/
inductive Units (type : CharType T) : List Byte → List T → List Byte → Prop where
  | none {tail : List Byte} (short : tail.length < type.size) : Units type tail [] tail
  | unit {chunk bytes tail : List Byte} {us : List T} (full : chunk.length = type.size)
      (rest : Units type bytes us tail) :
      Units type (chunk ++ bytes) (type.ofBytes chunk :: us) tail

theorem Units.short {type : CharType T} {bytes tail : List Byte} (h : Units type bytes [] tail) :
    bytes = tail ∧ tail.length < type.size := by
  cases h with
  | none short => exact ⟨rfl, short⟩

variable {type : CharType T} {src : InStream σ} {content : List Byte} {pos : σ → Nat}

theorem end_iff (hx : Exact src content pos) (s : σ) :
    src.end s = true ↔ content.drop (pos s) = [] := by
  rw [hx.ended, List.drop_eq_nil_iff]
  have := hx.bounded s
  omega

/-- Reading a whole unit. -/
theorem read_unit (hx : Exact src content pos) {s : σ} {chunk bytes : List Byte}
    (hrem : content.drop (pos s) = chunk ++ bytes) (hfull : chunk.length = type.size) :
    ∃ s', src.read s type.size = .ok (⟨type.size, chunk⟩, s') ∧
      content.drop (pos s') = bytes := by
  obtain ⟨s', hr, hs⟩ := hx.read s type.size
  rw [hrem, ← hfull, List.take_left, hfull] at hr
  rw [hrem, ← hfull, List.drop_left] at hs
  exact ⟨s', hr, hs⟩

/-- Reading what is less than a unit uses it up. -/
theorem read_short (hx : Exact src content pos) {s : σ}
    (hshort : (content.drop (pos s)).length < type.size) :
    ∃ r s', src.read s type.size = .ok (r, s') ∧ r.ret ≠ type.size ∧
      content.drop (pos s') = [] := by
  have hne : ((content.drop (pos s)).length : Int) ≠ type.size := by omega
  obtain ⟨s', hr, hs⟩ := hx.read s type.size
  rw [List.take_of_length_le (Nat.le_of_lt hshort)] at hr
  exact ⟨_, s', hr, hne, hs.trans (List.drop_eq_nil_of_le (Nat.le_of_lt hshort))⟩

theorem not_ended (hx : Exact src content pos) {s : σ} {chunk bytes : List Byte}
    (hrem : content.drop (pos s) = chunk ++ bytes) (hfull : chunk.length = type.size) :
    ¬ src.end s = true := by
  have hpos := type.positive
  rw [end_iff hx, hrem]
  intro h
  have hchunk : chunk = [] := (List.append_eq_nil_iff.mp h).1
  rw [hchunk] at hfull
  simp only [List.length_nil] at hfull
  omega

variable [DecidableEq T] {self : LineReader T σ}

theorem linePass_end (hx : Exact src content pos) (hrem : content.drop (pos self.stream) = [])
    (line : List T) : linePass type src (line, self) = .ok (.leave (line, self)) := by
  rw [linePass, if_pos ((end_iff hx _).mpr hrem)]
  rfl

theorem linePass_short (hx : Exact src content pos)
    (hshort : (content.drop (pos self.stream)).length < type.size)
    (hmore : content.drop (pos self.stream) ≠ []) (line : List T) :
    ∃ s', linePass type src (line, self) = .ok (.leave (line, { self with stream := s' })) ∧
      content.drop (pos s') = [] := by
  obtain ⟨r, s', hr, hne, hs⟩ := read_short hx hshort
  refine ⟨s', ?_, hs⟩
  have hend : ¬ src.end self.stream = true := fun h => hmore ((end_iff hx _).mp h)
  rw [linePass, if_neg hend, hr]
  simp only [ok_bind, ne_eq, hne, not_false_eq_true, ↓reduceIte]
  rfl

section
variable {chunk : List Byte} {s' : σ} (hend : ¬ src.end self.stream = true)
  (hr : src.read self.stream type.size = .ok (⟨type.size, chunk⟩, s')) (line : List T)
include hend hr

theorem linePass_lf (hl : type.ofBytes chunk = type.lf) :
    linePass type src (line, self) = .ok (.leave (line, { self with stream := s' })) := by
  rw [linePass, if_neg hend, hr]
  simp only [ok_bind, ne_eq, not_true_eq_false, ↓reduceIte, hl]
  rfl

theorem linePass_plain (hl : type.ofBytes chunk ≠ type.lf) (hc : type.ofBytes chunk ≠ type.cr) :
    linePass type src (line, self) =
      .ok (.again (line ++ [type.ofBytes chunk], { self with stream := s' })) := by
  rw [linePass, if_neg hend, hr]
  simp only [ok_bind, ne_eq, not_true_eq_false, ↓reduceIte, hl, hc]
  rfl

theorem linePass_cr (hc : type.ofBytes chunk = type.cr) {read : ReadResult} {s'' : σ}
    (hread : src.read s' type.size = .ok (read, s'')) :
    linePass type src (line, self) = .ok (.leave (line, { self with
      nextStr := if read.ret = type.size ∧ type.ofBytes read.data ≠ type.lf
        then self.nextStr ++ [type.ofBytes read.data] else self.nextStr
      stream := s'' })) := by
  rw [linePass, if_neg hend, hr]
  simp only [ok_bind, ne_eq, not_true_eq_false, ↓reduceIte, hc, type.distinct, hread]
  split <;> rfl

end

/-- What a call leaves: the units of the cut, with no incomplete unit unless it
was there before. -/
def Left (type : CharType T) (content : List Byte) (pos : σ → Nat) (rest : List T)
    (tail : List Byte) (s : σ) : Prop :=
  ∃ tail', Units type (content.drop (pos s)) rest tail' ∧ (tail' = tail ∨ tail' = [])

omit [DecidableEq T] in
theorem left_nothing {tail : List Byte} {s : σ} (hs : content.drop (pos s) = []) :
    Left type content pos [] tail s := by
  refine ⟨[], ?_, Or.inr rfl⟩
  rw [hs]
  exact .none type.positive

/-- A call that meets a CR looks at the unit behind it. -/
theorem line_cr (hx : Exact src content pos) {us : List T} {bytes tail chunk : List Byte} {s' : σ}
    (hnext : self.nextStr = []) (hend : ¬ src.end self.stream = true)
    (hr : src.read self.stream type.size = .ok (⟨type.size, chunk⟩, s'))
    (hs : content.drop (pos s') = bytes) (hu : Units type bytes us tail)
    (hc : type.ofBytes chunk = type.cr) (line : List T) :
    ∃ s'', linePass type src (line, self) = .ok (.leave (line, { self with
        nextStr := (afterCr type.lf us).next, stream := s'' })) ∧
      Left type content pos (afterCr type.lf us).rest tail s'' := by
  cases hu with
  | none short =>
    obtain ⟨read, s'', hread, hne, hs''⟩ := read_short hx (by rw [hs]; exact short)
    refine ⟨s'', ?_, left_nothing hs''⟩
    rw [linePass_cr hend hr line hc hread, if_neg fun h => hne h.1, hnext]
    rfl
  | @unit next bytes _ us full rest =>
    obtain ⟨s'', hread, hs''⟩ := read_unit hx hs full
    refine ⟨s'', ?_, tail, ?_, Or.inl rfl⟩
    · rw [linePass_cr hend hr line hc hread, hnext]
      by_cases hl : type.ofBytes next = type.lf
      · simp [afterCr, hl]
      · simp [afterCr, hl]
    · rw [hs'']
      by_cases hl : type.ofBytes next = type.lf
      · simpa [afterCr, hl] using rest
      · simpa [afterCr, hl] using rest

/-- One call on a stream takes one cut off the text. -/
theorem line_loop (hx : Exact src content pos) {us : List T} {tail : List Byte}
    (hnext : self.nextStr = []) (hu : Units type (content.drop (pos self.stream)) us tail)
    {fuel : Nat} (hf : us.length < fuel) (line : List T) :
    ∃ s', loop (linePass type src) fuel (line, self) =
        .ok (line ++ (cut type.cr type.lf us).line,
          { self with nextStr := (cut type.cr type.lf us).next, stream := s' }) ∧
      Left type content pos (cut type.cr type.lf us).rest tail s' := by
  induction us generalizing self line fuel with
  | nil =>
    obtain ⟨fuel, rfl⟩ : ∃ n, fuel = n + 1 := ⟨fuel - 1, by omega⟩
    obtain ⟨hrem, hshort⟩ := hu.short
    by_cases hmore : content.drop (pos self.stream) = []
    · refine ⟨self.stream, ?_, left_nothing hmore⟩
      rw [loop_leave (linePass_end hx hmore line), cut_nil, List.append_nil]
      simp only [← hnext]
    · rw [← hrem] at hshort
      obtain ⟨s', hp, hs⟩ := linePass_short hx hshort hmore line
      refine ⟨s', ?_, left_nothing hs⟩
      rw [loop_leave hp, cut_nil, List.append_nil]
      simp only [← hnext]
  | cons c us ih =>
    obtain ⟨fuel, rfl⟩ : ∃ n, fuel = n + 1 := ⟨fuel - 1, by omega⟩
    generalize hrem : content.drop (pos self.stream) = rem at hu
    cases hu with
    | @unit chunk bytes _ _ full rest =>
      obtain ⟨s', hr, hs⟩ := read_unit hx hrem full
      have hend := not_ended hx hrem full
      by_cases hl : type.ofBytes chunk = type.lf
      · refine ⟨s', ?_, tail, ?_, Or.inl rfl⟩
        · rw [loop_leave (linePass_lf hend hr line hl), hl, cut_lf, List.append_nil]
          simp only [← hnext]
        · rw [hl, cut_lf, hs]
          exact rest
      · by_cases hc : type.ofBytes chunk = type.cr
        · obtain ⟨s'', hp, hleft⟩ := line_cr hx hnext hend hr hs rest hc line
          rw [hc, cut_cr type.distinct, afterCr_line, List.append_nil]
          exact ⟨s'', loop_leave hp, hleft⟩
        · have hrest : Units type (content.drop (pos s')) us tail := by rw [hs]; exact rest
          have hless : us.length < fuel := Nat.lt_of_succ_lt_succ hf
          have hself : ({ self with stream := s' } : LineReader T σ).nextStr = [] := hnext
          obtain ⟨s'', hloop, hleft⟩ := ih hself hrest hless (line ++ [type.ofBytes chunk])
          rw [cut_plain hl hc]
          refine ⟨s'', ?_, hleft⟩
          rw [loop_again (linePass_plain hend hr line hl hc), hloop, List.append_assoc]
          rfl

/-- A call returns what was pushed back and the line behind it. -/
theorem readLine_cut (hx : Exact src content pos) {us : List T} {tail : List Byte}
    (hu : Units type (content.drop (pos self.stream)) us tail) {fuel : Nat}
    (hf : us.length < fuel) :
    ∃ s', readLine type src fuel self =
        .ok (self.nextStr ++ (cut type.cr type.lf us).line,
          { self with nextStr := (cut type.cr type.lf us).next, stream := s' }) ∧
      Left type content pos (cut type.cr type.lf us).rest tail s' := by
  have hself : ({ self with nextStr := [] } : LineReader T σ).nextStr = [] := rfl
  exact line_loop hx hself hu hf self.nextStr

theorem cut_rest_length (cr lf : T) (us : List T) : (cut cr lf us).rest.length ≤ us.length :=
  (cut_rest us).length_le

/-- On a text of whole units the client gets just the lines the calls return. -/
theorem drain_loop (hx : Exact src content pos) {next us : List T} {lines : List (List T)}
    (h : Reads type.cr type.lf next us lines) (hnext : self.nextStr = next)
    (hu : Units type (content.drop (pos self.stream)) us []) {fuel n : Nat}
    (hf : us.length < fuel) (hn : lines.length < n) (acc : List (List T)) :
    loop (drainPass type src fuel) n (acc, self) = .ok (acc ++ lines) := by
  induction h generalizing self n acc with
  | done =>
    obtain ⟨n, rfl⟩ : ∃ m, n = m + 1 := ⟨n - 1, by omega⟩
    have hend : self.end src = true := by
      rw [LineReader.end, (end_iff hx _).mpr hu.short.1, hnext]
      rfl
    have hpass : drainPass type src fuel (acc, self) = .ok (.leave acc) := by
      rw [drainPass, if_pos hend]
      rfl
    rw [loop_leave hpass, List.append_nil]
  | @line next us lines more tail ih =>
    obtain ⟨n, rfl⟩ : ∃ m, n = m + 1 := ⟨n - 1, by omega⟩
    have hend : ¬ self.end src = true := by
      intro h
      rw [LineReader.end, Bool.and_eq_true, end_iff hx, beq_iff_eq, List.length_eq_zero_iff,
        hnext] at h
      generalize content.drop (pos self.stream) = rem at h hu
      cases hu with
      | none short => exact more ⟨h.2, rfl⟩
      | unit full rest =>
        have hpos := type.positive
        rw [(List.append_eq_nil_iff.mp h.1).1] at full
        simp only [List.length_nil] at full
        omega
    obtain ⟨s', hread, tail', hleft, ht⟩ := readLine_cut hx hu hf
    have htail : tail' = [] := ht.elim id id
    subst htail
    have hpass : drainPass type src fuel (acc, self) =
        .ok (.again (acc ++ [self.nextStr ++ (cut type.cr type.lf us).line],
          { self with nextStr := (cut type.cr type.lf us).next, stream := s' })) := by
      rw [drainPass, if_neg hend, hread]
      rfl
    have hless : (cut type.cr type.lf us).rest.length < fuel :=
      Nat.lt_of_le_of_lt (cut_rest_length _ _ us) hf
    have hself : ({ self with nextStr := (cut type.cr type.lf us).next, stream := s' } :
        LineReader T σ).nextStr = (cut type.cr type.lf us).next := rfl
    have hfew : lines.length < n := Nat.lt_of_succ_lt_succ hn
    rw [loop_again hpass, ih hself hleft hless hfew, hnext, List.append_assoc]
    rfl

end

section
variable {σ : Type} {src : InStream σ} {content : List Byte} {pos : σ → Nat}

/-- For characters of one byte every byte is a unit. -/
theorem char_units (bytes : List Byte) : Units .char bytes bytes [] := by
  induction bytes with
  | nil => exact .none CharType.char.positive
  | cons b bytes ih => exact @Units.unit Byte .char [b] bytes [] bytes rfl ih

/-- On content without a mark the client gets the lines of the content, free of
terminators, just when no two carriage returns follow each other. -/
theorem lines_exact_iff (hx : Exact src content pos) (hb : unmarked content) (stale : Nat → Byte)
    {s : σ} (hs : pos s = 0) :
    ∃ lines, (∀ fuel, content.length < fuel → drain .char src stale fuel s = .ok lines) ∧
      (exactly 13 10 content lines ↔ ¬ [13, 13] <:+: content) := by
  obtain ⟨lines, hreads, hlen⟩ := Reads.exists CharType.char.cr CharType.char.lf [] content
  refine ⟨lines, ?_, hreads.exactly_iff CharType.char.distinct⟩
  intro fuel hf
  obtain ⟨s', hdetect, hpos⟩ := detect_ansi hx hb stale hs
  have hu : Units .char (content.drop (pos s')) content [] := by
    rw [hpos]
    exact char_units content
  rw [drain, create, hdetect]
  exact drain_loop hx hreads rfl hu hf (by rw [List.length_nil] at hlen; omega) []

/-- A text with all three terminators, the last at its end. -/
theorem lines_exact_iff_mixed :
    ∃ lines, (∀ fuel, 7 < fuel → drain .char (pieces [97, 13, 10, 10, 98, 13, 99] 7)
        (fun _ => 0) fuel 0 = .ok lines) ∧
      (exactly 13 10 [97, 13, 10, 10, 98, 13, 99] lines ↔
        ¬ [13, 13] <:+: ([97, 13, 10, 10, 98, 13, 99] : List Byte)) :=
  lines_exact_iff (pieces_exact [97, 13, 10, 10, 98, 13, 99]) (by decide) (fun _ => 0) rfl

/-- The second of two carriage returns is put in front of the next line. -/
theorem double_cr_joins :
    Exact (pieces [97, 13, 13, 98] 4) [97, 13, 13, 98] Fin.val ∧ unmarked [97, 13, 13, 98] ∧
      drain .char (pieces [97, 13, 13, 98] 4) (fun _ => 0) 5 0 = .ok [[97], [13, 98]] ∧
      linesOf 13 10 [97, 13, 13, 98] = ([[97], [], [98]] : List (List Byte)) ∧
      ¬ exactly 13 10 ([97, 13, 13, 98] : List Byte) [[97], [13, 98]] := by
  refine ⟨pieces_exact [97, 13, 13, 98], by decide, rfl, by decide, ?_⟩
  intro h
  exact absurd (h.2 [13, 98] (by decide)).1 (by decide)

end
end CkCore.Proofs.LineReader
