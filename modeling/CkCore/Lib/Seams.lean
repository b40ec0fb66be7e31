import CkCore.Lib.Runs
import CkCore.Lib.Segments

namespace CkCore.Lib

section
variable {α : Type} [DecidableEq α] {sep x : α} {a b c text : List α}

/-- A text without the separator in front of it, if there is one. -/
def trimFront (sep : α) (text : List α) : List α :=
  if text.head? = some sep then text.tail else text

/-- A text without the separator at its end, if there is one. -/
def trimEnd (sep : α) (text : List α) : List α :=
  if text.getLast? = some sep then text.dropLast else text

/-- Two texts with one separator between them, whichever of them brings one. -/
def seamed (sep : α) (a b : List α) : List α := trimEnd sep a ++ sep :: trimFront sep b

/-- The first of two texts, made ready for the second one behind it. -/
def jointed (sep : α) (a b : List α) : List α :=
  if b.head? = some sep then trimEnd sep a else trimEnd sep a ++ [sep]

@[simp] theorem trimFront_nil : trimFront sep ([] : List α) = [] := rfl

@[simp] theorem trimEnd_nil : trimEnd sep ([] : List α) = [] := rfl

@[simp] theorem trimFront_sep (text : List α) : trimFront sep (sep :: text) = text := by
  simp [trimFront]

theorem trimFront_other (h : x ≠ sep) (text : List α) : trimFront sep (x :: text) = x :: text := by
  simp [trimFront, h]

@[simp] theorem trimEnd_sep (text : List α) : trimEnd sep (text ++ [sep]) = text := by
  simp [trimEnd]

theorem trimEnd_other (h : x ≠ sep) (text : List α) :
    trimEnd sep (text ++ [x]) = text ++ [x] := by
  simp [trimEnd, h]

theorem jointed_append (sep : α) (a b : List α) : jointed sep a b ++ b = seamed sep a b := by
  unfold jointed seamed
  split
  · next h =>
    rw [← List.cons_head?_tail h, trimFront_sep]
  · next h =>
    rw [List.append_assoc, List.singleton_append, trimFront, if_neg h]

/-- Nothing is to be done just when exactly one of the two brings a separator. -/
theorem jointed_eq_left (ha : a ≠ []) (b : List α) :
    jointed sep a b = a ↔ (b.head? = some sep ↔ a.getLast? ≠ some sep) := by
  obtain ⟨front, last, rfl⟩ := (List.eq_nil_or_concat' a).resolve_left ha
  unfold jointed
  by_cases hl : last = sep
  · subst hl
    rw [trimEnd_sep]
    by_cases hb : b.head? = some last
    · simp [hb]
    · simp [hb]
  · rw [trimEnd_other hl]
    by_cases hb : b.head? = some sep
    · simp [hb, hl]
    · simp [hb, hl]

theorem trimFront_back (sep : α) (text : List α) : trimFront sep text <:+ text := by
  unfold trimFront
  split
  · exact List.tail_suffix text
  · exact List.suffix_refl text

theorem trimEnd_front (sep : α) (text : List α) : trimEnd sep text <+: text := by
  unfold trimEnd
  split
  · exact List.dropLast_prefix text
  · exact List.prefix_refl text

/-- Where there is something in front, only that decides. -/
theorem trimFront_append (ha : a ≠ []) (b : List α) :
    trimFront sep (a ++ b) = trimFront sep a ++ b := by
  obtain ⟨x, a, rfl⟩ := List.exists_cons_of_ne_nil ha
  by_cases hx : x = sep
  · subst hx
    rw [List.cons_append, trimFront_sep, trimFront_sep]
  · rw [List.cons_append, trimFront_other hx, trimFront_other hx, List.cons_append]

theorem trimEnd_append (hb : b ≠ []) (a : List α) :
    trimEnd sep (a ++ b) = a ++ trimEnd sep b := by
  rw [← List.dropLast_concat_getLast hb]
  generalize b.dropLast = front
  generalize b.getLast hb = x
  rw [← List.append_assoc]
  by_cases hx : x = sep
  · subst hx
    rw [trimEnd_sep, trimEnd_sep]
  · rw [trimEnd_other hx, trimEnd_other hx, List.append_assoc]

/-- Only of a single separator does one of the two leave nothing to the other. -/
theorem trim_comm (h : text ≠ [sep]) :
    trimEnd sep (trimFront sep text) = trimFront sep (trimEnd sep text) := by
  cases text with
  | nil => rfl
  | cons x rest =>
    by_cases hrest : rest = []
    · subst hrest
      have hx : x ≠ sep := fun he => h (by rw [he])
      have hopen : trimEnd sep [x] = [x] := trimEnd_other hx []
      rw [trimFront_other hx, hopen, trimFront_other hx]
    · have hone : [x] ≠ [] := List.cons_ne_nil x []
      rw [show x :: rest = [x] ++ rest from rfl, trimFront_append hone, trimEnd_append hrest,
        trimEnd_append hrest, trimFront_append hone]

theorem trimFront_ne_nil (hb : b ≠ []) (hsep : b ≠ [sep]) : trimFront sep b ≠ [] := by
  obtain ⟨x, b, rfl⟩ := List.exists_cons_of_ne_nil hb
  by_cases hx : x = sep
  · subst hx
    rw [trimFront_sep]
    exact fun hnil => hsep (by rw [hnil])
  · rw [trimFront_other hx]
    exact List.cons_ne_nil _ _

theorem trimEnd_ne_nil (hb : b ≠ []) (hsep : b ≠ [sep]) : trimEnd sep b ≠ [] := by
  obtain ⟨x, b, rfl⟩ := List.exists_cons_of_ne_nil hb
  by_cases hnil : b = []
  · subst hnil
    have hx : x ≠ sep := fun he => hsep (by rw [he])
    rw [show trimEnd sep [x] = [x] from trimEnd_other hx []]
    exact List.cons_ne_nil _ _
  · rw [show x :: b = [x] ++ b from rfl, trimEnd_append hnil]
    exact List.cons_ne_nil _ _

/-- Joining is associative around a text that is not empty: a single separator
in the middle belongs to both seams. -/
theorem seamed_assoc (hb : b ≠ []) (a c : List α) :
    seamed sep (seamed sep a b) c = seamed sep a (seamed sep b c) := by
  have hleft : seamed sep (seamed sep a b) c =
      trimEnd sep a ++ (trimEnd sep (sep :: trimFront sep b) ++ sep :: trimFront sep c) := by
    rw [seamed, seamed, trimEnd_append (List.cons_ne_nil _ _), List.append_assoc]
  have hright : seamed sep a (seamed sep b c) =
      trimEnd sep a ++ sep :: trimFront sep (trimEnd sep b ++ sep :: trimFront sep c) := rfl
  rw [hleft, hright]
  congr 1
  by_cases hsep : b = [sep]
  · subst hsep
    have hnil : trimEnd sep [sep] = [] := trimEnd_sep []
    rw [trimFront_sep, hnil, List.nil_append, trimFront_sep]
  · rw [show sep :: trimFront sep b = [sep] ++ trimFront sep b from rfl,
      trimEnd_append (trimFront_ne_nil hb hsep), trim_comm hsep,
      trimFront_append (trimEnd_ne_nil hb hsep)]
    rfl

theorem seamed_ne_nil (a b : List α) : seamed sep a b ≠ [] := by
  simp [seamed]

/-- A joined text begins as its left part does. -/
theorem seamed_head (ha : a ≠ []) (b : List α) :
    (seamed sep a b).head? = some sep ↔ a.head? = some sep := by
  by_cases hsep : a = [sep]
  · subst hsep
    have hnil : trimEnd sep [sep] = [] := trimEnd_sep []
    rw [seamed, hnil, List.nil_append, List.head?_cons, List.head?_cons]
  · obtain ⟨x, rest, hx⟩ := List.exists_cons_of_ne_nil (trimEnd_ne_nil ha hsep)
    obtain ⟨tail, htail⟩ := trimEnd_front sep a
    have hhead : a.head? = some x := by rw [← htail, hx, List.cons_append, List.head?_cons]
    rw [seamed, hx, List.cons_append, List.head?_cons, hhead]

theorem trimFront_length (sep : α) (text : List α) :
    text.length ≤ (trimFront sep text).length + 1 := by
  unfold trimFront
  split
  · rw [List.length_tail]
    omega
  · omega

theorem seamed_length_le (sep : α) (a b : List α) :
    (seamed sep a b).length ≤ a.length + b.length + 1 := by
  have hfront := (trimFront_back sep b).length_le
  have hend := (trimEnd_front sep a).length_le
  rw [seamed, List.length_append, List.length_cons]
  omega

theorem seamed_length_right (sep : α) (a b : List α) : b.length ≤ (seamed sep a b).length := by
  have hfront := trimFront_length sep b
  rw [seamed, List.length_append, List.length_cons]
  omega

/-- A joined text is its right part just when the left one is a separator that
the right one begins with. -/
theorem seamed_eq_right (ha : a ≠ []) :
    seamed sep a b = b ↔ a = [sep] ∧ b.head? = some sep := by
  constructor
  · intro h
    have hlength := congrArg List.length h
    unfold seamed at h
    rw [seamed, List.length_append, List.length_cons] at hlength
    by_cases hb : b.head? = some sep
    · refine ⟨?_, hb⟩
      have hshort : (trimFront sep b).length + 1 = b.length := by
        have hcons := List.cons_head?_tail hb
        rw [← hcons, trimFront_sep, List.length_cons]
      have hnil : trimEnd sep a = [] := List.eq_nil_of_length_eq_zero (by omega)
      apply Classical.byContradiction
      intro hsep
      exact trimEnd_ne_nil ha hsep hnil
    · have hsame : trimFront sep b = b := if_neg hb
      rw [hsame] at hlength
      omega
  · rintro ⟨rfl, hb⟩
    have hnil : trimEnd sep [sep] = [] := trimEnd_sep []
    rw [seamed, hnil, List.nil_append]
    have hcons := List.cons_head?_tail hb
    rw [← hcons, trimFront_sep]

/-- Everything in front of a separator is segments of its own. -/
theorem segments_sep (x y : List α) :
    segments sep (x ++ sep :: y) = x.splitOn sep ++ segments sep y := by
  have hne : y.splitOn sep ≠ [] := List.splitOn_ne_nil sep y
  have hsplit : (x ++ sep :: y).splitOn sep = x.splitOn sep ++ y.splitOn sep := by
    unfold List.splitOn
    exact List.splitOnP_append_cons x y (beq_self_eq_true sep)
  have hlast : (x.splitOn sep ++ y.splitOn sep).getLast? = (y.splitOn sep).getLast? := by
    rw [List.getLast?_append, List.getLast?_eq_some_getLast hne, Option.some_or]
  simp only [segments, hsplit, hlast]
  split
  · exact List.dropLast_append_of_ne_nil hne
  · rfl

/-- A separator at the end makes no segment of its own. -/
theorem segments_trimEnd (h : text ≠ []) :
    segments sep text = (trimEnd sep text).splitOn sep := by
  rw [← List.dropLast_concat_getLast h]
  generalize text.dropLast = front
  generalize text.getLast h = x
  by_cases hx : x = sep
  · subst hx
    rw [trimEnd_sep, segments_sep, segments_nil, List.append_nil]
  · have hopen : (x == sep) = false := beq_false_of_ne hx
    have hsplit := splitOnP_extend (p := (· == sep)) front hopen
    rw [← List.splitOn_eq_splitOnP] at hsplit
    rw [trimEnd_other hx]
    simp [segments, hsplit]

/-- The segments of a joined text are those of its parts. -/
theorem segments_seamed (ha : a ≠ []) (b : List α) :
    segments sep (trimFront sep (seamed sep a b)) =
      segments sep (trimFront sep a) ++ segments sep (trimFront sep b) := by
  by_cases hsep : a = [sep]
  · subst hsep
    have hnil : trimEnd sep [sep] = [] := trimEnd_sep []
    rw [seamed, hnil, List.nil_append, trimFront_sep, trimFront_sep, segments_nil, List.nil_append]
  · rw [seamed, trimFront_append (trimEnd_ne_nil ha hsep), segments_sep, ← trim_comm hsep,
      segments_trimEnd (trimFront_ne_nil ha hsep)]

end

end CkCore.Lib
