import Mathlib.Data.List.Basic

namespace CkCore.Lib

section
variable {α : Type} [DecidableEq α] {sep : α} {first rest text : List α}

/-- The segments of a text whose every segment is closed by a separator; the
last one may be left open, unless it is empty. -/
def segments (sep : α) (text : List α) : List (List α) :=
  let all := text.splitOn sep
  if all.getLast? = some [] then all.dropLast else all

@[simp] theorem segments_nil : segments sep ([] : List α) = [] := rfl

theorem segments_open (h : sep ∉ text) (hne : text ≠ []) : segments sep text = [text] := by
  simp [segments, List.splitOn_eq_singleton h, hne]

theorem segments_cons (h : sep ∉ first) :
    segments sep (first ++ sep :: rest) = first :: segments sep rest := by
  have hne : rest.splitOn sep ≠ [] := List.splitOn_ne_nil sep rest
  have hlast : (first :: rest.splitOn sep).getLast? = (rest.splitOn sep).getLast? := by
    rw [List.getLast?_cons, List.getLast?_eq_some_getLast hne, Option.getD_some]
  simp only [segments, List.splitOn_append_cons_self_of_not_mem h, hlast]
  split
  · exact List.dropLast_cons_of_ne_nil hne
  · rfl

/-- What is in front of a separator, and what is behind it. -/
theorem split_at_idxOf (h : text.idxOf sep < text.length) :
    sep ∉ text.take (text.idxOf sep) ∧
      text = text.take (text.idxOf sep) ++ sep :: text.drop (text.idxOf sep + 1) := by
  constructor
  · intro hmem
    rw [List.mem_take_iff_idxOf_lt (List.idxOf_lt_length_iff.mp h)] at hmem
    omega
  · have hcons := List.drop_eq_getElem_cons h
    rw [List.getElem_idxOf] at hcons
    rw [← hcons, List.take_append_drop]

/-- One segment is left when no separator is, or only one at the very end. -/
theorem segments_one (hne : text ≠ []) (hlast : text.length ≤ text.idxOf sep + 1) :
    segments sep text = [text.take (text.idxOf sep)] := by
  by_cases hidx : text.idxOf sep < text.length
  · obtain ⟨hmem, hsplit⟩ := split_at_idxOf hidx
    rw [List.drop_eq_nil_of_le hlast] at hsplit
    calc segments sep text = segments sep (text.take (text.idxOf sep) ++ [sep]) := by rw [← hsplit]
      _ = [text.take (text.idxOf sep)] := by rw [segments_cons hmem, segments_nil]
  · rw [segments_open (fun hmem => hidx (List.idxOf_lt_length_iff.mpr hmem)) hne,
      List.take_of_length_le (by omega)]

/-- The segments closed by a separator each. -/
def closed (sep : α) (names : List (List α)) : List α :=
  (names.map (· ++ [sep])).flatten

/-- The segments give the text back, except for a separator at its end. -/
theorem segments_closed (sep : α) (text : List α) :
    text = closed sep (segments sep text) ∨ text ++ [sep] = closed sep (segments sep text) := by
  induction hn : text.length using Nat.strongRecOn generalizing text with
  | ind n ih =>
    by_cases hidx : text.idxOf sep < text.length
    · obtain ⟨hmem, hsplit⟩ := split_at_idxOf hidx
      have hcons : segments sep text = text.take (text.idxOf sep) ::
          segments sep (text.drop (text.idxOf sep + 1)) := by
        rw [← segments_cons hmem, ← hsplit]
      have hshort : (text.drop (text.idxOf sep + 1)).length < n := by
        rw [List.length_drop]
        omega
      have hclosed : closed sep (segments sep text) = text.take (text.idxOf sep) ++
          sep :: closed sep (segments sep (text.drop (text.idxOf sep + 1))) := by
        rw [hcons]
        simp [closed]
      rw [hclosed]
      rcases ih _ hshort _ rfl with hrest | hrest
      · left
        rw [← hrest]
        exact hsplit
      · right
        rw [← hrest]
        conv_lhs => rw [hsplit]
        simp
    · by_cases hne : text = []
      · left
        subst hne
        rfl
      · right
        rw [segments_open (fun hmem => hidx (List.idxOf_lt_length_iff.mpr hmem)) hne]
        simp [closed]

/-- Texts of the same segments differ by one separator at the end at most. -/
theorem segments_eq {other : List α} (h : segments sep text = segments sep other) :
    text = other ∨ text = other ++ [sep] ∨ other = text ++ [sep] := by
  have htext := segments_closed sep text
  rw [h] at htext
  rcases htext with ht | ht <;> rcases segments_closed sep other with ho | ho
  · exact Or.inl (ht.trans ho.symm)
  · exact Or.inr (Or.inl (ht.trans ho.symm))
  · exact Or.inr (Or.inr (ho.trans ht.symm))
  · exact Or.inl (List.append_cancel_right (ht.trans ho.symm))

/-- A text has segments unless it is empty. -/
theorem segments_eq_nil : segments sep text = [] ↔ text = [] := by
  constructor
  · intro h
    by_contra hne
    by_cases hmem : sep ∈ text
    · rw [(split_at_idxOf (List.idxOf_lt_length_iff.mpr hmem)).2,
        segments_cons (split_at_idxOf (List.idxOf_lt_length_iff.mpr hmem)).1] at h
      cases h
    · rw [segments_open hmem hne] at h
      cases h
  · rintro rfl
    rfl

end

end CkCore.Lib
