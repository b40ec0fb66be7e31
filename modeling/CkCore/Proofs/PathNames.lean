import CkCore.Spec.Path

namespace CkCore.Proofs.PathNames
open Lib CkCore.Path

section
variable {name : TString} {c : Byte} {pos delim : Nat} {text front back : List Byte}

/-- A text with the character in it has a last one. -/
theorem last_split (h : c ∈ text) :
    ∃ front back, text = front ++ c :: back ∧ c ∉ back := by
  obtain ⟨before, after, hsplit, hbefore⟩ :=
    List.eq_append_cons_of_mem (List.mem_reverse.mpr h)
  refine ⟨after.reverse, before.reverse, ?_, by simpa using hbefore⟩
  rw [← List.reverse_reverse text, hsplit]
  simp

theorem rfind_last (h : name.chars.take (pos + 1) = front ++ c :: back) (hback : c ∉ back) :
    name.rfind c pos = front.length := by
  have hindex : (front ++ c :: back).reverse.idxOf c = back.length := by
    have hrev : (front ++ c :: back).reverse = back.reverse ++ c :: front.reverse := by simp
    rw [hrev, List.idxOf_append_of_notMem (by simpa using hback), List.idxOf_cons_self]
    simp
  simp only [TString.rfind, h, hindex, List.length_append, List.length_cons]
  rw [if_pos (by omega)]
  omega

theorem rfind_none (h : c ∉ name.chars.take (pos + 1)) : name.rfind c pos = npos := by
  have hindex := List.idxOf_eq_length (a := c) (l := (name.chars.take (pos + 1)).reverse)
    (by simpa using h)
  simp only [TString.rfind, hindex, List.length_reverse]
  exact if_neg (Nat.lt_irrefl _)

/-- A position stands behind the text in front of its last delimiter, or is
npos where there is none. -/
def Delimits (text : List Byte) (delim : Nat) : Prop :=
  slash ∉ text ∧ delim = npos ∨
    ∃ front back, text = front ++ slash :: back ∧ slash ∉ back ∧ delim = front.length

theorem rfind_delimits (name : TString) (pos : Nat) :
    Delimits (name.chars.take (pos + 1)) (name.rfind slash pos) := by
  by_cases h : slash ∈ name.chars.take (pos + 1)
  · obtain ⟨front, back, hsplit, hback⟩ := last_split h
    exact Or.inr ⟨front, back, hsplit, hback, rfind_last hsplit hback⟩
  · exact Or.inl ⟨h, rfind_none h⟩

/-- Two names that make up a text, the first of them up to its last delimiter. -/
structure Halves (text : List Byte) (dir base : TString) : Prop where
  whole : dir.chars ++ base.chars = text
  dir : dir.chars = [] ∨ dir.chars.getLast? = some slash
  base : slash ∉ base.chars

/-- What dir_name() and base_name() give once they have found the last
delimiter in front of `end`. -/
theorem halves_at (hdelim : Delimits text delim) (hne : text ≠ [])
    (hstart : text <+: name.chars) :
    ∃ dir base,
      (if delim = npos then Except.ok TString.empty
        else name.substr 0 (addSize delim 1)) = .ok dir ∧
      (if delim = npos then name.substr 0 (addSize (text.length - 1) 1)
        else name.substr (addSize delim 1) (subSize (text.length - 1) delim)) = .ok base ∧
      Halves text dir base := by
  obtain ⟨rest, hname⟩ := hstart
  have hsmall := name.small
  have hpos := List.length_pos_iff.mpr hne
  have hlength : name.chars.length = text.length + rest.length := by
    rw [← hname, List.length_append]
  have hword : npos < sizeWord := by decide
  rcases hdelim with ⟨hnone, rfl⟩ | ⟨front, back, hsplit, hback, rfl⟩
  · rw [if_pos rfl, if_pos rfl, addSize_eq (by omega), Nat.sub_add_cancel hpos]
    refine ⟨_, _, rfl, if_pos (Nat.zero_le _), ?_, Or.inl rfl, ?_⟩
    · simp [TString.empty, ← hname]
    · simpa [← hname] using hnone
  · have htext : text.length = front.length + 1 + back.length := by
      rw [hsplit]
      simp
      omega
    rw [if_neg (by omega), if_neg (by omega), addSize_eq (by omega),
      subSize_eq (by omega) (by omega)]
    have hsplit' : name.chars = (front ++ [slash]) ++ (back ++ rest) := by
      rw [← hname, hsplit]
      simp
    have hlen : (front ++ [slash]).length = front.length + 1 := by simp
    have hfront : name.chars.take (front.length + 1) = front ++ [slash] := by
      rw [hsplit', List.take_left' hlen]
    have hback' : (name.chars.drop (front.length + 1)).take (text.length - 1 - front.length) =
        back := by
      rw [hsplit', List.drop_left' hlen]
      exact List.take_left' (by omega)
    refine ⟨_, _, if_pos (Nat.zero_le _), if_pos (by unfold TString.size; omega), ?_, ?_, ?_⟩
    · simp only [List.drop_zero, hfront, hback']
      simp [hsplit]
    · right
      simp [hfront]
    · simpa only [hback'] using hback

/-- In front of a delimiter at the end stands the rest of the name. -/
theorem rfind_end (h : name.chars = text ++ [slash]) : name.rfind slash npos = text.length := by
  have hsmall := name.small
  have hwhole : name.chars.take (npos + 1) = text ++ slash :: [] := by
    rw [List.take_of_length_le (by omega), h]
  exact rfind_last hwhole List.not_mem_nil

theorem rfind_other (h : name.chars = text ++ [c]) (hc : c ≠ slash) :
    Delimits name.chars (name.rfind slash npos) ∧ name.rfind slash npos ≠ text.length := by
  have hsmall := name.small
  have hdelim := rfind_delimits name npos
  rw [List.take_of_length_le (by omega)] at hdelim
  refine ⟨hdelim, ?_⟩
  have hlength : name.chars.length = text.length + 1 := by simp [h]
  rcases hdelim with ⟨_, heq⟩ | ⟨front, back, hsplit, _, heq⟩
  · omega
  · rw [heq]
    intro hfront
    rw [h] at hsplit
    have hlast := (List.append_inj hsplit hfront.symm).2
    exact hc (List.cons.inj hlast).1

/-- dir_name() and base_name() give the two halves of a text. -/
def Splits (self : Path) (text : List Byte) : Prop :=
  ∃ dir base, self.dirName = .ok dir ∧ self.baseName = .ok base ∧ Halves text dir base

/-- The end wraps around twice and comes back to the size. -/
theorem empty_splits {self : Path} (h : self.pathName.chars = []) : Splits self [] := by
  have hnone : ∀ pos, self.pathName.rfind slash pos = npos := by
    intro pos
    apply rfind_none
    simp [h]
  have hsize : self.pathName.size = 0 := by simp [TString.size, h]
  have hend : subSize 0 1 = npos := by decide
  have hlast : addSize (subSize npos 1) 1 = npos := by decide
  unfold Splits dirName baseName
  simp only [hnone, hsize, hend, if_true, hlast]
  refine ⟨_, _, rfl, if_pos (Nat.zero_le _), ?_, Or.inl rfl, ?_⟩
  · simp [TString.empty, h]
  · simp [h]

/-- In front of the root the end wraps around, and the root is found again. -/
theorem root_splits {self : Path} (h : self.pathName.chars = [slash]) : Splits self [slash] := by
  have hroot : self.pathName.chars = [] ++ [slash] := h
  have hfind : self.pathName.rfind slash npos = 0 := rfind_end hroot
  have hsize : self.pathName.size = 1 := by simp [TString.size, h]
  have hend : subSize 1 1 = 0 := by decide
  have hend' : subSize 0 1 = npos := by decide
  have hpos : addSize 0 1 = 1 := by decide
  have hzero : ¬ 0 = npos := by decide
  unfold Splits dirName baseName
  simp only [hsize, hend, hfind, if_true, hend', hzero, if_false, hpos]
  refine ⟨_, _, if_pos (Nat.zero_le _), if_pos (Nat.le_of_eq hsize.symm), ?_, ?_, ?_⟩
  · simp [h]
  · simp [h]
  · simp [h]

/-- A delimiter at the end is dropped. -/
theorem closed_splits {self : Path} (h : self.pathName.chars = text ++ [slash]) (hne : text ≠ []) :
    Splits self text := by
  have hsmall := self.pathName.small
  have hword : npos < sizeWord := by decide
  have hpos := List.length_pos_iff.mpr hne
  have hsize : self.pathName.size = text.length + 1 := by simp [TString.size, h]
  have hlength : self.pathName.chars.length = self.pathName.size := rfl
  have hend : subSize (text.length + 1) 1 = text.length := subSize_eq (by omega) (by omega)
  have hend' : subSize text.length 1 = text.length - 1 := subSize_eq (by omega) (by omega)
  have hdelim := rfind_delimits self.pathName (text.length - 1)
  have htext : self.pathName.chars.take (text.length - 1 + 1) = text := by
    rw [Nat.sub_add_cancel hpos, h]
    exact List.take_left' rfl
  rw [htext] at hdelim
  unfold Splits dirName baseName
  simp only [hsize, hend, rfind_end h, if_true, hend']
  exact halves_at hdelim hne (h ▸ List.prefix_append _ _)

theorem open_splits {self : Path} (h : self.pathName.chars = text ++ [c]) (hc : c ≠ slash) :
    Splits self self.pathName.chars := by
  have hsmall := self.pathName.small
  have hword : npos < sizeWord := by decide
  have hlength : self.pathName.chars.length = text.length + 1 := by simp [h]
  have hend : subSize self.pathName.size 1 = self.pathName.chars.length - 1 :=
    subSize_eq (Nat.lt_trans hsmall hword) (by unfold TString.size; omega)
  have hne : self.pathName.chars ≠ [] := by simp [h]
  obtain ⟨hdelim, hother⟩ := rfind_other h hc
  have hother : self.pathName.rfind slash npos ≠ self.pathName.chars.length - 1 := by omega
  unfold Splits dirName baseName
  simp only [hend, hother, if_false]
  exact halves_at hdelim hne List.prefix_rfl

/-- dir_name() and base_name() split a name in front of its last component: a
delimiter behind that is dropped, and the root is its own directory. -/
theorem names_split (self : Path) :
    Splits self (if self.pathName.chars = [slash] then [slash]
      else trimEnd slash self.pathName.chars) := by
  rcases List.eq_nil_or_concat' self.pathName.chars with hnil | ⟨text, last, hname⟩
  · rw [hnil, if_neg (List.cons_ne_nil _ _).symm]
    exact empty_splits hnil
  · by_cases hroot : self.pathName.chars = [slash]
    · rw [if_pos hroot]
      exact root_splits hroot
    · rw [if_neg hroot]
      by_cases hlast : last = slash
      · subst hlast
        have hne : text ≠ [] := by
          rintro rfl
          exact hroot hname
        rw [hname, trimEnd_sep]
        exact closed_splits hname hne
      · have hwhole : trimEnd slash self.pathName.chars = self.pathName.chars := by
          rw [hname, trimEnd_other hlast]
        rw [hwhole]
        exact open_splits hname hlast

end

end CkCore.Proofs.PathNames
