import CkCore.Proofs.Path

namespace CkCore.Proofs.PathEquality
open Lib PathIterator

/-- The names in front of the first that reads "NULL". -/
def front (names : List TString) : List (List Byte) :=
  (names.map TString.chars).takeWhile (· ≠ nullName)

variable {it other : PathIterator} {path : Path} {names others : List TString}

theorem name_null {name : TString} :
    name = ⟨[78, 85, 76, 76], by decide⟩ ↔ name.chars = nullName := by
  cases name
  simp [nullName]

theorem front_cons (name : TString) (names : List TString) : front (name :: names) =
    if name.chars = nullName then [] else name.chars :: front names := by
  by_cases h : name.chars = nullName
  · simp [front, h]
  · simp [front, h]

/-- An iterator compares equal to the end when nothing is in front. -/
theorem equals_end (h : it.Shows names) :
    it.equals Path.end = .ok (decide (front names = [])) ∧
      it.differs Path.end = .ok (decide (front names ≠ [])) := by
  cases h with
  | done last => simp [equals, differs, last, Path.end, front]
  | @name _ name names running get tail =>
    have hend : Path.end.get = .ok ⟨[78, 85, 76, 76], by decide⟩ := rfl
    have hfront : front (name :: names) = [] ↔ name.chars = nullName := by
      rw [front_cons]
      split <;> simp [*]
    unfold equals differs
    rw [get, hend, running]
    simp only [Bool.false_eq_true, false_and, if_false, ok_bind, ne_eq, name_null, hfront]
    exact ⟨rfl, rfl⟩

/-- Which end the iterator meets after some steps. -/
theorem front_drop (names : List TString) (steps : Nat) : front (names.drop steps) = [] ↔
    names.length ≤ steps ∨ (names.map TString.chars)[steps]? = some nullName := by
  cases hrest : names.drop steps with
  | nil =>
    rw [List.drop_eq_nil_iff] at hrest
    exact iff_of_true rfl (Or.inl hrest)
  | cons name rest =>
    have hlt : steps < names.length := by
      apply Classical.byContradiction
      intro hge
      rw [List.drop_eq_nil_of_le (by omega)] at hrest
      cases hrest
    have hname : (names.map TString.chars)[steps]? = some name.chars := by
      have hhead := List.head?_drop (l := names) (i := steps)
      rw [hrest] at hhead
      rw [List.getElem?_map, ← hhead]
      rfl
    rw [front_cons, hname, Option.some.injEq]
    split
    · rename_i hnull
      exact iff_of_true rfl (Or.inr hnull)
    · rename_i hnull
      refine iff_of_false (by simp) ?_
      rintro (hle | hnull')
      · omega
      · exact hnull hnull'

/-- From begin() on, the iterator compares equal to the end just when it is
past all components, if and only if the path is not a single character that is
no delimiter and no component is "NULL". -/
theorem equals_end_iff (path : Path) :
    (∀ steps,
      (advance^[steps] path.begin).equals Path.end =
          .ok (decide ((components path.pathName.chars).length ≤ steps)) ∧
        (advance^[steps] path.begin).differs Path.end =
          .ok (decide (steps < (components path.pathName.chars).length))) ↔
      (path.pathName.size = 1 → path.pathName.chars = [slash]) ∧
        nullName ∉ components path.pathName.chars := by
  obtain ⟨names, hshows, hnames, _⟩ := Path.begin_shows path
  have hcount : names.length = (names.map TString.chars).length := (List.length_map _).symm
  constructor
  · intro h
    have hstop : ∀ steps, names.length ≤ steps ∨
        (names.map TString.chars)[steps]? = some nullName →
          (components path.pathName.chars).length ≤ steps := by
      intro steps hnull
      have hfirst := (h steps).1
      rw [(equals_end (hshows.drop steps)).1, Except.ok.injEq, decide_eq_decide] at hfirst
      exact hfirst.mp ((front_drop names steps).mpr hnull)
    have hone : path.pathName.size = 1 → path.pathName.chars = [slash] := by
      intro hone
      rw [if_pos hone, List.map_eq_nil_iff] at hnames
      subst hnames
      have hempty := List.length_eq_zero_iff.mp (Nat.le_zero.mp (hstop 0 (Or.inl (Nat.le_refl 0))))
      rcases components_eq_nil.mp hempty with hnil | hslash
      · unfold TString.size at hone
        rw [hnil] at hone
        cases hone
      · exact hslash
    refine ⟨hone, ?_⟩
    intro hmem
    by_cases hsize : path.pathName.size = 1
    · rw [hone hsize] at hmem
      exact absurd hmem (by decide)
    · rw [if_neg hsize] at hnames
      obtain ⟨i, hi, hnull⟩ := List.getElem_of_mem hmem
      have hle := hstop i (Or.inr (by rw [hnames, List.getElem?_eq_getElem hi, hnull]))
      omega
  · rintro ⟨hone, hnull⟩ steps
    have hall : names.map TString.chars = components path.pathName.chars := by
      rw [hnames]
      split
      · rename_i hsize
        rw [hone hsize]
        rfl
      · rfl
    have hstop : front (names.drop steps) = [] ↔
        (components path.pathName.chars).length ≤ steps := by
      rw [front_drop, hall, hcount, hall]
      constructor
      · rintro (hle | hget)
        · exact hle
        · exact absurd (List.mem_of_getElem? hget) hnull
      · exact Or.inl
    obtain ⟨hequals, hdiffers⟩ := equals_end (hshows.drop steps)
    rw [hequals, hdiffers]
    simp only [ne_eq, hstop, Nat.not_le, and_self]

/-- The iterator at the only component of the path "NULL" compares equal to the end. -/
theorem null_equals_end : (Path.mk ⟨nullName, by decide⟩).begin.equals Path.end = .ok true ∧
    components nullName = [nullName] := ⟨ok_of_toOption (by decide +kernel), by decide⟩

/-- Two iterators inside their paths are compared by the names they are at. -/
theorem differs_names {name name' : TString} (hit : it.atEnd = false) (hget : it.get = .ok name)
    (hget' : other.get = .ok name') :
    it.differs other = .ok (decide (name.chars ≠ name'.chars)) := by
  have hname : name = name' ↔ name.chars = name'.chars := by
    cases name
    cases name'
    simp
  unfold differs
  rw [hit, hget, hget']
  simp only [Bool.false_eq_true, false_and, if_false, ok_bind, ne_eq, hname]
  rfl

/-- The loop of operator== stops when either iterator compares equal to the end. -/
theorem equalsPass_stop (h : it.Shows names) (ho : other.Shows others)
    (hstop : front names = [] ∨ front others = []) : Path.equalsPass (it, other) =
      .ok (.leave (decide (front names = front others))) := by
  obtain ⟨hequals, hdiffers⟩ := equals_end h
  obtain ⟨hequals', hdiffers'⟩ := equals_end ho
  unfold Path.equalsPass
  simp only [hequals, hdiffers, hequals', hdiffers', ok_bind]
  by_cases hfirst : front names = []
  · have hsame : front names = front others ↔ front others = [] := by
      rw [hfirst, eq_comm]
    rw [decide_eq_true hfirst, decide_eq_false (not_not_intro hfirst), decide_eq_decide.mpr hsame]
    rfl
  · have hother := (or_iff_right hfirst).mp hstop
    have hsame : ¬ front names = front others := by
      rw [hother]
      exact hfirst
    rw [decide_eq_false hfirst, decide_eq_true hfirst, decide_eq_false (not_not_intro hother),
      decide_eq_false hsame]
    rfl

/-- Otherwise it compares the two names. -/
theorem equalsPass_names {name name' : TString} (h : it.Shows (name :: names))
    (ho : other.Shows (name' :: others)) (hname : name.chars ≠ nullName)
    (hname' : name'.chars ≠ nullName) : Path.equalsPass (it, other) =
      .ok (if name.chars = name'.chars then .again (it.advance, other.advance)
        else .leave false) := by
  have hfront : front (name :: names) ≠ [] := by
    rw [front_cons, if_neg hname]
    exact List.cons_ne_nil _ _
  have hfront' : front (name' :: others) ≠ [] := by
    rw [front_cons, if_neg hname']
    exact List.cons_ne_nil _ _
  have hdiffers := (equals_end h).2
  have hdiffers' := (equals_end ho).2
  rw [decide_eq_true hfront] at hdiffers
  rw [decide_eq_true hfront'] at hdiffers'
  have hnames : it.differs other = .ok (decide (name.chars ≠ name'.chars)) := by
    cases h with
    | name running get _ =>
      cases ho with
      | name _ get' _ => exact differs_names running get get'
  unfold Path.equalsPass
  simp only [hdiffers, hdiffers', hnames, ok_bind, if_true]
  by_cases hsame : name.chars = name'.chars
  · rw [if_pos hsame, decide_eq_false (not_not_intro hsame)]
    rfl
  · rw [if_neg hsame, decide_eq_true hsame]
    rfl

/-- The walk of operator== compares what is in front on both sides. -/
theorem equals_walk (h : it.Shows names) (ho : other.Shows others) {fuel : Nat}
    (hfuel : names.length < fuel) :
    loop Path.equalsPass fuel (it, other) = .ok (decide (front names = front others)) := by
  induction h generalizing other others fuel with
  | done last => exact loop_last (by omega) (equalsPass_stop (.done last) ho (Or.inl rfl))
  | @name it name names running get tail ih =>
    rw [List.length_cons] at hfuel
    have hshows : it.Shows (name :: names) := .name running get tail
    by_cases hname : name.chars = nullName
    · have hfront : front (name :: names) = [] := by rw [front_cons, if_pos hname]
      exact loop_last (by omega) (equalsPass_stop hshows ho (Or.inl hfront))
    · cases ho with
      | done last => exact loop_last (by omega) (equalsPass_stop hshows (.done last) (Or.inr rfl))
      | @name _ name' others running' get' tail' =>
        have hshows' : other.Shows (name' :: others) := .name running' get' tail'
        by_cases hname' : name'.chars = nullName
        · have hfront : front (name' :: others) = [] := by rw [front_cons, if_pos hname']
          exact loop_last (by omega) (equalsPass_stop hshows hshows' (Or.inr hfront))
        · have hpass := equalsPass_names hshows hshows' hname hname'
          rw [front_cons, front_cons, if_neg hname, if_neg hname']
          by_cases hsame : name.chars = name'.chars
          · rw [if_pos hsame] at hpass
            rw [loop_next (by omega) hpass, ih tail' (by omega), hsame]
            simp
          · rw [if_neg hsame] at hpass
            rw [loop_last (by omega) hpass]
            simp [hsame]

/-- What is in front from begin() on. -/
theorem front_visible (hnames : names.map TString.chars =
      (if path.pathName.size = 1 then [] else components path.pathName.chars)) :
    front names = visible path.pathName.chars := by
  unfold front visible
  rw [hnames]
  show _ = if path.pathName.size = 1 then _ else _
  split <;> rfl

/-- operator== compares the visible names and nothing else. -/
theorem equals_visible (p q : Path) {fuel : Nat} (hfuel : p.pathName.size < fuel) :
    p.equals q fuel =
      .ok (decide (visible p.pathName.chars = visible q.pathName.chars)) := by
  obtain ⟨names, hshows, hnames, hcount⟩ := Path.begin_shows p
  obtain ⟨others, hshows', hothers, _⟩ := Path.begin_shows q
  unfold Path.equals
  rw [equals_walk hshows hshows' (by omega), front_visible hnames, front_visible hothers]

/-- operator== is true just for paths of the same root and components, if and
only if paths of equal visible names have equal roots and hidden names, and the
two are not a single character and the same with a delimiter behind it. -/
theorem equals_iff (p q : Path) : ∃ r, (∀ fuel, p.pathName.size < fuel → p.equals q fuel = .ok r) ∧
    ((r = true ↔ p.Same q) ↔
      (visible p.pathName.chars = visible q.pathName.chars →
        p.rootName = q.rootName ∧ hidden p.pathName.chars = hidden q.pathName.chars) ∧
      ¬ Closes p.pathName.chars q.pathName.chars ∧
      ¬ Closes q.pathName.chars p.pathName.chars) := by
  refine ⟨_, fun fuel hfuel => equals_visible p q hfuel, ?_⟩
  rw [decide_eq_true_iff]
  have hp := visible_hidden p.pathName.chars
  have hq := visible_hidden q.pathName.chars
  constructor
  · intro h
    refine ⟨?_, ?_, ?_⟩
    · intro heq
      have hsame := h.mp heq
      refine ⟨hsame.root, ?_⟩
      have hnames := hsame.names
      rw [← hp, ← hq, heq] at hnames
      exact List.append_cancel_left hnames
    · intro hc
      exact hc.visible_ne (h.mpr hc.same)
    · intro hc
      exact hc.visible_ne (h.mpr hc.same.symm).symm
  · rintro ⟨hrest, hcloses⟩
    constructor
    · intro heq
      obtain ⟨hroot, hhidden⟩ := hrest heq
      exact ⟨hroot, by rw [← hp, ← hq, heq, hhidden]⟩
    · intro hsame
      exact hsame.visible_iff.mpr hcloses

/-- The paths "/ab" and "ab" compare equal. -/
theorem rooted_equals_relative :
    (Path.mk ⟨[47, 97, 98], by decide⟩).equals ⟨⟨[97, 98], by decide⟩⟩ 4 = .ok true ∧
      (Path.mk ⟨[47, 97, 98], by decide⟩).rootName ≠ (Path.mk ⟨[97, 98], by decide⟩).rootName :=
  ⟨ok_of_toOption (by decide +kernel), by decide⟩

end CkCore.Proofs.PathEquality
