import CkCore.Lib.Seams
import CkCore.Model.Path
import Mathlib.Data.List.TakeWhile
import Mathlib.Logic.Function.Iterate

namespace CkCore
open Lib

/-- The names between the delimiters; one delimiter in front of all is dropped. -/
def components (text : List Byte) : List (List Byte) :=
  segments slash (if text.head? = some slash then text.tail else text)

theorem components_eq (text : List Byte) :
    components text = segments slash (trimFront slash text) := rfl

/-- No zero is in the name: a path is built from C strings. -/
def Path.Named (self : Path) : Prop := 0 ∉ self.pathName.chars

/-- Look at the name the iterator is at and advance, unless at_end_ is set. -/
def PathIterator.visit (here : PathIterator × List TString) :
    Except Fault (Pass (PathIterator × List TString) (List TString)) :=
  if here.1.atEnd then .ok (.leave here.2)
  else do
    let name ← here.1.get
    return .again (here.1.advance, here.2 ++ [name])

/-- Every name from begin() on, in order. -/
def Path.visited (self : Path) (fuel : Nat) : Except Fault (List TString) :=
  loop PathIterator.visit fuel (self.begin, [])

/-- The names an iterator gives until at_end_ is set. -/
inductive PathIterator.Shows : PathIterator → List TString → Prop where
  | done {it : PathIterator} (last : it.atEnd = true) : Shows it []
  | name {it : PathIterator} {name : TString} {names : List TString} (running : it.atEnd = false)
      (get : it.get = .ok name) (tail : Shows it.advance names) : Shows it (name :: names)

/-- The text operator* gives at the end. -/
def nullName : List Byte := [78, 85, 76, 76]

/-- The components in front of the first "NULL"; none when begin() is already
at the end. -/
def visible (text : List Byte) : List (List Byte) :=
  if text.length = 1 then [] else (components text).takeWhile (· ≠ nullName)

/-- The other components. -/
def hidden (text : List Byte) : List (List Byte) :=
  (components text).drop (visible text).length

theorem visible_hidden (text : List Byte) : visible text ++ hidden text = components text := by
  have hfront : visible text <+: components text := by
    unfold visible
    split
    · exact List.nil_prefix
    · exact List.takeWhile_prefix _
  exact List.prefix_iff_eq_append.mp hfront

/-- A text other than a single delimiter has components unless it is empty. -/
theorem components_eq_nil {text : List Byte} :
    components text = [] ↔ text = [] ∨ text = [slash] := by
  unfold components
  rw [segments_eq_nil]
  cases text with
  | nil => simp
  | cons c rest =>
    by_cases hc : c = slash
    · simp [hc]
    · simp [hc]

/-- The same root and the same components. -/
structure Path.Same (p q : Path) : Prop where
  root : p.rootName = q.rootName
  names : components p.pathName.chars = components q.pathName.chars

theorem Path.Same.symm {p q : Path} (h : p.Same q) : q.Same p :=
  ⟨h.root.symm, h.names.symm⟩

/-- One character that is no delimiter, and the same with a delimiter behind. -/
def Closes (text other : List Byte) : Prop :=
  ∃ c, c ≠ slash ∧ text = [c] ∧ other = [c, slash]

theorem Path.rootName_eq {p q : Path} : p.rootName = q.rootName ↔
    (p.pathName.chars.head? = some slash ↔ q.pathName.chars.head? = some slash) := by
  have hne : (⟨[slash], by decide⟩ : TString) ≠ TString.empty := by decide
  unfold Path.rootName
  by_cases hp : p.pathName.chars.head? = some slash
  · by_cases hq : q.pathName.chars.head? = some slash
    · simp [hp, hq]
    · simp [hp, hq, hne]
  · by_cases hq : q.pathName.chars.head? = some slash
    · simp [hp, hq, hne.symm]
    · simp [hp, hq]

/-- Such paths differ by one delimiter at the end at most. -/
theorem Path.Same.text {p q : Path} (h : p.Same q) :
    p.pathName.chars = q.pathName.chars ∨ p.pathName.chars = q.pathName.chars ++ [slash] ∨
      q.pathName.chars = p.pathName.chars ++ [slash] := by
  have hroot := Path.rootName_eq.mp h.root
  have hnames := h.names
  unfold components at hnames
  by_cases hp : p.pathName.chars.head? = some slash
  · have hq := hroot.mp hp
    rw [if_pos hp, if_pos hq] at hnames
    have hp := List.cons_head?_tail hp
    have hq := List.cons_head?_tail hq
    rw [← hp, ← hq]
    rcases segments_eq hnames with h | h | h
    · left
      rw [h]
    · right; left
      rw [h]
      rfl
    · right; right
      rw [h]
      rfl
  · rw [if_neg hp, if_neg (fun hq => hp (hroot.mpr hq))] at hnames
    exact segments_eq hnames

/-- Only behind a single character does a delimiter at the end matter. -/
theorem visible_snoc {text : List Byte} (h : components (text ++ [slash]) = components text)
    (hcloses : ¬ Closes text (text ++ [slash])) : visible (text ++ [slash]) = visible text := by
  unfold visible
  rw [h, List.length_append, List.length_singleton]
  by_cases hone : text.length = 1
  · obtain ⟨c, rfl⟩ := List.length_eq_one_iff.mp hone
    have hslash : c = slash := by
      apply Classical.byContradiction
      intro hne
      exact hcloses ⟨c, hne, rfl, rfl⟩
    rw [hslash] at h
    exact absurd h (by decide)
  · rw [if_neg hone]
    by_cases hnil : text.length = 0
    · rw [List.length_eq_zero_iff] at hnil
      rw [hnil]
      rfl
    · rw [if_neg (by omega)]

theorem Closes.components_eq {c : Byte} (hne : c ≠ slash) :
    components [c] = [[c]] ∧ components [c, slash] = [[c]] := by
  have hhead : ¬ [c].head? = some slash := by simp [hne]
  have hhead' : ¬ [c, slash].head? = some slash := by simp [hne]
  unfold components
  rw [if_neg hhead, if_neg hhead']
  have hmem : slash ∉ [c] := by simp [Ne.symm hne]
  exact ⟨segments_open hmem (List.cons_ne_nil _ _), segments_cons hmem⟩

theorem Closes.visible_ne {text other : List Byte} (h : Closes text other) :
    visible text ≠ visible other := by
  obtain ⟨c, hne, rfl, rfl⟩ := h
  have hnone : visible [c] = [] := rfl
  have hone : visible [c, slash] = [[c]] := by
    have hnull : [c] ≠ nullName := by simp [nullName]
    show (components [c, slash]).takeWhile _ = _
    rw [(Closes.components_eq hne).2]
    simp [hnull]
  rw [hnone, hone]
  exact (List.cons_ne_nil _ _).symm

theorem Closes.same {p q : Path} (h : Closes p.pathName.chars q.pathName.chars) : p.Same q := by
  obtain ⟨c, hne, hp, hq⟩ := h
  have hhead : ∀ rest, ¬ (c :: rest).head? = some slash := by
    intro rest
    simp [hne]
  obtain ⟨hopen, hclosed⟩ := Closes.components_eq hne
  refine ⟨Path.rootName_eq.mpr ?_, ?_⟩
  · rw [hp, hq]
    exact iff_of_false (hhead _) (hhead _)
  · rw [hp, hq, hopen, hclosed]

/-- Paths of the same names show the same names, but for a single character
and the same with a delimiter behind it. -/
theorem Path.Same.visible_iff {p q : Path} (h : p.Same q) :
    visible p.pathName.chars = visible q.pathName.chars ↔
      ¬ Closes p.pathName.chars q.pathName.chars ∧
        ¬ Closes q.pathName.chars p.pathName.chars := by
  constructor
  · intro heq
    exact ⟨fun hc => hc.visible_ne heq, fun hc => hc.visible_ne heq.symm⟩
  · rintro ⟨hpq, hqp⟩
    have hnames := h.names
    rcases h.text with heq | heq | heq
    · rw [heq]
    · rw [heq] at hnames hqp ⊢
      exact visible_snoc hnames hqp
    · rw [heq] at hnames hpq ⊢
      exact (visible_snoc hnames.symm hpq).symm

/-- An iterator never leaves the end. -/
theorem PathIterator.advance_end {it : PathIterator} (h : it.atEnd = true) :
    it.advance.atEnd = true := by
  unfold PathIterator.advance PathIterator.next
  dsimp only
  split
  · rfl
  · exact h

/-- Advancing forgets the first of the names. -/
theorem PathIterator.Shows.drop {it : PathIterator} {names : List TString} (h : it.Shows names)
    (steps : Nat) : (PathIterator.advance^[steps] it).Shows (names.drop steps) := by
  induction steps generalizing it names with
  | zero => exact h
  | succ steps ih =>
    cases h with
    | done last =>
      have hrest := ih (.done (advance_end last))
      rw [List.drop_nil] at hrest ⊢
      exact hrest
    | name running get tail => exact ih tail

/-- The walk over all names ends with the names shown. -/
theorem PathIterator.Shows.visits {it : PathIterator} {names : List TString} (h : it.Shows names)
    {fuel : Nat} (hfuel : names.length < fuel) (past : List TString) :
    loop visit fuel (it, past) = .ok (past ++ names) := by
  induction h generalizing fuel past with
  | done last =>
    rw [List.append_nil]
    apply loop_last (by omega)
    simp only [visit, last, if_true]
  | @name it name names running get tail ih =>
    have hpass : visit (it, past) = .ok (.again (it.advance, past ++ [name])) := by
      simp only [visit, running, get, ok_bind]
      rfl
    rw [List.length_cons] at hfuel
    rw [loop_next (by omega) hpass, ih (by omega), List.append_assoc]
    rfl

end CkCore
