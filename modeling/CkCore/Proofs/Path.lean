import CkCore.Spec.Path

namespace CkCore.Proofs.Path
open Lib PathIterator

/-- The iterator is at the name that starts at `a` and ends in front of the
next delimiter. -/
structure Stands (it : PathIterator) (path : Path) (a : Nat) : Prop where
  here : it.path = path
  running : it.atEnd = false
  small : it.posStart < sizeWord
  start : addSize it.posStart 1 = a
  inside : a < path.pathName.size
  stop : it.posEnd = a + (path.pathName.chars.drop a).idxOf slash

variable {it : PathIterator} {path : Path} {a : Nat}

theorem size_small (name : TString) : name.size + 1 < sizeWord := by
  have h := name.small
  unfold npos at h
  unfold TString.size
  omega

/-- The length operator* takes, also with a start position of -1. -/
theorem span_eq {s e : Nat} (hs : s < sizeWord) (ha : addSize s 1 ≤ e) (he : e + 1 < sizeWord) :
    subSize (subSize e s) 1 = e - addSize s 1 := by
  unfold subSize addSize sizeWord at *
  omega

/-- Where a name ends that starts inside the text. -/
theorem find_stop (name : TString) (ha : a < name.size) :
    (if name.find slash a = npos then name.size else name.find slash a) =
      a + (name.chars.drop a).idxOf slash ∧
    a + (name.chars.drop a).idxOf slash ≤ name.size := by
  have hle : (name.chars.drop a).idxOf slash ≤ (name.chars.drop a).length := List.idxOf_le_length
  have hlength : (name.chars.drop a).length = name.size - a := List.length_drop
  have hsmall := size_small name
  have hfind : name.find slash a = if a + (name.chars.drop a).idxOf slash < name.size then
      a + (name.chars.drop a).idxOf slash else npos := rfl
  refine ⟨?_, by omega⟩
  by_cases hin : a + (name.chars.drop a).idxOf slash < name.size
  · rw [hfind, if_pos hin, if_neg (by unfold npos; omega)]
  · rw [hfind, if_neg hin, if_pos rfl]
    omega

theorem find_first {name : TString} (h : 0 < name.size) :
    name.find slash 0 = 0 ↔ name.chars.head? = some slash := by
  obtain ⟨c, rest, hchars⟩ := List.exists_cons_of_length_pos h
  have hfind : name.find slash 0 = if 0 + name.chars.idxOf slash < name.size then
      0 + name.chars.idxOf slash else npos := rfl
  rw [hfind, hchars, List.head?_cons, Option.some.injEq]
  by_cases hc : c = slash
  · rw [hc, List.idxOf_cons_self, if_pos (by omega)]
    exact iff_of_true rfl rfl
  · have hsucc : (c :: rest).idxOf slash = rest.idxOf slash + 1 := List.idxOf_cons_ne rest hc
    rw [hsucc]
    refine iff_of_false ?_ hc
    unfold npos sizeWord
    split <;> omega

theorem find_behind {name : TString} {pos : Nat} (h : 0 < pos) : name.find slash pos ≠ 0 := by
  unfold TString.find npos sizeWord
  dsimp only
  split <;> omega

/-- next() stops at the name behind pos_start_ unless the text ends there. -/
theorem next_stands (hrun : it.atEnd = false) (hsmall : it.posStart < sizeWord)
    (ha : addSize it.posStart 1 = a) (hinside : a < it.path.pathName.size)
    (hsize : it.posEnd ≠ it.path.pathName.size)
    (hlast : it.posEnd ≠ subSize it.path.pathName.size 1)
    (hfirst : it.path.pathName.find slash a ≠ 0) : Stands it.next it.path a := by
  have hnext : it.next = { it with posEnd := if it.path.pathName.find slash a = npos then
      it.path.pathName.size else it.path.pathName.find slash a } := by
    unfold next
    simp only [hsize, hlast, or_self, if_false, ha, hfirst]
  rw [hnext]
  exact ⟨rfl, hrun, hsmall, ha, hinside, (find_stop it.path.pathName hinside).1⟩

namespace Stands

/-- operator* gives the name. -/
theorem get (h : Stands it path a) : ∃ name, it.get = .ok name ∧
    name.chars = (path.pathName.chars.drop a).take ((path.pathName.chars.drop a).idxOf slash) := by
  have hstop := find_stop path.pathName h.inside
  have hsmall := size_small path.pathName
  have hspan : subSize (subSize it.posEnd it.posStart) 1 =
      (path.pathName.chars.drop a).idxOf slash := by
    rw [span_eq h.small (by rw [h.start, h.stop]; omega) (by rw [h.stop]; omega), h.start, h.stop]
    omega
  have hinside := h.inside
  unfold PathIterator.get TString.substr
  rw [h.here, h.start, hspan, h.running, if_neg Bool.false_ne_true, if_pos (by omega)]
  exact ⟨_, rfl, rfl⟩

/-- operator++ goes to the name behind the delimiter, or to the end. -/
theorem advance (h : Stands it path a) :
    (it.posEnd + 1 < path.pathName.size → Stands it.advance path (it.posEnd + 1)) ∧
    (path.pathName.size ≤ it.posEnd + 1 → it.advance.atEnd = true) := by
  have hstop := find_stop path.pathName h.inside
  have hsmall := size_small path.pathName
  have hinside := h.inside
  have hend := h.stop
  have hpath := h.here
  have hless : subSize path.pathName.size 1 = path.pathName.size - 1 :=
    subSize_eq (by omega) (by omega)
  constructor
  · intro hmore
    have hstart : addSize it.posEnd 1 = it.posEnd + 1 := addSize_eq (by omega)
    have hfind : path.pathName.find slash (it.posEnd + 1) ≠ 0 := find_behind (by omega)
    subst hpath
    exact @next_stands { it with posStart := it.posEnd } (it.posEnd + 1) h.running
      (show it.posEnd < sizeWord by omega) hstart hmore
      (show it.posEnd ≠ it.path.pathName.size by omega)
      (show it.posEnd ≠ subSize it.path.pathName.size 1 by omega) hfind
  · intro hlast
    have hcond : it.posEnd = path.pathName.size ∨ it.posEnd = subSize path.pathName.size 1 := by
      omega
    unfold PathIterator.advance next
    simp only [hpath, hcond, if_true]

end Stands

/-- From a name on, all that is left of the text is shown. -/
theorem Stands.shows (h : Stands it path a) : ∃ names, it.Shows names ∧
    names.map TString.chars = segments slash (path.pathName.chars.drop a) ∧
    names.length ≤ path.pathName.size - a := by
  induction hn : path.pathName.size - a using Nat.strongRecOn generalizing it a with
  | ind n ih =>
    obtain ⟨name, hget, hname⟩ := h.get
    have hinside := h.inside
    have hstop := h.stop
    have hlength : (path.pathName.chars.drop a).length = path.pathName.size - a :=
      List.length_drop
    by_cases hmore : it.posEnd + 1 < path.pathName.size
    · have hidx : (path.pathName.chars.drop a).idxOf slash <
          (path.pathName.chars.drop a).length := by omega
      have hsplit := split_at_idxOf hidx
      have hdrop : (path.pathName.chars.drop a).drop
          ((path.pathName.chars.drop a).idxOf slash + 1) =
            path.pathName.chars.drop (it.posEnd + 1) := by
        rw [List.drop_drop, hstop, Nat.add_assoc]
      obtain ⟨names, hshows, hnames, hcount⟩ :=
        ih (path.pathName.size - (it.posEnd + 1)) (by omega) (h.advance.1 hmore) rfl
      refine ⟨name :: names, .name h.running hget hshows, ?_, ?_⟩
      · rw [hsplit.2, segments_cons hsplit.1, hdrop, List.map_cons, hnames, hname]
      · rw [List.length_cons]
        omega
    · have hover := h.advance.2 (by omega)
      refine ⟨[name], .name h.running hget (.done hover), ?_, ?_⟩
      · rw [List.map_singleton, hname]
        have hne : path.pathName.chars.drop a ≠ [] := by
          intro hnil
          rw [hnil, List.length_nil] at hlength
          omega
        exact (segments_one hne (by omega)).symm
      · rw [List.length_singleton]
        omega

/-- begin() goes to the first name, unless the text has at most one character. -/
theorem begin_stands (h : 1 < path.pathName.size) : ∃ a, Stands path.begin path a ∧
    (if path.pathName.chars.head? = some slash then path.pathName.chars.tail
      else path.pathName.chars) = path.pathName.chars.drop a := by
  have hsmall := size_small path.pathName
  have hless : subSize path.pathName.size 1 = path.pathName.size - 1 :=
    subSize_eq (by omega) (by omega)
  have hstart : addSize npos 1 = 0 := by decide
  have hsize : ¬ (0 = path.pathName.size ∨ 0 = subSize path.pathName.size 1) := by omega
  have hfirst : path.pathName.find slash 0 = 0 ↔ path.pathName.chars.head? = some slash :=
    find_first (by omega)
  by_cases hhead : path.pathName.chars.head? = some slash
  · have hfind := hfirst.mpr hhead
    have hone : addSize 0 1 = 1 := by decide
    have hbegin : path.begin = ⟨false, 0, if path.pathName.find slash 1 = npos then
        path.pathName.size else path.pathName.find slash 1, path⟩ := by
      unfold Path.begin next
      simp only [hsize, if_false, hstart, hfind, if_true, hone]
    rw [hbegin, if_pos hhead]
    exact ⟨1, ⟨rfl, rfl, show 0 < sizeWord by decide, hone, h, (find_stop path.pathName h).1⟩,
      List.drop_one.symm⟩
  · rw [if_neg hhead]
    exact ⟨0, next_stands rfl (show npos < sizeWord by decide) hstart
      (show 0 < path.pathName.size by omega)
      (show 0 ≠ path.pathName.size by omega)
      (show 0 ≠ subSize path.pathName.size 1 by omega) (fun hf => hhead (hfirst.mp hf)), rfl⟩

/-- At most one character: begin() is at the end. -/
theorem begin_end (h : path.pathName.size ≤ 1) : path.begin.atEnd = true := by
  have hcond : 0 = path.pathName.size ∨ 0 = subSize path.pathName.size 1 := by
    unfold subSize sizeWord
    omega
  unfold Path.begin next
  simp only [hcond, if_true]

/-- The names from begin() on are the components, except that the name of a
single character is passed over. -/
theorem begin_shows (path : Path) : ∃ names, path.begin.Shows names ∧
    names.map TString.chars =
      (if path.pathName.size = 1 then [] else components path.pathName.chars) ∧
    names.length ≤ path.pathName.size := by
  by_cases hlong : 1 < path.pathName.size
  · obtain ⟨a, hstands, htext⟩ := begin_stands hlong
    obtain ⟨names, hshows, hnames, hcount⟩ := hstands.shows
    have hmany : ¬ path.pathName.size = 1 := by omega
    refine ⟨names, hshows, ?_, Nat.le_trans hcount (Nat.sub_le _ _)⟩
    rw [hnames, if_neg hmany, ← htext]
    rfl
  · refine ⟨[], .done (begin_end (by omega)), ?_, Nat.zero_le _⟩
    by_cases hone : path.pathName.size = 1
    · rw [if_pos hone]
      rfl
    · have hnil : path.pathName.chars = [] := by
        rw [← List.length_eq_zero_iff]
        show path.pathName.size = 0
        omega
      rw [if_neg hone, hnil]
      rfl

/-- The names visited are the components just when the path is not a single
character that is no delimiter; that one is passed over. -/
theorem begin_visits_iff (path : Path) : ∃ names,
    (∀ fuel, path.pathName.size < fuel → path.visited fuel = .ok names) ∧
    ((names.map TString.chars = components path.pathName.chars ∧
        (path.pathName.chars ≠ [] → path.pathName.chars ≠ [slash] → names ≠ [])) ↔
      (path.pathName.size = 1 → path.pathName.chars = [slash])) := by
  obtain ⟨names, hshows, hnames, hcount⟩ := begin_shows path
  refine ⟨names, fun fuel hfuel => hshows.visits (by omega) [], ?_⟩
  by_cases hone : path.pathName.size = 1
  · rw [if_pos hone] at hnames
    have hnil : names = [] := List.map_eq_nil_iff.mp hnames
    have hne : path.pathName.chars ≠ [] := by
      intro hnil
      rw [← List.length_eq_zero_iff] at hnil
      exact absurd (hone.symm.trans hnil) (by decide)
    rw [hnames, eq_comm, components_eq_nil]
    constructor
    · rintro ⟨hempty | hslash, _⟩ _
      · exact absurd hempty hne
      · exact hslash
    · intro h
      exact ⟨Or.inr (h hone), fun _ hslash => absurd (h hone) hslash⟩
  · rw [if_neg hone] at hnames
    refine iff_of_true ⟨hnames, ?_⟩ (fun h => absurd h hone)
    intro hne hslash hnil
    rw [hnil, List.map_nil] at hnames
    exact (components_eq_nil.mp hnames.symm).elim hne hslash

/-- The only name of the path "a" is never visited. -/
theorem begin_passes_one : (Path.mk ⟨[97], by decide⟩).visited 2 = .ok [] ∧
    components [97] = [[97]] := ⟨by rfl, by decide⟩

end CkCore.Proofs.Path
