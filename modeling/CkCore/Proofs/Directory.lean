import CkCore.Proofs.PathEquality
import CkCore.Spec.Directory

namespace CkCore.Proofs.MakeDirectory
open Lib PathIterator PathEquality Directory

variable {σ δ : Type} {fs : FileSystem σ} {dir : List Byte → δ} {dirs : σ → δ → Prop}
  {it : PathIterator} {cur : TString} {files : σ}

/-- At a name that compares equal to the end the loop of create is over. -/
theorem createPass_stop {names : List TString} (h : it.Shows names) (hstop : front names = []) :
    createPass fs ⟨it, cur, files⟩ = .ok (.leave (true, files)) := by
  have hdiffers := (equals_end h).2
  rw [decide_eq_false (not_not_intro hstop)] at hdiffers
  unfold createPass
  rw [hdiffers]
  rfl

/-- A pass that does not return false leaves the next directory in place. -/
theorem createPass_makes (hfs : fs.Lawful dir dirs) {name : TString} {names : List TString}
    (h : it.Shows (name :: names)) (hmore : front (name :: names) ≠ [])
    {p : Pass (Creating σ) (Bool × σ)} (hp : createPass fs ⟨it, cur, files⟩ = .ok p) :
    (∃ files', p = .leave (false, files')) ∨
    ∃ cur' files', p = .again ⟨it.advance, cur', files'⟩ ∧
      cur'.chars = cur.chars ++ (name.chars ++ [slash]) ∧
      ∀ d, dirs files' d ↔ dirs files d ∨ d = dir cur'.chars := by
  have hdiffers := (equals_end h).2
  rw [decide_eq_true hmore] at hdiffers
  have hget : it.get = .ok name := by
    cases h with
    | name _ get _ => exact get
  unfold createPass at hp
  simp only [hdiffers, hget, ok_bind, if_true] at hp
  obtain ⟨closed, hclosed, hp⟩ := bind_ok hp
  obtain ⟨cur', hcur, hp⟩ := bind_ok hp
  have hchars : cur'.chars = cur.chars ++ (name.chars ++ [slash]) := by
    rw [TString.append_chars hcur, TString.append_chars hclosed]
  split at hp
  · rename_i hexist
    cases hp
    refine Or.inr ⟨cur', files, rfl, hchars, ?_⟩
    intro d
    constructor
    · exact Or.inl
    · rintro (hd | rfl)
      · exact hd
      · exact (hfs.stat _ _).mp hexist
  · split at hp
    · cases hp
      exact Or.inl ⟨_, rfl⟩
    · rename_i hres
      cases hp
      exact Or.inr ⟨cur', _, rfl, hchars, hfs.made _ _ _ (Classical.not_not.mp hres)⟩

/-- A loop of create that returns true adds the directories it came to. -/
theorem create_walk (hfs : fs.Lawful dir dirs) {names : List TString} (h : it.Shows names)
    {fuel : Nat} {files' : σ}
    (hl : loop (createPass fs) fuel ⟨it, cur, files⟩ = .ok (true, files')) :
    ∀ d, dirs files' d ↔
      dirs files d ∨ ∃ name ∈ joined cur.chars (front names), d = dir name := by
  induction h generalizing cur files fuel with
  | done last =>
    obtain ⟨m, rfl, _⟩ := loop_ok hl
    rw [loop_leave (createPass_stop (.done last) rfl)] at hl
    cases hl
    simp [front, joined]
  | @name it name names running get tail ih =>
    have hshows : it.Shows (name :: names) := .name running get tail
    obtain ⟨m, rfl, hlast⟩ := loop_ok hl
    by_cases hstop : front (name :: names) = []
    · rw [loop_leave (createPass_stop hshows hstop)] at hl
      cases hl
      simp [hstop, joined]
    · rcases hlast with hpass | ⟨c, hpass, hrest⟩
      · rcases createPass_makes hfs hshows hstop hpass with ⟨_, he⟩ | ⟨_, _, he, _⟩
        · cases he
        · cases he
      · rcases createPass_makes hfs hshows hstop hpass with ⟨_, he⟩ | ⟨cur', mid, he, hcur, hmade⟩
        · cases he
        · cases he
          intro d
          rw [front_cons] at hstop ⊢
          split at hstop
          · exact absurd rfl hstop
          · rename_i hname
            rw [if_neg hname, ih hrest d, hmade d, hcur]
            simp [joined, or_assoc]

theorem create_adds (hfs : fs.Lawful dir dirs) {path : Path} {fuel : Nat} {files' : σ}
    (h : create fs path fuel files = .ok (true, files')) :
    ∀ d, dirs files' d ↔ dirs files d ∨ ∃ name ∈ path.reached, d = dir name := by
  obtain ⟨names, hshows, hnames, _⟩ := Path.begin_shows path
  have hwalk := create_walk hfs hshows h
  rw [front_visible hnames] at hwalk
  exact hwalk

/-- The path itself is its last prefix directory, up to a delimiter. -/
theorem path_last (hfs : fs.Lawful dir dirs) {path : Path}
    (h : components path.pathName.chars ≠ []) :
    ∃ name ∈ path.prefixes, dir name = dir path.pathName.chars := by
  refine ⟨_, joined_last h, ?_⟩
  have hne : path.pathName.chars ≠ [] := by
    intro hnil
    exact h (components_eq_nil.mpr (Or.inl hnil))
  unfold components Path.rootName
  split
  · rename_i hhead
    have htext := List.cons_head?_tail hhead
    rcases segments_closed slash path.pathName.chars.tail with hclosed | hclosed
    · rw [← hclosed]
      exact congrArg dir htext
    · rw [← hclosed, ← hfs.delimiter _ hne]
      conv_rhs => rw [← htext]
      rfl
  · rcases segments_closed slash path.pathName.chars with hclosed | hclosed
    · rw [← hclosed]
      rfl
    · rw [← hclosed, ← hfs.delimiter _ hne]
      rfl

/-- When create returns true, all prefix directories and the path itself exist,
and nothing else changed, if and only if the directories it never looks at
existed before or are among those it came to. -/
theorem create_makes_iff (hfs : fs.Lawful dir dirs) {path : Path} {fuel : Nat} {files' : σ}
    (h : create fs path fuel files = .ok (true, files')) :
    ((∀ name ∈ path.prefixes, dirs files' (dir name)) ∧ dirs files' (dir path.pathName.chars) ∧
      (∀ d, dirs files d → dirs files' d) ∧
      ∀ d, dirs files' d → dirs files d ∨ ∃ name ∈ path.prefixes, d = dir name) ↔
    ∀ name ∈ path.skipped,
      dirs files (dir name) ∨ ∃ other ∈ path.reached, dir name = dir other := by
  have hadds := create_adds hfs h
  have hsplit := path.prefixes_split
  have hold : ∀ d, dirs files d → dirs files' d := fun d hd => (hadds d).mpr (Or.inl hd)
  have hnew : ∀ d, dirs files' d → dirs files d ∨ ∃ name ∈ path.prefixes, d = dir name := by
    intro d hd
    rcases (hadds d).mp hd with hd | ⟨name, hname, rfl⟩
    · exact Or.inl hd
    · exact Or.inr ⟨name, hsplit ▸ List.mem_append_left _ hname, rfl⟩
  by_cases hnone : components path.pathName.chars = []
  · have hprefixes : path.prefixes = [] := by
      unfold Path.prefixes
      rw [hnone]
      rfl
    unfold Path.skipped
    rw [if_pos hnone]
    simp only [hprefixes, List.not_mem_nil, false_implies, implies_true, true_and,
      List.mem_singleton, forall_eq]
    rw [← hadds]
    constructor
    · exact And.left
    · intro hpath
      refine ⟨hpath, hold, ?_⟩
      rw [hprefixes] at hnew
      simpa using hnew
  · have hskipped : path.prefixes = path.reached ++ path.skipped := by
      unfold Path.skipped
      rw [if_neg hnone, hsplit]
    constructor
    · rintro ⟨hall, _⟩ name hname
      exact (hadds _).mp (hall name (hskipped ▸ List.mem_append_right _ hname))
    · intro hbehind
      have hall : ∀ name ∈ path.prefixes, dirs files' (dir name) := by
        intro name hname
        rw [hskipped] at hname
        rcases List.mem_append.mp hname with hname | hname
        · exact (hadds _).mpr (Or.inr ⟨name, hname, rfl⟩)
        · exact (hadds _).mpr (hbehind name hname)
      obtain ⟨last, hlast, hdir⟩ := path_last hfs hnone
      exact ⟨hall, hdir ▸ hall last hlast, hold, hnew⟩

/-- For the path "a" create returns true and makes nothing. -/
theorem create_skips_one :
    create directories ⟨⟨[97], by decide⟩⟩ 2 [] = .ok (true, []) ∧
      [97, 47] ∈ (Path.mk ⟨[97], by decide⟩).prefixes ∧
      directoryOf [97, 47] ∉ ([] : List (Option (List Byte))) :=
  ⟨ok_of_toOption (by decide +kernel), by decide +kernel, by simp⟩

/-- For the path "ab/c" both directories are made. -/
theorem create_makes_two :
    create directories ⟨⟨[97, 98, 47, 99], by decide⟩⟩ 4 [] =
        .ok (true, [some [97, 98, 47, 99], some [97, 98]]) ∧
      ∀ name ∈ (Path.mk ⟨[97, 98, 47, 99], by decide⟩).prefixes,
        directoryOf name ∈ [some [97, 98, 47, 99], some [97, 98]] := by
  have hrun : create directories ⟨⟨[97, 98, 47, 99], by decide⟩⟩ 4 [] =
      .ok (true, [some [97, 98, 47, 99], some [97, 98]]) := ok_of_toOption (by decide +kernel)
  have hiff := create_makes_iff directories_lawful hrun
  exact ⟨hrun, (hiff.mpr (by decide +kernel)).1⟩

end CkCore.Proofs.MakeDirectory
