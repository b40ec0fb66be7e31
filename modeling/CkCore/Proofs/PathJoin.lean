import CkCore.Spec.Path

namespace CkCore.Proofs.PathJoin
open Lib CkCore.Path

section
variable {a b c ab : Path} {name other : TString}

theorem cStr_eq (h : 0 ∉ name.chars) : name.cStr = name := by
  have hall : name.chars.takeWhile (· ≠ 0) = name.chars := by
    rw [List.takeWhile_eq_self_iff]
    intro c hc
    exact decide_eq_true fun he => h (he ▸ hc)
  unfold TString.cStr
  simp only [hall]

theorem make_eq (h : a.Named) : make a.pathName = a := by
  unfold make
  rw [cStr_eq h]

/-- The characters at the two sides of the seam. -/
theorem get_last {front : List Byte} {last : Byte} (h : name.chars = front ++ [last]) :
    subSize name.size 1 = front.length ∧ name.get front.length = .ok last := by
  have hsize : name.size = front.length + 1 := by simp [TString.size, h]
  have hsmall := name.small
  have hword : npos < sizeWord := by decide
  have hlength : name.chars.length = name.size := rfl
  constructor
  · rw [subSize_eq (by omega) (by omega)]
    omega
  · unfold TString.get
    rw [if_pos (by omega), h]
    simp

/-- In front of an empty name stands the zero behind its end. -/
theorem get_first (other : TString) :
    ∃ first, other.get 0 = .ok first ∧ (first = slash ↔ other.chars.head? = some slash) := by
  refine ⟨other.chars.getD 0 0, if_pos (Nat.zero_le _), ?_⟩
  cases other.chars with
  | nil => exact iff_of_false (by decide) (by simp)
  | cons first rest => simp

/-- Every case at the seam makes the left name ready for the right one. -/
theorem joint_eq (hn : name.chars ≠ []) (other : TString) :
    joint name other = TString.fit (jointed slash name.chars other.chars) := by
  obtain ⟨front, last, hname⟩ := (List.eq_nil_or_concat' name.chars).resolve_left hn
  obtain ⟨hend, hlast⟩ := get_last hname
  obtain ⟨first, hfirst, hdelim⟩ := get_first other
  have hresize : (name.resize front.length).chars = front := by simp [TString.resize, hname]
  simp only [joint, hend, hlast, hfirst, ok_bind]
  unfold jointed
  by_cases hf : other.chars.head? = some slash
  · by_cases hl : last = slash
    · subst hl
      rw [if_pos hf, hname, trimEnd_sep, ← hresize, TString.fit_chars]
      simp [hdelim, hf, hresize]
    · rw [if_pos hf, hname, trimEnd_other hl, ← hname, TString.fit_chars]
      simp [hdelim, hf, hl]
  · by_cases hl : last = slash
    · subst hl
      rw [if_neg hf, hname, trimEnd_sep, ← hname, TString.fit_chars]
      simp [hdelim, hf]
    · rw [if_neg hf, hname, trimEnd_other hl]
      simp only [hdelim, hf, hl, and_self, not_false_eq_true, ↓reduceIte]
      rw [TString.append_fit, hname]

theorem joint_append (hn : name.chars ≠ []) (other : TString) :
    (joint name other >>= fun front => front.append other) =
      TString.fit (seamed slash name.chars other.chars) := by
  rw [joint_eq hn, TString.fit_append, jointed_append]

/-- Joining two texts without zeros brings none in. -/
theorem seamed_named (ha : a.Named) (hb : b.Named) :
    (0 : Byte) ∉ seamed slash a.pathName.chars b.pathName.chars := by
  intro hzero
  rcases List.mem_append.mp hzero with hfront | hback
  · exact ha ((trimEnd_front _ _).subset hfront)
  · rcases List.mem_cons.mp hback with heq | hback
    · exact absurd heq (by decide)
    · exact hb ((trimFront_back _ _).subset hback)

theorem plus_nonempty (ha : a.Named) (hb : b.Named) (hna : a.pathName.chars ≠ [])
    (hnb : b.pathName.chars ≠ []) :
    a.plus b = (TString.fit (seamed slash a.pathName.chars b.pathName.chars) >>= fun name =>
      .ok ⟨name⟩) := by
  have hsa : ¬ a.pathName.size < 1 := by simpa [TString.size] using hna
  have hsb : ¬ b.pathName.size < 1 := by simpa [TString.size] using hnb
  have hassoc := bind_assoc (joint a.pathName b.pathName) (fun front => front.append b.pathName)
    fun name => Except.ok (make name)
  rw [joint_append hna] at hassoc
  rw [plus, if_neg hsa, if_neg hsb]
  refine hassoc.symm.trans ?_
  unfold TString.fit
  split
  · have hnamed : (⟨⟨seamed slash a.pathName.chars b.pathName.chars, by assumption⟩⟩ :
        Path).Named := seamed_named ha hb
    simp only [ok_bind]
    exact congrArg Except.ok (make_eq hnamed)
  · rfl

theorem plus_left (hb : b.Named) (hna : a.pathName.chars = []) : a.plus b = .ok b := by
  have hsa : a.pathName.size < 1 := by simp [TString.size, hna]
  rw [plus, if_pos hsa, make_eq hb]

theorem plus_right (hb : b.Named) (hnb : b.pathName.chars = []) : a.plus b = .ok b := by
  have hsb : b.pathName.size < 1 := by simp [TString.size, hnb]
  rw [plus, if_pos hsb, make_eq hb]
  split <;> rfl

/-- A sum that returned is the joined name, or the right operand where one of
the two is empty. -/
theorem plus_cases (ha : a.Named) (hb : b.Named) (h : a.plus b = .ok ab) :
    (a.pathName.chars = [] ∨ b.pathName.chars = []) ∧ ab = b ∨
    a.pathName.chars ≠ [] ∧ b.pathName.chars ≠ [] ∧
      ab.pathName.chars = seamed slash a.pathName.chars b.pathName.chars := by
  by_cases hna : a.pathName.chars = []
  · rw [plus_left hb hna] at h
    exact Or.inl ⟨Or.inl hna, (Except.ok.inj h).symm⟩
  · by_cases hnb : b.pathName.chars = []
    · rw [plus_right hb hnb] at h
      exact Or.inl ⟨Or.inr hnb, (Except.ok.inj h).symm⟩
    · rw [plus_nonempty ha hb hna hnb] at h
      obtain ⟨joined, hfit, hab⟩ := bind_ok h
      cases hab
      exact Or.inr ⟨hna, hnb, TString.fit_eq hfit⟩

theorem plus_named (ha : a.Named) (hb : b.Named) (h : a.plus b = .ok ab) : ab.Named := by
  rcases plus_cases ha hb h with ⟨_, rfl⟩ | ⟨_, _, hab⟩
  · exact hb
  · unfold Named
    rw [hab]
    exact seamed_named ha hb

/-- The sum of two paths returns unless its name is too long for a string. -/
theorem plus_returns (ha : a.Named) (hb : b.Named) :
    (∃ ab, a.plus b = .ok ab) ∨ npos ≤ a.pathName.size + b.pathName.size + 1 := by
  by_cases hna : a.pathName.chars = []
  · exact Or.inl ⟨b, plus_left hb hna⟩
  · by_cases hnb : b.pathName.chars = []
    · exact Or.inl ⟨b, plus_right hb hnb⟩
    · rw [plus_nonempty ha hb hna hnb]
      have hle := seamed_length_le slash a.pathName.chars b.pathName.chars
      by_cases hfit : (seamed slash a.pathName.chars b.pathName.chars).length < npos
      · exact Or.inl ⟨⟨⟨_, hfit⟩⟩, by rw [TString.fit, dif_pos hfit]; rfl⟩
      · right
        unfold TString.size
        omega

/-- Around a path that is not empty the sum does not depend on the order: the
seams are joined alike, and a name that is too long is so either way. -/
theorem plus_assoc (ha : a.Named) (hb : b.Named) (hc : c.Named) (hna : a.pathName.chars ≠ [])
    (hnb : b.pathName.chars ≠ []) (hnc : c.pathName.chars ≠ []) (h : a.plus b = .ok ab) :
    ab.plus c = (b.plus c >>= fun bc => a.plus bc) := by
  have habn := plus_named ha hb h
  obtain ⟨_, _, hab⟩ := (plus_cases ha hb h).resolve_left fun hsame => hsame.1.elim hna hnb
  have hne : ab.pathName.chars ≠ [] := by
    rw [hab]
    exact seamed_ne_nil _ _
  rw [plus_nonempty habn hc hne hnc, hab, seamed_assoc hnb]
  cases hbc : b.plus c with
  | ok bc =>
    obtain ⟨_, _, hbcn⟩ := (plus_cases hb hc hbc).resolve_left fun hsame => hsame.1.elim hnb hnc
    have hbcne : bc.pathName.chars ≠ [] := by
      rw [hbcn]
      exact seamed_ne_nil _ _
    rw [ok_bind, plus_nonempty ha (plus_named hb hc hbc) hna hbcne, hbcn]
  | error e =>
    rw [plus_nonempty hb hc hnb hnc] at hbc
    have hlong := seamed_length_right slash a.pathName.chars
      (seamed slash b.pathName.chars c.pathName.chars)
    unfold TString.fit at hbc ⊢
    split at hbc
    · cases hbc
    · rw [dif_neg (by omega)]
      exact hbc

/-- Where the middle path is empty, it and the left one are lost. -/
theorem plus_around_empty (ha : a.Named) (hb : b.Named) (hc : c.Named)
    (hna : a.pathName.chars ≠ []) (hnb : b.pathName.chars = []) (hnc : c.pathName.chars ≠ [])
    (h : a.plus b = .ok ab) :
    ab.plus c = (b.plus c >>= fun bc => a.plus bc) ↔
      a.pathName.chars = [slash] ∧ c.pathName.chars.head? = some slash := by
  rw [plus_right hb hnb] at h
  cases h
  rw [plus_left hc hnb, ok_bind, plus_nonempty ha hc hna hnc, ← seamed_eq_right hna]
  constructor
  · intro heq
    obtain ⟨joined, hfit, hjoined⟩ := bind_ok heq.symm
    cases hjoined
    exact (TString.fit_eq hfit).symm
  · intro hsame
    rw [hsame, TString.fit_chars]
    rfl

/-- The two orders agree unless the middle path is empty and the outer ones
are not; a delimiter in front of another then stands for both. -/
theorem plus_assoc_iff (ha : a.Named) (hb : b.Named) (hc : c.Named) (h : a.plus b = .ok ab) :
    ab.plus c = (b.plus c >>= fun bc => a.plus bc) ↔
      a.pathName.chars = [] ∨ b.pathName.chars ≠ [] ∨ c.pathName.chars = [] ∨
        a.pathName.chars = [slash] ∧ c.pathName.chars.head? = some slash := by
  by_cases hna : a.pathName.chars = []
  · rw [plus_left hb hna] at h
    cases h
    refine iff_of_true ?_ (Or.inl hna)
    cases hbc : b.plus c with
    | ok bc => exact (plus_left (plus_named hb hc hbc) hna).symm
    | error e => rfl
  · by_cases hnc : c.pathName.chars = []
    · refine iff_of_true ?_ (Or.inr (Or.inr (Or.inl hnc)))
      rw [plus_right hc hnc, plus_right hc hnc, ok_bind, plus_right hc hnc]
    · by_cases hnb : b.pathName.chars = []
      · rw [plus_around_empty ha hb hc hna hnb hnc h]
        simp [hna, hnb, hnc]
      · exact iff_of_true (plus_assoc ha hb hc hna hnb hnc h) (Or.inr (Or.inl hnb))

theorem empty_named : Path.empty.Named := List.not_mem_nil

theorem plus_empty_iff (a : Path) : a.plus Path.empty = .ok a ↔ a.pathName.chars = [] := by
  rw [plus_right empty_named rfl]
  constructor
  · intro heq
    rw [← Except.ok.inj heq]
    rfl
  · intro hna
    obtain ⟨⟨chars, small⟩⟩ := a
    dsimp only at hna
    subst hna
    rfl

/-- Paths form a monoid under operator+ except for an empty right operand: it
takes the left one with it, which only an empty one does not notice. -/
theorem plus_monoid_iff (ha : a.Named) (hb : b.Named) (hc : c.Named) :
    ((∃ ab, a.plus b = .ok ab ∧
        (ab.plus c = (b.plus c >>= fun bc => a.plus bc) ↔
          a.pathName.chars = [] ∨ b.pathName.chars ≠ [] ∨ c.pathName.chars = [] ∨
            a.pathName.chars = [slash] ∧ c.pathName.chars.head? = some slash)) ∨
      npos ≤ a.pathName.size + b.pathName.size + 1) ∧
    Path.empty.plus a = .ok a ∧
    (a.plus Path.empty = .ok a ↔ a.pathName.chars = []) := by
  refine ⟨?_, plus_left ha rfl, plus_empty_iff a⟩
  rcases plus_returns ha hb with ⟨ab, h⟩ | hlong
  · exact Or.inl ⟨ab, h, plus_assoc_iff ha hb hc h⟩
  · exact Or.inr hlong

/-- A sum of two paths that are not empty has the components of the one and then
those of the other, and the root of the first. -/
theorem components_plus (ha : a.Named) (hb : b.Named) (hna : a.pathName.chars ≠ [])
    (hnb : b.pathName.chars ≠ []) :
    (∃ ab, a.plus b = .ok ab ∧
      components ab.pathName.chars =
        components a.pathName.chars ++ components b.pathName.chars ∧
      ab.rootName = a.rootName) ∨
    npos ≤ a.pathName.size + b.pathName.size + 1 := by
  rcases plus_returns ha hb with ⟨ab, h⟩ | hlong
  · obtain ⟨_, _, hab⟩ := (plus_cases ha hb h).resolve_left fun hsame => hsame.1.elim hna hnb
    refine Or.inl ⟨ab, h, ?_, ?_⟩
    · rw [components_eq, hab]
      exact segments_seamed hna _
    · rw [Path.rootName_eq, hab, seamed_head hna]
  · exact Or.inr hlong

/-- operator+= makes of the left operand what operator+ returns, and reads only
characters there are. -/
structure AssignsSum (a : Path) (b : Operand) : Prop where
  sum : ∀ ab, a.plus (b.path a) = .ok ab → a.plusAssign b = .ok ab
  last : ∃ c, a.pathName.get (subSize a.pathName.size 1) = .ok c
  first : ∃ c, (b.path a).pathName.get 0 = .ok c

theorem plusAssign_other (hna : a.pathName.chars ≠ []) (b : Path) :
    a.plusAssign (.other b) =
      (TString.fit (seamed slash a.pathName.chars b.pathName.chars) >>= fun name =>
        .ok ⟨name⟩) := by
  have hassoc := bind_assoc (joint a.pathName b.pathName) (fun front => front.append b.pathName)
    fun name => Except.ok (Path.mk name)
  rw [joint_append hna] at hassoc
  exact hassoc.symm

/-- Behind itself a path puts what it has just become. -/
theorem plusAssign_itself (hna : a.pathName.chars ≠ []) :
    a.plusAssign .itself =
      (TString.fit (jointed slash a.pathName.chars a.pathName.chars ++
        jointed slash a.pathName.chars a.pathName.chars) >>= fun name => .ok ⟨name⟩) := by
  have hjoint := joint_eq hna a.pathName
  simp only [plusAssign, Operand.path, hjoint]
  generalize jointed slash a.pathName.chars a.pathName.chars = chars
  unfold TString.fit
  by_cases hfit : chars.length < npos
  · rw [dif_pos hfit]
    rfl
  · have hlong : ¬ (chars ++ chars).length < npos := by
      rw [List.length_append]
      omega
    rw [dif_neg hfit, dif_neg hlong]
    rfl

/-- An empty left operand has no last character: its index wraps around. -/
theorem get_empty (hn : name.chars = []) :
    name.get (subSize name.size 1) = .error .outOfBounds := by
  have hsize : name.size = 0 := by simp [TString.size, hn]
  rw [hsize]
  unfold TString.get
  rw [hsize]
  rfl

/-- A path doubled in place is a + a when its two ends bring exactly one
delimiter, or when a + a is too long for a string. -/
theorem itself_sum_iff (ha : a.Named) (hna : a.pathName.chars ≠ []) :
    (∀ ab, a.plus a = .ok ab → a.plusAssign .itself = .ok ab) ↔
      (a.pathName.chars.head? = some slash ↔ a.pathName.chars.getLast? ≠ some slash) ∨
        npos ≤ (seamed slash a.pathName.chars a.pathName.chars).length := by
  have hdouble := jointed_append slash a.pathName.chars a.pathName.chars
  rw [plus_nonempty ha ha hna hna, plusAssign_itself hna, ← jointed_eq_left hna, ← hdouble]
  generalize jointed slash a.pathName.chars a.pathName.chars = chars
  constructor
  · intro h
    by_cases hfit : (chars ++ a.pathName.chars).length < npos
    · left
      have hsum := h ⟨⟨_, hfit⟩⟩ (by rw [TString.fit, dif_pos hfit]; rfl)
      obtain ⟨name, hname, hpath⟩ := bind_ok hsum
      cases hpath
      exact List.append_cancel_left (TString.fit_eq hname).symm
    · exact Or.inr (Nat.le_of_not_lt hfit)
  · rintro (hsame | hlong) ab hsum
    · rw [hsame] at hsum ⊢
      exact hsum
    · obtain ⟨name, hname, _⟩ := bind_ok hsum
      have hsmall := name.small
      rw [TString.fit_eq hname] at hsmall
      omega

/-- operator+= agrees with operator+ just when neither operand is empty, and for
a path doubled in place just when besides its two ends bring exactly one
delimiter. -/
theorem plusAssign_iff {b : Operand} (ha : a.Named) (hb : (b.path a).Named) :
    AssignsSum a b ↔ a.pathName.chars ≠ [] ∧ (b.path a).pathName.chars ≠ [] ∧
      (b = .itself →
        (a.pathName.chars.head? = some slash ↔ a.pathName.chars.getLast? ≠ some slash) ∨
          npos ≤ (seamed slash a.pathName.chars a.pathName.chars).length) := by
  constructor
  · intro h
    have hna : a.pathName.chars ≠ [] := by
      intro hna
      obtain ⟨c, hc⟩ := h.last
      rw [get_empty hna] at hc
      cases hc
    refine ⟨hna, ?_, ?_⟩
    · intro hnb
      cases b with
      | itself => exact hna hnb
      | other b =>
        have hsum := h.sum b (plus_right hb hnb)
        rw [plusAssign_other hna] at hsum
        obtain ⟨joined, hfit, hjoined⟩ := bind_ok hsum
        have hempty : joined.chars = [] := (congrArg (fun p : Path => p.pathName.chars)
          (Except.ok.inj hjoined)).trans hnb
        exact seamed_ne_nil _ _ ((TString.fit_eq hfit).symm.trans hempty)
    · rintro rfl
      exact (itself_sum_iff ha hna).mp h.sum
  · rintro ⟨hna, hnb, hself⟩
    obtain ⟨front, last, hname⟩ := (List.eq_nil_or_concat' a.pathName.chars).resolve_left hna
    obtain ⟨hend, hlast⟩ := get_last hname
    obtain ⟨first, hfirst, _⟩ := get_first (b.path a).pathName
    refine ⟨?_, ⟨last, hend ▸ hlast⟩, ⟨first, hfirst⟩⟩
    cases b with
    | other b =>
      intro ab hsum
      rw [plusAssign_other hna]
      exact (plus_nonempty ha hb hna hnb).symm.trans hsum
    | itself => exact (itself_sum_iff ha hna).mpr (hself rfl)

end

theorem small_text {chars : List Byte} (h : chars.length ≤ 4) : chars.length < npos :=
  Nat.lt_of_le_of_lt h (by decide)

/-- "a", "b/" and "/c", where a delimiter is put in and one left out. -/
theorem plus_monoid_three : ∃ a b c ab : Path, a.pathName.chars = [97] ∧
    b.pathName.chars = [98, 47] ∧ c.pathName.chars = [47, 99] ∧ a.plus b = .ok ab ∧
    ab.plus c = (b.plus c >>= fun bc => a.plus bc) := by
  have hlaws := plus_monoid_iff (a := ⟨⟨[97], small_text (by decide)⟩⟩)
    (b := ⟨⟨[98, 47], small_text (by decide)⟩⟩) (c := ⟨⟨[47, 99], small_text (by decide)⟩⟩)
    (by unfold Named; decide) (by unfold Named; decide) (by unfold Named; decide)
  obtain ⟨ab, hsum, hiff⟩ := hlaws.1.resolve_right (by decide)
  exact ⟨_, _, _, ab, rfl, rfl, rfl, hsum, hiff.mpr (Or.inr (Or.inl (by decide)))⟩

/-- "a" and the empty path make the empty path. -/
theorem empty_right_loses_left : ∃ a : Path, a.Named ∧ a.pathName.chars = [97] ∧
    a.plus Path.empty = .ok Path.empty ∧ a.plus Path.empty ≠ .ok a := by
  refine ⟨⟨⟨[97], small_text (by decide)⟩⟩, by unfold Named; decide, rfl,
    plus_right empty_named rfl, ?_⟩
  rw [Ne, plus_empty_iff]
  decide

/-- "a/" and "/b/" have the two components between them. -/
theorem components_plus_delimiters : ∃ a b ab : Path, a.pathName.chars = [97, 47] ∧
    b.pathName.chars = [47, 98, 47] ∧ a.plus b = .ok ab ∧
    components ab.pathName.chars = [[97], [98]] ∧ ab.rootName = a.rootName := by
  have hsum := components_plus (a := ⟨⟨[97, 47], small_text (by decide)⟩⟩)
    (b := ⟨⟨[47, 98, 47], small_text (by decide)⟩⟩) (by unfold Named; decide)
    (by unfold Named; decide) (by decide) (by decide)
  obtain ⟨ab, hsum, hnames, hroot⟩ := hsum.resolve_right (by decide)
  exact ⟨_, _, ab, rfl, rfl, hsum, hnames.trans (by decide), hroot⟩

/-- "a" and "b" are joined alike. -/
theorem plusAssign_two : ∃ a b : Path, a.pathName.chars = [97] ∧ b.pathName.chars = [98] ∧
    AssignsSum a (.other b) := by
  refine ⟨⟨⟨[97], small_text (by decide)⟩⟩, ⟨⟨[98], small_text (by decide)⟩⟩, rfl, rfl, ?_⟩
  exact (plusAssign_iff (b := .other ⟨⟨[98], small_text (by decide)⟩⟩) (by unfold Named; decide)
    (by unfold Named; decide)).mpr ⟨by decide, by decide, fun he => Operand.noConfusion he⟩

/-- In front of "b" the empty path has no last character to look at, and "ab"
behind itself is "ab/ab/". -/
theorem plusAssign_faults : ∃ b ab : Path, b.Named ∧ b.pathName.chars = [98] ∧ ab.Named ∧
    ab.pathName.chars = [97, 98] ∧
    Path.empty.plusAssign (.other b) = .error .outOfBounds ∧ Path.empty.plus b = .ok b ∧
    ¬ AssignsSum Path.empty (.other b) ∧
    (ab.plusAssign .itself).map (·.pathName.chars) = .ok [97, 98, 47, 97, 98, 47] ∧
    (ab.plus ab).map (·.pathName.chars) = .ok [97, 98, 47, 97, 98] ∧
    ¬ AssignsSum ab .itself := by
  have hnamed : Path.Named ⟨⟨[98], small_text (by decide)⟩⟩ := by unfold Named; decide
  have hname : Path.Named ⟨⟨[97, 98], small_text (by decide)⟩⟩ := by unfold Named; decide
  have hfault : Path.empty.plusAssign (.other ⟨⟨[98], small_text (by decide)⟩⟩) =
      .error .outOfBounds := by
    rw [plusAssign, joint, get_empty rfl]
    rfl
  refine ⟨_, _, hnamed, rfl, hname, rfl, hfault, plus_left hnamed rfl, ?_, rfl, rfl, ?_⟩
  · intro h
    have hsum := h.sum _ (plus_left hnamed rfl)
    rw [hfault] at hsum
    cases hsum
  · intro h
    have hself := (itself_sum_iff hname (by decide)).mp h.sum
    exact absurd hself (by decide)

end CkCore.Proofs.PathJoin
