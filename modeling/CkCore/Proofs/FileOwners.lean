import CkCore.Proofs.FileLock

namespace CkCore.Proofs.FileOwners
open Lib OpenFiles CkCore.Proofs.FileLock

variable {s s' : OpenFiles} {id p : Nat} {o : FileObject} {d : Opened}

/-- One use of a descriptor: the handle of an object, or the one its remove has. -/
def slot (o : FileObject) : Bool → Option Nat
  | false => o.fileHandle
  | true =>
    match o.place with
    | .removing fd | .removed fd => some fd
    | _ => none

/-- Every descriptor in use is one of its process, and has no other user. -/
def Owned (s : OpenFiles) : Prop :=
  ∀ id b o fd, s.objects id = some o → slot o b = some fd →
    (s.table o.process fd).isSome ∧ ∀ id' b' o', s.objects id' = some o' →
      o'.process = o.process → slot o' b' = some fd → id' = id ∧ b' = b

/-- Only a File that is not open is copied, and no close of a handle fails
behind its release: only that of the test in remove may. -/
def unshared (s : OpenFiles) : FileEvent → Prop
  | .copy id _ => ∀ o, s.objects id = some o → o.fileHandle = none
  | .closes id .released => ∀ o, s.objects id = some o → ∃ fd, o.place = .removed fd
  | _ => True

/-- An object that uses no more than before leaves the rest owned. -/
theorem owned_setObject (h : Owned s) (ho : s.objects id = some o) {o' : FileObject}
    (hp : o'.process = o.process)
    (hslot : ∀ b fd, slot o' b = some fd → slot o b = some fd) :
    Owned (s.setObject id o') := by
  have back : ∀ {id' : Nat} {b : Bool} {x : FileObject} {fd : Nat},
      (s.setObject id o').objects id' = some x → slot x b = some fd →
      ∃ y, s.objects id' = some y ∧ y.process = x.process ∧ slot y b = some fd := by
    intro id' b x fd hx hfd
    by_cases hid : id' = id
    · subst hid
      simp only [setObject, if_true, Option.some.injEq] at hx
      subst hx
      exact ⟨o, ho, hp.symm, hslot b fd hfd⟩
    · simp only [setObject, hid, if_false] at hx
      exact ⟨x, hx, rfl, hfd⟩
  intro id' b x fd hx hfd
  obtain ⟨y, hy, hyp, hyfd⟩ := back hx hfd
  obtain ⟨hopen, honly⟩ := h id' b y fd hy hyfd
  refine ⟨hyp ▸ hopen, ?_⟩
  intro id'' b' x' hx' hp' hfd'
  obtain ⟨y', hy', hyp', hyfd'⟩ := back hx' hfd'
  exact honly id'' b' y' hy' (by rw [hyp', hp', hyp]) hyfd'

/-- An object that uses a fresh descriptor besides what it had leaves all owned. -/
theorem owned_opened (h : Owned s) (ho : s.objects id = some o) {fd : Nat}
    (hfree : s.table o.process fd = none) {d : Opened} {b : Bool} {o' : FileObject}
    (hp : o'.process = o.process)
    (hslot : ∀ b' n, slot o' b' = some n →
      b' = b ∧ n = fd ∨ slot o b' = some n) :
    Owned ((s.setOpened o.process fd (some d)).setObject id o') := by
  have fresh : ∀ {id' : Nat} {b' : Bool} {x : FileObject}, s.objects id' = some x →
      x.process = o.process → slot x b' ≠ some fd := by
    intro id' b' x hx hxp hfd
    have hopen := (h id' b' x fd hx hfd).1
    rw [hxp, hfree] at hopen
    cases hopen
  -- Each use is the new one, or was there before.
  have back : ∀ {id' : Nat} {b' : Bool} {x : FileObject} {n : Nat},
      ((s.setOpened o.process fd (some d)).setObject id o').objects id' = some x →
      slot x b' = some n → (id' = id ∧ b' = b ∧ n = fd ∧ x.process = o.process) ∨
      ∃ y, s.objects id' = some y ∧ y.process = x.process ∧ slot y b' = some n := by
    intro id' b' x n hx hn
    by_cases hid : id' = id
    · subst hid
      simp only [setObject, if_true, Option.some.injEq] at hx
      subst hx
      rcases hslot b' n hn with ⟨rfl, rfl⟩ | hold
      · exact Or.inl ⟨rfl, rfl, rfl, hp⟩
      · exact Or.inr ⟨o, ho, hp.symm, hold⟩
    · simp only [setObject, setOpened, hid, if_false] at hx
      exact Or.inr ⟨x, hx, rfl, hn⟩
  intro id' b' x n hx hn
  rcases back hx hn with ⟨rfl, rfl, rfl, hxp⟩ | ⟨y, hy, hyp, hyn⟩
  · refine ⟨by simp [setObject, setOpened, hxp], ?_⟩
    intro id'' b'' x' hx' hp' hn'
    rcases back hx' hn' with ⟨rfl, rfl, _⟩ | ⟨y, hy, hyp, hyn⟩
    · exact ⟨rfl, rfl⟩
    · exact absurd hyn (fresh hy (by rw [hyp, hp', hxp]))
  · obtain ⟨hopen, honly⟩ := h id' b' y n hy hyn
    constructor
    · simp only [setObject, setOpened]
      split
      · rfl
      · exact hyp ▸ hopen
    · intro id'' b'' x' hx' hp' hn'
      rcases back hx' hn' with ⟨rfl, rfl, rfl, hxp⟩ | ⟨y', hy', hyp', hyn'⟩
      · exact absurd hyn (fresh hy (by rw [hyp, ← hp', hxp]))
      · exact honly id'' b'' y' hy' (by rw [hyp', hp', hyp]) hyn'

/-- Closing the descriptor of one use, which is gone from its object, leaves the
other uses owned. -/
theorem owned_closed (h : Owned s) (ho : s.objects id = some o) {b : Bool} {fd : Nat}
    (hb : slot o b = some fd) {c : FileObject} (hp : c.process = o.process)
    (hslot : ∀ b' n, slot c b' = some n → b' ≠ b ∧ slot o b' = some n)
    (inode : Nat) : Owned ((s.setObject id c).closeFd o.process fd inode) := by
  have hset := owned_setObject h ho hp fun b' n hn => (hslot b' n hn).2
  obtain ⟨_, honly⟩ := h id b o fd ho hb
  intro id' b' x n hx hn
  obtain ⟨hopen, hrest⟩ := hset id' b' x n hx hn
  refine ⟨?_, hrest⟩
  have hne : ¬ (x.process = o.process ∧ n = fd) := by
    rintro ⟨hxp, rfl⟩
    have hx' : (s.setObject id c).objects id' = some x := hx
    by_cases hid : id' = id
    · subst hid
      simp only [setObject, if_true, Option.some.injEq] at hx'
      subst hx'
      obtain ⟨hbne, hold⟩ := hslot b' n hn
      exact hbne (honly id' b' o ho rfl hold).2
    · simp only [setObject, hid, if_false] at hx'
      exact hid (honly id' b' x hx' hxp hn).1
  simp only [closeFd, setOpened, hne, if_false]
  exact hopen

/-- An object that keeps the descriptor of a use it has given up does not own it. -/
theorem released_unowned {b : Bool} {fd : Nat} (hb : slot o b = some fd) (inode : Nat) :
    ¬ Owned ((s.setObject id o).closeFd o.process fd inode) := by
  intro h
  have hopen := (h id b o fd (by simp [closeFd, setOpened, setObject]) hb).1
  simp [closeFd, setOpened] at hopen

theorem lockCall_same {exclusive : Bool} {answer : LockAnswer}
    (hs : s.lockCall p d exclusive answer = some s') :
    s'.objects = s.objects ∧ s'.table = s.table := by
  cases answer with
  | granted =>
    simp only [lockCall, Option.ite_none_left_eq_some, Option.some.injEq] at hs
    obtain ⟨_, rfl⟩ := hs
    exact ⟨rfl, rfl⟩
  | refused =>
    simp only [lockCall, Option.ite_none_right_eq_some, Option.some.injEq] at hs
    obtain ⟨_, rfl⟩ := hs
    exact ⟨rfl, rfl⟩
  | failed =>
    cases hs
    exact ⟨rfl, rfl⟩

theorem owned_lockCall (h : Owned s) {exclusive : Bool} {answer : LockAnswer}
    (hs : s.lockCall p d exclusive answer = some s') : Owned s' := by
  obtain ⟨hobjects, htable⟩ := lockCall_same hs
  unfold Owned
  rw [hobjects, htable]
  exact h

/-- An object without a handle is no user of any descriptor. -/
theorem owned_new (h : Owned s) (hfree : s.objects id = none) (hi : o.place = .idle)
    (ho : o.fileHandle = none) : Owned (s.setObject id o) := by
  have back : ∀ {id' : Nat} {b : Bool} {x : FileObject} {fd : Nat},
      (s.setObject id o).objects id' = some x → slot x b = some fd → s.objects id' = some x := by
    intro id' b x fd hx hfd
    by_cases hid : id' = id
    · subst hid
      simp only [setObject, if_true, Option.some.injEq] at hx
      subst hx
      cases b with
      | false =>
        have hnone := ho.symm.trans hfd
        cases hnone
      | true =>
        simp only [slot, hi] at hfd
        cases hfd
    · simpa [setObject, hid] using hx
  intro id' b x fd hx hfd
  obtain ⟨hopen, honly⟩ := h id' b x fd (back hx hfd) hfd
  refine ⟨hopen, ?_⟩
  intro id'' b' x' hx' hp hfd'
  exact honly id'' b' x' (back hx' hfd') hp hfd'

/-- A copy of an object leaves all owned just when the object has no handle. -/
theorem owned_copy (h : Owned s) {copied : Nat} (hfree : s.objects copied = none)
    (ho : s.objects id = some o) (hi : o.place = .idle) :
    Owned (s.setObject copied o) ↔ o.fileHandle = none := by
  constructor
  · intro hs
    cases hh : o.fileHandle with
    | none => rfl
    | some fd =>
      have hne : id ≠ copied := by
        rintro rfl
        rw [hfree] at ho
        cases ho
      have hself : (s.setObject copied o).objects copied = some o := by simp [setObject]
      have hold : (s.setObject copied o).objects id = some o := by simp [setObject, hne, ho]
      exact absurd ((hs copied false o fd hself hh).2 id false o hold rfl hh).1 hne
  · exact owned_new h hfree hi

/-- open2 has a descriptor that was free. -/
theorem owned_opens (h : Owned s) (ho : s.objects id = some o) {fd : Nat}
    (hfree : s.table o.process fd = none) (d : Opened) :
    Owned ((s.setOpened o.process fd (some d)).setObject id
      { o with fileHandle := some fd, place := .opening }) := by
  refine owned_opened (b := false) h ho hfree rfl ?_
  intro b n hn
  cases b with
  | false =>
    simp only [slot, Option.some.injEq] at hn
    exact Or.inl ⟨rfl, hn.symm⟩
  | true => cases hn

theorem owned_removes (h : Owned s) (ho : s.objects id = some o) {fd : Nat}
    (hfree : s.table o.process fd = none) (d : Opened) :
    Owned ((s.setOpened o.process fd (some d)).setObject id
      { o with place := .removing fd }) := by
  refine owned_opened (b := true) h ho hfree rfl ?_
  intro b n hn
  cases b with
  | false => exact Or.inr hn
  | true =>
    simp only [slot, Option.some.injEq] at hn
    exact Or.inl ⟨rfl, hn.symm⟩

/-- Behind its lock call open2 has no descriptor but the handle. -/
theorem owned_settles (h : Owned s) (ho : s.objects id = some o) {place : FilePlace}
    (hplace : place = .idle ∨ place = .refused) :
    Owned (s.setObject id { o with place := place }) := by
  refine owned_setObject h ho rfl ?_
  intro b n hn
  cases b with
  | false => exact hn
  | true => rcases hplace with rfl | rfl <;> cases hn

/-- The test in remove goes on with its descriptor. -/
theorem owned_tests (h : Owned s) (ho : s.objects id = some o) {fd : Nat}
    (hp : o.place = .removing fd) :
    Owned (s.setObject id { o with place := .removed fd }) := by
  refine owned_setObject h ho rfl ?_
  intro b n hn
  cases b with
  | false => exact hn
  | true => simpa [slot, hp] using hn

/-- A close of the handle, behind which the File is at no test. -/
theorem closes_iff (h : Owned s) (ho : s.objects id = some o) {fd : Nat}
    (hh : o.fileHandle = some fd) {answer : CloseAnswer}
    (hs : s.closeCall id o.process fd answer { o with fileHandle := none, place := .idle }
      { o with place := .idle } = some s') : Owned s' ↔ answer ≠ .released := by
  have hidle : ∀ {handle : Option Nat} {b : Bool} {n : Nat},
      slot { o with fileHandle := handle, place := .idle } b = some n →
        b = false ∧ handle = some n := by
    intro handle b n hn
    cases b with
    | false => exact ⟨rfl, hn⟩
    | true => cases hn
  rcases closeCall_cases hs with ⟨d, _, ⟨rfl, rfl⟩ | ⟨rfl, rfl⟩⟩ | ⟨rfl, rfl⟩
  · refine iff_of_true (owned_closed h ho (b := false) hh
      (c := { o with fileHandle := none, place := .idle }) rfl ?_ d.inode) (by decide)
    intro b n hn
    cases (hidle hn).2
  · have hslot : slot { o with place := .idle } false = some fd := hh
    exact iff_of_false (released_unowned hslot d.inode) (by decide)
  · refine iff_of_true (owned_setObject h ho rfl ?_) (by decide)
    intro b n hn
    obtain ⟨rfl, hn⟩ := hidle hn
    exact hn

/-- The test in remove is through with its descriptor, whatever close returns. -/
theorem owned_ends (h : Owned s) (ho : s.objects id = some o) {fd : Nat}
    (hp : o.place = .removed fd) {answer : CloseAnswer}
    (hs : s.closeCall id o.process fd answer { o with place := .idle } { o with place := .idle } =
      some s') : Owned s' := by
  have hslot : slot o true = some fd := by simp [slot, hp]
  have hless : ∀ b n, slot { o with place := .idle } b = some n → b ≠ true ∧ slot o b = some n := by
    intro b n hn
    cases b with
    | false => exact ⟨Bool.false_ne_true, hn⟩
    | true => cases hn
  rcases closeCall_cases hs with ⟨d, _, ⟨_, rfl⟩ | ⟨_, rfl⟩⟩ | ⟨_, rfl⟩
  · exact owned_closed h ho hslot (c := { o with place := .idle }) rfl hless d.inode
  · exact owned_closed h ho hslot (c := { o with place := .idle }) rfl hless d.inode
  · exact owned_setObject h ho rfl fun b n hn => (hless b n hn).2

theorem owned_forget (h : Owned s) (id : Nat) :
    Owned { s with objects := fun i => if i = id then none else s.objects i } := by
  have back : ∀ {id' : Nat} {x : FileObject},
      (if id' = id then none else s.objects id') = some x → s.objects id' = some x := by
    intro id' x hx
    split at hx
    · cases hx
    · exact hx
  intro id' b x fd hx hfd
  obtain ⟨hopen, honly⟩ := h id' b x fd (back hx) hfd
  exact ⟨hopen, fun id'' b' x' hx' => honly id'' b' x' (back hx')⟩

/-- What has to be asked of a close, by where the object is. -/
theorem unshared_closes (ho : s.objects id = some o) (answer : CloseAnswer) :
    unshared s (.closes id answer) ↔ answer ≠ .released ∨ ∃ fd, o.place = .removed fd := by
  cases answer with
  | closed | failed => exact iff_of_true trivial (Or.inl (by decide))
  | released =>
    constructor
    · intro hall
      exact Or.inr (hall o ho)
    · intro hor o' ho'
      rw [ho] at ho'
      cases ho'
      exact hor.resolve_left fun hne => hne rfl

/-- What a step does to the owners of the descriptors. -/
theorem owned_step (h : Owned s) {e : FileEvent} (hs : s.step e = some s') :
    Owned s' ↔ unshared s e := by
  cases step_moved hs with
  | construct free => exact iff_of_true (owned_new h free rfl rfl) trivial
  | copy free object idle =>
    rw [owned_copy h free object idle]
    constructor
    · intro hnone o' ho'
      rw [object] at ho'
      cases ho'
      exact hnone
    · intro hall
      exact hall _ object
  | opens object idle closed free => exact iff_of_true (owned_opens h object free _) trivial
  | @locks id fd o d answer t object opening handle opened call =>
    have hsame : t.objects id = some o := by rw [(lockCall_same call).1, object]
    refine iff_of_true (owned_settles (owned_lockCall h call) hsame ?_) trivial
    split
    · exact Or.inr rfl
    · exact Or.inl rfl
  | lost object opening handle gone =>
    exact iff_of_true (owned_settles h object (Or.inl rfl)) trivial
  | @tests id fd o d answer t object removing opened call =>
    have hsame : t.objects id = some o := by rw [(lockCall_same call).1, object]
    exact iff_of_true (owned_tests (owned_lockCall h call) hsame removing) trivial
  | missed object removing => exact iff_of_true (owned_tests h object removing) trivial
  | @closes id fd o answer t object idle handle call =>
    obtain ⟨process, fileHandle, place⟩ := o
    cases idle
    rw [unshared_closes object, closes_iff h object handle call]
    exact (or_iff_left fun ⟨_, hplace⟩ => nomatch hplace).symm
  | @backs id fd o answer t object refused handle call =>
    rw [unshared_closes object, closes_iff h object handle call]
    refine (or_iff_left ?_).symm
    rintro ⟨_, hplace⟩
    rw [refused] at hplace
    cases hplace
  | ends object removed call =>
    exact iff_of_true (owned_ends h object removed call)
      ((unshared_closes object _).mpr (Or.inr ⟨_, removed⟩))
  | removes object idle free => exact iff_of_true (owned_removes h object free _) trivial
  | forget object idle => exact iff_of_true (owned_forget h _) trivial

/-- Along every run each File, and each test in remove, has a descriptor of its
own that nobody else closes if and only if no File is copied while it is open and
no close of a handle fails behind its release. -/
theorem descriptors_owned_iff {past : List (OpenFiles × FileEvent)} (h : system.Run past s) :
    ((∀ x ∈ past, Owned x.1) ∧ Owned s) ↔ ∀ x ∈ past, unshared x.1 x.2 := by
  refine h.all_iff ?_ fun s e s' hown hs => owned_step hown hs
  rintro s rfl id b o fd ho
  cases ho

/-- An open File is copied: the two share a descriptor. -/
theorem descriptors_owned_copy : ∃ past s, system.Run past s ∧
    ¬ ((∀ x ∈ past, Owned x.1) ∧ Owned s) := by
  obtain ⟨past, s, hf⟩ : ∃ past s, follow step [] start [.construct 0 0, .opens 0 3 7 .read,
      .locks 0 .granted, .copy 0 1] = some (past, s) := ⟨_, _, rfl⟩
  have hstart : system.Run [] start := .start rfl
  have hrun := hstart.follow hf
  refine ⟨past, s, hrun, ?_⟩
  rw [descriptors_owned_iff hrun]
  intro hall
  cases hf
  have hlast := hall _ (.tail _ (.tail _ (.tail _ (.head _)))) ⟨0, some 3, .idle⟩ rfl
  cases hlast

end CkCore.Proofs.FileOwners
