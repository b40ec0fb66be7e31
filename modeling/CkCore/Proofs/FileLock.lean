import CkCore.Model.FileLock

namespace CkCore.Proofs.FileLock
open Lib OpenFiles

/-- The File is open for its client, with this descriptor of its process. -/
def Has (s : OpenFiles) (id p fd : Nat) : Prop :=
  ∃ o, s.objects id = some o ∧ o.settled = true ∧ o.process = p ∧ o.fileHandle = some fd

/-- The process holds a lock on the file that the mode asks for. -/
def Held (s : OpenFiles) (p : Nat) (d : Opened) : Prop :=
  ∃ l ∈ s.locks, l.process = p ∧ l.inode = d.inode ∧ (d.mode ≠ .read → l.exclusive = true)

/-- Every open File has a descriptor and the lock that goes with its mode. -/
def Covered (s : OpenFiles) : Prop :=
  ∀ id p fd, Has s id p fd → ∃ d, s.table p fd = some d ∧ Held s p d

/-- Another File of the process is open on the file. -/
def Other (s : OpenFiles) (id p inode : Nat) : Prop :=
  ∃ id' fd d, id' ≠ id ∧ Has s id' p fd ∧ s.table p fd = some d ∧ d.inode = inode

/-- Locks of different processes on one file are shared ones. -/
def Compatible (s : OpenFiles) : Prop :=
  ∀ l ∈ s.locks, ∀ l' ∈ s.locks, l.process ≠ l'.process → l.inode = l'.inode →
    l.exclusive = false ∧ l'.exclusive = false

/-- Files of different processes are open on one file only to read it. -/
def Exclusive (s : OpenFiles) : Prop :=
  ∀ id p fd d id' p' fd' d', Has s id p fd → s.table p fd = some d →
    Has s id' p' fd' → s.table p' fd' = some d' → p ≠ p' → d.inode = d'.inode →
      d.mode = .read ∧ d'.mode = .read

/-- A lock is not ignored when it fails, and does not weaken the one another
File of the process needs. -/
def lockClean (s : OpenFiles) (id : Nat) (o : FileObject) (answer : LockAnswer) : Prop :=
  match o.place, o.fileHandle, answer with
  | .opening, some fd, .granted => ∀ d, s.table o.process fd = some d → d.mode = .read →
      ∀ id' fd' d', id' ≠ id → Has s id' o.process fd' → s.table o.process fd' = some d' →
        d'.inode = d.inode → d'.mode = .read
  | .opening, some fd, .failed => ∃ d, s.table o.process fd = some d ∧ Held s o.process d
  | _, _, _ => True

/-- A close does not give up the lock of another File of the process, one that
fails keeps the descriptor, and one after a refused lock does not fail. -/
def closeClean (s : OpenFiles) (id : Nat) (o : FileObject) (answer : CloseAnswer) : Prop :=
  match o.place, o.fileHandle, answer with
  | .idle, some fd, .closed => ∀ d, s.table o.process fd = some d → ¬ Other s id o.process d.inode
  | .refused, some fd, .closed =>
    ∀ d, s.table o.process fd = some d → ¬ Other s id o.process d.inode
  | .idle, some _, .released | .refused, some _, .released => False
  | .refused, some fd, .failed => ∃ d, s.table o.process fd = some d ∧ Held s o.process d
  | .removed fd, handle, .closed | .removed fd, handle, .released =>
    ∀ d, s.table o.process fd = some d → ¬ Other s id o.process d.inode ∧
      ∀ fd' d', handle = some fd' → s.table o.process fd' = some d' → d'.inode ≠ d.inode
  | _, _, _ => True

def clean (s : OpenFiles) : FileEvent → Prop
  | .locks id answer => ∀ o, s.objects id = some o → lockClean s id o answer
  | .closes id answer => ∀ o, s.objects id = some o → closeClean s id o answer
  | _ => True

variable {s s' : OpenFiles} {id p fd inode : Nat} {o : FileObject} {d : Opened}

theorem has_same : Has (s.setObject id o) id p fd ↔
    o.settled = true ∧ o.process = p ∧ o.fileHandle = some fd := by
  simp [Has, setObject]

theorem has_other {id' : Nat} (h : id' ≠ id) :
    Has (s.setObject id o) id' p fd ↔ Has s id' p fd := by
  simp [Has, setObject, h]

theorem has_mem (ho : s.objects id = some o) :
    Has s id p fd ↔ o.settled = true ∧ o.process = p ∧ o.fileHandle = some fd := by
  simp [Has, ho]

/-- An object that is not settled, or has no handle, has nothing to be covered. -/
theorem covered_setObject (h : Covered s)
    (ho : ∀ fd, o.settled = true → o.fileHandle = some fd →
      ∃ d, s.table o.process fd = some d ∧ Held s o.process d) : Covered (s.setObject id o) := by
  intro id' p fd hhas
  by_cases hid : id' = id
  · subst hid
    obtain ⟨hsettled, rfl, hhandle⟩ := has_same.mp hhas
    exact ho fd hsettled hhandle
  · exact h id' p fd ((has_other hid).mp hhas)

/-- Opening a descriptor that is free leaves the others as they are. -/
theorem covered_setOpened (h : Covered s) (hfree : s.table p fd = none) :
    Covered (s.setOpened p fd (some d)) := by
  intro id q n hhas
  obtain ⟨e, htable, hheld⟩ := h id q n hhas
  have hne : ¬ (q = p ∧ n = fd) := by
    rintro ⟨rfl, rfl⟩
    rw [hfree] at htable
    cases htable
  exact ⟨e, by simp [setOpened, hne, htable], hheld⟩

/-- A File that is open already goes on as it is. -/
theorem covered_again (h : Covered s) (ho : s.objects id = some o) (hs : o.settled = true)
    {o' : FileObject} (hp : o'.process = o.process) (hh : o'.fileHandle = o.fileHandle) :
    Covered (s.setObject id o') := by
  apply covered_setObject h
  intro fd _ hhandle
  rw [hp]
  exact h id o.process fd ((has_mem ho).mpr ⟨hs, rfl, hh ▸ hhandle⟩)

/-- What closing a descriptor leaves covered: everything just when no File of
the process is open on the file. -/
theorem covered_closeFd (h : Covered s) (hd : s.table p fd = some d) :
    Covered (s.closeFd p fd d.inode) ↔
      ∀ id n e, Has s id p n → s.table p n = some e → e.inode ≠ d.inode := by
  constructor
  · intro hc id n e hhas he hsame
    obtain ⟨e', htable, l, hl, hp, hi, _⟩ := hc id p n hhas
    have hn : n ≠ fd := by
      rintro rfl
      simp [closeFd, setOpened] at htable
    simp only [closeFd, setOpened, true_and, hn, if_false, he, Option.some.injEq] at htable
    subst htable
    simp only [closeFd, withoutLocks, List.mem_filter, decide_eq_true_eq] at hl
    exact hl.2 ⟨hp, hi.trans hsame⟩
  · intro hnone id q n hhas
    obtain ⟨e, htable, l, hl, hp, hi, hmode⟩ := h id q n hhas
    have hother : ¬ (q = p ∧ e.inode = d.inode) := by
      rintro ⟨rfl, hsame⟩
      exact hnone id n e hhas htable hsame
    have hn : ¬ (q = p ∧ n = fd) := by
      rintro ⟨rfl, rfl⟩
      rw [hd] at htable
      cases htable
      exact hother ⟨rfl, rfl⟩
    refine ⟨e, by simp [closeFd, setOpened, hn, htable], l, ?_, hp, hi, hmode⟩
    simp only [closeFd, withoutLocks, List.mem_filter, decide_eq_true_eq]
    exact ⟨hl, fun hsame => hother ⟨hp ▸ hsame.1, hi ▸ hsame.2⟩⟩

/-- What a new lock leaves covered: everything just when it is the lock that
each File of the process on the file needs. -/
theorem covered_setLock (p inode : Nat) (exclusive : Bool)
    (h : ∀ id q n, Has s id q n → ∃ e, s.table q n = some e ∧
      (Held s q e ∨ q = p ∧ e.inode = inode)) :
    Covered (s.setLock p inode exclusive) ↔
      ∀ id n e, Has s id p n → s.table p n = some e → e.inode = inode → e.mode ≠ .read →
        exclusive = true := by
  constructor
  · intro hc id n e hhas he hi hmode
    obtain ⟨e', htable, l, hl, hp, hinode, hx⟩ := hc id p n hhas
    rw [show (s.setLock p inode exclusive).table = s.table from rfl, he] at htable
    cases htable
    simp only [setLock, withoutLocks, List.mem_cons, List.mem_filter, decide_eq_true_eq] at hl
    rcases hl with rfl | ⟨_, hne⟩
    · exact hx hmode
    · exact absurd ⟨hp, hinode.trans hi⟩ hne
  · intro hneed id q n hhas
    obtain ⟨e, htable, hheld⟩ := h id q n hhas
    refine ⟨e, htable, ?_⟩
    by_cases hsame : q = p ∧ e.inode = inode
    · obtain ⟨rfl, hi⟩ := hsame
      exact ⟨⟨q, inode, exclusive⟩, List.mem_cons_self, rfl, hi.symm,
        fun hmode => hneed id n e hhas htable hi hmode⟩
    · obtain ⟨l, hl, hp, hi, hmode⟩ := hheld.resolve_right hsame
      refine ⟨l, List.mem_cons_of_mem _ ?_, hp, hi, hmode⟩
      simp only [withoutLocks, List.mem_filter, decide_eq_true_eq]
      exact ⟨hl, fun h => hsame ⟨hp ▸ h.1, hi ▸ h.2⟩⟩

theorem compatible_withoutLocks (h : Compatible s) {l l' : FileLock}
    (hl : l ∈ s.withoutLocks p inode) (hl' : l' ∈ s.locks) (hp : l.process ≠ l'.process)
    (hi : l.inode = l'.inode) : l.exclusive = false ∧ l'.exclusive = false :=
  h l (List.mem_filter.mp hl).1 l' hl' hp hi

theorem compatible_setLock (h : Compatible s) {exclusive : Bool}
    (hc : s.conflict p inode exclusive = false) : Compatible (s.setLock p inode exclusive) := by
  have hfree : ∀ l ∈ s.locks, l.process ≠ p → l.inode = inode →
      l.exclusive = false ∧ exclusive = false := by
    intro l hl hp hi
    have hl' := List.any_eq_false.mp hc l hl
    simpa [hp, hi] using hl'
  intro l hl l' hl' hp hi
  simp only [setLock, List.mem_cons] at hl hl'
  rcases hl with rfl | hl
  · rcases hl' with rfl | hl'
    · exact absurd rfl hp
    · obtain ⟨h', h''⟩ := hfree l' (List.mem_filter.mp hl').1 (Ne.symm hp) hi.symm
      exact ⟨h'', h'⟩
  · rcases hl' with rfl | hl'
    · exact hfree l (List.mem_filter.mp hl).1 hp hi
    · exact compatible_withoutLocks h hl (List.mem_filter.mp hl').1 hp hi

theorem compatible_lockCall (h : Compatible s) {exclusive : Bool} {answer : LockAnswer}
    (hs : s.lockCall p d exclusive answer = some s') : Compatible s' := by
  cases answer with
  | granted =>
    simp only [lockCall, Option.ite_none_left_eq_some, Option.some.injEq, Bool.not_eq_true] at hs
    obtain ⟨hc, rfl⟩ := hs
    exact compatible_setLock h hc
  | refused =>
    simp only [lockCall, Option.ite_none_right_eq_some, Option.some.injEq] at hs
    obtain ⟨_, rfl⟩ := hs
    exact h
  | failed =>
    cases hs
    exact h

/-- A close call gives up a descriptor of the table, or nothing. -/
theorem closeCall_cases {answer : CloseAnswer} {closed kept : FileObject}
    (hs : s.closeCall id p fd answer closed kept = some s') :
    (∃ d, s.table p fd = some d ∧ (answer = .closed ∧
        s' = (s.setObject id closed).closeFd p fd d.inode ∨
      answer = .released ∧ s' = (s.setObject id kept).closeFd p fd d.inode)) ∨
    answer = .failed ∧ s' = s.setObject id kept := by
  unfold closeCall at hs
  split at hs
  · next d hd =>
    cases hs
    exact Or.inl ⟨d, hd, Or.inl ⟨rfl, rfl⟩⟩
  · next d hd =>
    cases hs
    exact Or.inl ⟨d, hd, Or.inr ⟨rfl, rfl⟩⟩
  · cases hs
    exact Or.inr ⟨rfl, rfl⟩
  · cases hs
  · cases hs

theorem compatible_closeFd (h : Compatible s) : Compatible (s.closeFd p fd inode) := by
  intro l hl l' hl'
  exact compatible_withoutLocks h hl (List.mem_filter.mp hl').1

theorem compatible_closeCall (h : Compatible s) {answer : CloseAnswer} {closed kept : FileObject}
    (hs : s.closeCall id p fd answer closed kept = some s') : Compatible s' := by
  rcases closeCall_cases hs with ⟨d, _, ⟨_, rfl⟩ | ⟨_, rfl⟩⟩ | ⟨_, rfl⟩
  · exact compatible_closeFd (s := s.setObject id closed) h
  · exact compatible_closeFd (s := s.setObject id kept) h
  · exact h

/-- All that a step can do. -/
inductive Moved (s : OpenFiles) : FileEvent → OpenFiles → Prop where
  | construct {id p : Nat} (free : s.objects id = none) :
      Moved s (.construct id p) (s.setObject id ⟨p, none, .idle⟩)
  | copy {id copied : Nat} {o : FileObject} (free : s.objects copied = none)
      (object : s.objects id = some o) (idle : o.place = .idle) :
      Moved s (.copy id copied) (s.setObject copied o)
  | opens {id fd inode : Nat} {mode : FileMode} {o : FileObject} (object : s.objects id = some o)
      (idle : o.place = .idle) (closed : o.fileHandle = none)
      (free : s.table o.process fd = none) :
      Moved s (.opens id fd inode mode)
        ((s.setOpened o.process fd (some ⟨inode, mode⟩)).setObject id
          { o with fileHandle := some fd, place := .opening })
  | locks {id fd : Nat} {o : FileObject} {d : Opened} {answer : LockAnswer} {t : OpenFiles}
      (object : s.objects id = some o) (opening : o.place = .opening)
      (handle : o.fileHandle = some fd) (opened : s.table o.process fd = some d)
      (call : s.lockCall o.process d (exclusive d.mode) answer = some t) :
      Moved s (.locks id answer)
        (t.setObject id { o with place := if answer = .refused then .refused else .idle })
  | lost {id fd : Nat} {o : FileObject} (object : s.objects id = some o)
      (opening : o.place = .opening) (handle : o.fileHandle = some fd)
      (gone : s.table o.process fd = none) :
      Moved s (.locks id .failed) (s.setObject id { o with place := .idle })
  | tests {id fd : Nat} {o : FileObject} {d : Opened} {answer : LockAnswer} {t : OpenFiles}
      (object : s.objects id = some o) (removing : o.place = .removing fd)
      (opened : s.table o.process fd = some d)
      (call : s.lockCall o.process d true answer = some t) :
      Moved s (.locks id answer) (t.setObject id { o with place := .removed fd })
  | missed {id fd : Nat} {o : FileObject} (object : s.objects id = some o)
      (removing : o.place = .removing fd) :
      Moved s (.locks id .failed) (s.setObject id { o with place := .removed fd })
  | closes {id fd : Nat} {o : FileObject} {answer : CloseAnswer} {t : OpenFiles}
      (object : s.objects id = some o) (idle : o.place = .idle) (handle : o.fileHandle = some fd)
      (call : s.closeCall id o.process fd answer { o with fileHandle := none } o = some t) :
      Moved s (.closes id answer) t
  | backs {id fd : Nat} {o : FileObject} {answer : CloseAnswer} {t : OpenFiles}
      (object : s.objects id = some o) (refused : o.place = .refused)
      (handle : o.fileHandle = some fd)
      (call : s.closeCall id o.process fd answer { o with fileHandle := none, place := .idle }
        { o with place := .idle } = some t) :
      Moved s (.closes id answer) t
  | ends {id fd : Nat} {o : FileObject} {answer : CloseAnswer} {t : OpenFiles}
      (object : s.objects id = some o) (removed : o.place = .removed fd)
      (call : s.closeCall id o.process fd answer { o with place := .idle }
        { o with place := .idle } = some t) :
      Moved s (.closes id answer) t
  | removes {id fd inode : Nat} {o : FileObject} (object : s.objects id = some o)
      (idle : o.place = .idle) (free : s.table o.process fd = none) :
      Moved s (.removes id fd inode) ((s.setOpened o.process fd (some ⟨inode, .write⟩)).setObject id
        { o with place := .removing fd })
  | forget {id : Nat} {o : FileObject} (object : s.objects id = some o) (idle : o.place = .idle) :
      Moved s (.forget id) { s with objects := fun i => if i = id then none else s.objects i }

theorem lock_moved {answer : LockAnswer} (hs : s.lock id answer = some s') :
    Moved s (.locks id answer) s' := by
  unfold lock at hs
  split at hs
  · cases hs
  · rename_i o ho
    split at hs
    · rename_i fd hplace hhandle
      split at hs
      · rename_i d hd
        obtain ⟨t, ht, rfl⟩ := Option.map_eq_some_iff.mp hs
        exact .locks ho hplace hhandle hd ht
      · rename_i hd
        simp only [Option.ite_none_right_eq_some, Option.some.injEq] at hs
        obtain ⟨rfl, rfl⟩ := hs
        exact .lost ho hplace hhandle hd
    · rename_i fd hplace
      split at hs
      · rename_i d hd
        obtain ⟨t, ht, rfl⟩ := Option.map_eq_some_iff.mp hs
        exact .tests ho hplace hd ht
      · simp only [Option.ite_none_right_eq_some, Option.some.injEq] at hs
        obtain ⟨rfl, rfl⟩ := hs
        exact .missed ho hplace
    · cases hs

theorem close_moved {answer : CloseAnswer} (hs : s.close id answer = some s') :
    Moved s (.closes id answer) s' := by
  unfold close at hs
  split at hs
  · cases hs
  · rename_i o ho
    split at hs
    · rename_i fd hplace hhandle
      exact .closes ho hplace hhandle hs
    · rename_i fd hplace hhandle
      exact .backs ho hplace hhandle hs
    · rename_i fd hplace
      exact .ends ho hplace hs
    · cases hs

theorem step_moved {e : FileEvent} (hs : s.step e = some s') : Moved s e s' := by
  cases e with
  | construct id process =>
    simp only [step, construct, Option.ite_none_right_eq_some, Option.some.injEq] at hs
    obtain ⟨hfree, rfl⟩ := hs
    exact .construct hfree
  | copy id copied =>
    simp only [step, OpenFiles.copy] at hs
    split at hs
    · rename_i o hfree ho
      simp only [Option.ite_none_right_eq_some, Option.some.injEq] at hs
      obtain ⟨hidle, rfl⟩ := hs
      exact .copy hfree ho hidle
    · cases hs
  | opens id fd inode mode =>
    simp only [step, opens] at hs
    split at hs
    · rename_i o ho
      simp only [Option.ite_none_right_eq_some, Option.some.injEq] at hs
      obtain ⟨⟨hidle, hclosed, hfree⟩, rfl⟩ := hs
      exact .opens ho hidle hclosed hfree
    · cases hs
  | locks id answer => exact lock_moved hs
  | closes id answer => exact close_moved hs
  | removes id fd inode =>
    simp only [step, removes] at hs
    split at hs
    · rename_i o ho
      simp only [Option.ite_none_right_eq_some, Option.some.injEq] at hs
      obtain ⟨⟨hidle, hfree⟩, rfl⟩ := hs
      exact .removes ho hidle hfree
    · cases hs
  | forget id =>
    simp only [step, forget] at hs
    split at hs
    · rename_i o ho
      simp only [Option.ite_none_right_eq_some, Option.some.injEq] at hs
      obtain ⟨hidle, rfl⟩ := hs
      exact .forget ho hidle
    · cases hs

/-- No step makes locks incompatible. -/
theorem compatible_step (h : Compatible s) {e : FileEvent} (hs : s.step e = some s') :
    Compatible s' := by
  cases step_moved hs with
  | construct | copy | opens | lost | missed | removes | forget => exact h
  | locks _ _ _ _ call =>
    have ht := compatible_lockCall h call
    exact ht
  | tests _ _ _ call =>
    have ht := compatible_lockCall h call
    exact ht
  | closes _ _ _ call => exact compatible_closeCall h call
  | backs _ _ _ call => exact compatible_closeCall h call
  | ends _ _ call => exact compatible_closeCall h call

/-- Where every File has its lock, Files of different processes exclude each other. -/
theorem Covered.exclusive (h : Covered s) (hc : Compatible s) : Exclusive s := by
  intro id p fd d id' p' fd' d' hhas hd hhas' hd' hne hi
  obtain ⟨e, he, l, hl, rfl, hli, hmode⟩ := h id p fd hhas
  obtain ⟨e', he', l', hl', rfl, hli', hmode'⟩ := h id' p' fd' hhas'
  rw [hd] at he
  rw [hd'] at he'
  cases he
  cases he'
  obtain ⟨hx, hx'⟩ := hc l hl l' hl' hne (by rw [hli, hli', hi])
  constructor
  · apply Decidable.byContradiction
    intro hw
    rw [hmode hw] at hx
    cases hx
  · apply Decidable.byContradiction
    intro hw
    rw [hmode' hw] at hx'
    cases hx'

/-- The Files still open on a file after one object changed: the others, and the
object itself if it is. -/
theorem none_open_iff : (∀ id' n e, Has (s.setObject id o) id' p n → s.table p n = some e →
      e.inode ≠ inode) ↔
    ¬ Other s id p inode ∧ ∀ n e, o.settled = true → o.process = p → o.fileHandle = some n →
      s.table p n = some e → e.inode ≠ inode := by
  constructor
  · intro h
    refine ⟨?_, fun n e hs hp hn he => h id n e (has_same.mpr ⟨hs, hp, hn⟩) he⟩
    rintro ⟨id', n, e, hid, hhas, he, hi⟩
    exact h id' n e ((has_other hid).mpr hhas) he hi
  · rintro ⟨hother, hself⟩ id' n e hhas he hi
    by_cases hid : id' = id
    · subst hid
      obtain ⟨hs, hp, hn⟩ := has_same.mp hhas
      exact hself n e hs hp hn he hi
    · exact hother ⟨id', n, e, hid, (has_other hid).mp hhas, he, hi⟩

/-- A File that open2 leaves open without a lock of its own is covered just when
its process holds the lock anyway. -/
theorem settle_iff (h : Covered s) (hh : o.fileHandle = some fd) :
    Covered (s.setObject id { o with place := .idle }) ↔
      ∃ d, s.table o.process fd = some d ∧ Held s o.process d := by
  constructor
  · intro hc
    exact hc id o.process fd (has_same.mpr ⟨rfl, rfl, hh⟩)
  · intro hd
    apply covered_setObject h
    intro n _ hn
    rw [hh] at hn
    cases hn
    exact hd

theorem closed_covered (h : Covered s) (ho : o.fileHandle = none) : Covered (s.setObject id o) := by
  apply covered_setObject h
  intro n _ hn
  rw [ho] at hn
  cases hn

/-- A close of a File that leaves it without a handle. -/
theorem close_iff (h : Covered s) (hd : s.table p fd = some d) (ho : o.fileHandle = none) :
    Covered ((s.setObject id o).closeFd p fd d.inode) ↔ ¬ Other s id p d.inode := by
  rw [covered_closeFd (closed_covered h ho) hd]
  rw [show (s.setObject id o).table = s.table from rfl, none_open_iff]
  refine and_iff_left ?_
  intro n e _ _ hn
  rw [ho] at hn
  cases hn

/-- The close of the test in remove, whose object goes on as it is. -/
theorem test_closed_iff (h : Covered (s.setObject id { o with place := .idle }))
    (hd : s.table o.process fd = some d) :
    Covered ((s.setObject id { o with place := .idle }).closeFd o.process fd d.inode) ↔
      ¬ Other s id o.process d.inode ∧ ∀ n e, o.fileHandle = some n →
        s.table o.process n = some e → e.inode ≠ d.inode := by
  rw [covered_closeFd h hd,
    show (s.setObject id { o with place := .idle }).table = s.table from rfl, none_open_iff]
  simp [FileObject.settled]

theorem granted_iff (h : Covered s) (ho : s.objects id = some o) (hp : o.place = .opening)
    (hh : o.fileHandle = some fd) (hd : s.table o.process fd = some d) :
    Covered ((s.setLock o.process d.inode (exclusive d.mode)).setObject id
      { o with place := .idle }) ↔ lockClean s id o .granted := by
  have hclean : lockClean s id o .granted ↔ ∀ d, s.table o.process fd = some d →
      d.mode = .read → ∀ id' fd' d', id' ≠ id → Has s id' o.process fd' →
        s.table o.process fd' = some d' → d'.inode = d.inode → d'.mode = .read := by
    simp only [lockClean, hp, hh]
  have hlock := covered_setLock (s := s.setObject id { o with place := .idle }) o.process d.inode
    (exclusive d.mode) ?_
  · rw [show (s.setLock o.process d.inode (exclusive d.mode)).setObject id
      { o with place := .idle } = (s.setObject id { o with place := .idle }).setLock o.process
        d.inode (exclusive d.mode) from rfl, hlock, hclean]
    constructor
    · intro hall d' hd' hread id' n e hid hhas he hi
      rw [hd] at hd'
      cases hd'
      apply Decidable.byContradiction
      intro hmode
      have hx := hall id' n e ((has_other hid).mpr hhas) he hi hmode
      simp [exclusive, hread] at hx
    · intro hothers id' n e hhas he hi hmode
      by_cases hread : d.mode = .read
      · by_cases hid : id' = id
        · subst hid
          obtain ⟨_, _, hn⟩ := has_same.mp hhas
          rw [show (s.setObject id' { o with place := .idle }).table = s.table from rfl] at he
          rw [← Option.some.inj (hh.symm.trans hn), hd] at he
          cases he
          exact absurd hread hmode
        · exact absurd (hothers d hd hread id' n e hid ((has_other hid).mp hhas) he hi) hmode
      · simp [exclusive, hread]
  · intro id' q n hhas
    by_cases hid : id' = id
    · subst hid
      obtain ⟨_, rfl, hn⟩ := has_same.mp hhas
      cases hh.symm.trans hn
      exact ⟨d, hd, Or.inr ⟨rfl, rfl⟩⟩
    · obtain ⟨e, he, hheld⟩ := h id' q n ((has_other hid).mp hhas)
      exact ⟨e, he, Or.inl hheld⟩

theorem locks_iff (h : Covered s) (ho : s.objects id = some o) (hp : o.place = .opening)
    (hh : o.fileHandle = some fd) (hd : s.table o.process fd = some d) {answer : LockAnswer}
    {t : OpenFiles} (ht : s.lockCall o.process d (exclusive d.mode) answer = some t) :
    Covered (t.setObject id { o with place := if answer = .refused then .refused else .idle }) ↔
      lockClean s id o answer := by
  cases answer with
  | granted =>
    simp only [lockCall, Option.ite_none_left_eq_some, Option.some.injEq] at ht
    obtain ⟨_, rfl⟩ := ht
    exact granted_iff h ho hp hh hd
  | refused =>
    simp only [lockCall, Option.ite_none_right_eq_some, Option.some.injEq] at ht
    obtain ⟨_, rfl⟩ := ht
    refine iff_of_true (covered_setObject h ?_) (by simp [lockClean, hp, hh])
    intro n hs
    cases hs
  | failed =>
    cases ht
    have hclean : lockClean s id o .failed ↔
        ∃ d, s.table o.process fd = some d ∧ Held s o.process d := by
      simp only [lockClean, hp, hh]
    rw [hclean]
    exact settle_iff h hh

/-- The test in remove takes no lock away. -/
theorem tests_covered (h : Covered s) (ho : s.objects id = some o) (hp : o.place = .removing fd)
    {answer : LockAnswer} {t : OpenFiles} (ht : s.lockCall o.process d true answer = some t) :
    Covered (t.setObject id { o with place := .removed fd }) := by
  have hsettled : o.settled = true := by simp [FileObject.settled, hp]
  have hagain : Covered (s.setObject id { o with place := .removed fd }) :=
    covered_again h ho hsettled rfl rfl
  cases answer with
  | granted =>
    simp only [lockCall, Option.ite_none_left_eq_some, Option.some.injEq] at ht
    obtain ⟨_, rfl⟩ := ht
    refine (covered_setLock (s := s.setObject id { o with place := .removed fd }) o.process
      d.inode true ?_).mpr fun _ _ _ _ _ _ _ => rfl
    intro id' q n hhas
    obtain ⟨e, he, hheld⟩ := hagain id' q n hhas
    exact ⟨e, he, Or.inl hheld⟩
  | refused =>
    simp only [lockCall, Option.ite_none_right_eq_some, Option.some.injEq] at ht
    obtain ⟨_, rfl⟩ := ht
    exact hagain
  | failed =>
    cases ht
    exact hagain

/-- A File that keeps the handle of a descriptor it has given up is not covered. -/
theorem released_uncovered (ho : o.settled = true) (hh : o.fileHandle = some fd) :
    ¬ Covered ((s.setObject id o).closeFd o.process fd inode) := by
  intro hc
  obtain ⟨d, htable, _⟩ := hc id o.process fd (has_same.mpr ⟨ho, rfl, hh⟩)
  simp [closeFd, setOpened] at htable

/-- What a step does to the files that are covered. -/
theorem covered_step (h : Covered s) {e : FileEvent} (hs : s.step e = some s') :
    Covered s' ↔ clean s e := by
  have lone : ∀ {id : Nat} {o : FileObject} {C : FileObject → Prop}, s.objects id = some o →
      ((∀ o', s.objects id = some o' → C o') ↔ C o) := by
    intro id o C ho
    refine ⟨fun hall => hall o ho, fun hc o' ho' => ?_⟩
    rw [ho] at ho'
    cases ho'
    exact hc
  cases step_moved hs with
  | construct free => exact iff_of_true (closed_covered h rfl) trivial
  | @copy id copied o free object idle =>
    refine iff_of_true (covered_setObject h ?_) trivial
    intro fd hsettled hh
    exact h id o.process fd ((has_mem object).mpr ⟨hsettled, rfl, hh⟩)
  | opens object idle closed free =>
    refine iff_of_true (covered_setObject (covered_setOpened h free) ?_) trivial
    intro n hsettled
    cases hsettled
  | locks object opening handle opened call =>
    rw [clean, lone object]
    exact locks_iff h object opening handle opened call
  | lost object opening handle gone =>
    rw [clean, lone object, settle_iff h handle]
    simp only [lockClean, opening, handle]
  | tests object removing opened call =>
    rw [clean, lone object]
    exact iff_of_true (tests_covered h object removing call) (by simp [lockClean, removing])
  | @missed id fd o object removing =>
    rw [clean, lone object]
    have hsettled : o.settled = true := by simp [FileObject.settled, removing]
    exact iff_of_true (covered_again h object hsettled rfl rfl) (by simp [lockClean, removing])
  | @closes id fd o answer t object idle handle call =>
    rw [clean, lone object]
    have hsettled : o.settled = true := by simp [FileObject.settled, idle]
    rcases closeCall_cases call with ⟨d, hd, ⟨rfl, rfl⟩ | ⟨rfl, rfl⟩⟩ | ⟨rfl, rfl⟩
    · rw [close_iff h hd rfl]
      simp [closeClean, idle, handle, hd]
    · exact iff_of_false (released_uncovered hsettled handle) (by simp [closeClean, idle, handle])
    · exact iff_of_true (covered_again h object hsettled rfl rfl)
        (by simp [closeClean, idle, handle])
  | @backs id fd o answer t object refused handle call =>
    rw [clean, lone object]
    rcases closeCall_cases call with ⟨d, hd, ⟨rfl, rfl⟩ | ⟨rfl, rfl⟩⟩ | ⟨rfl, rfl⟩
    · rw [close_iff h hd rfl]
      simp [closeClean, refused, handle, hd]
    · exact iff_of_false (released_uncovered (o := { o with place := .idle }) rfl handle)
        (by simp [closeClean, refused, handle])
    · rw [settle_iff h handle]
      simp only [closeClean, refused, handle]
  | @ends id fd o answer t object removed call =>
    rw [clean, lone object]
    have hsettled : o.settled = true := by simp [FileObject.settled, removed]
    have hagain : Covered (s.setObject id { o with place := .idle }) :=
      covered_again h object hsettled rfl rfl
    rcases closeCall_cases call with ⟨d, hd, ⟨rfl, rfl⟩ | ⟨rfl, rfl⟩⟩ | ⟨rfl, rfl⟩
    · rw [test_closed_iff hagain hd]
      simp [closeClean, removed, hd]
    · rw [test_closed_iff hagain hd]
      simp [closeClean, removed, hd]
    · exact iff_of_true hagain (by simp [closeClean, removed])
  | @removes id fd inode o object idle free =>
    have hsettled : o.settled = true := by simp [FileObject.settled, idle]
    exact iff_of_true (covered_again (covered_setOpened h free) object hsettled rfl rfl) trivial
  | @forget id o object idle =>
    refine iff_of_true ?_ trivial
    rintro id' p n ⟨o', ho', hrest⟩
    by_cases hid : id' = id
    · simp [hid] at ho'
    · simp only [hid, if_false] at ho'
      exact h id' p n ⟨o', ho', hrest⟩

/-- Along every run the open Files of every process have the locks they ask for
if and only if no close, refused open or test in remove gives up a lock that
another File of the process relies on, no close of a handle fails behind its
release or behind a refused lock, no lock for reading replaces one for writing,
and no failed lock is ignored. With the locks in place Files of
different processes are open on one file only to read it. -/
theorem locks_cover_iff {past : List (OpenFiles × FileEvent)} (h : system.Run past s) :
    (((∀ x ∈ past, Covered x.1) ∧ Covered s) ↔ ∀ x ∈ past, clean x.1 x.2) ∧
    (Covered s → Exclusive s) := by
  have hinit : ∀ s, system.init s → Compatible s ∧ Covered s := by
    rintro s rfl
    refine ⟨fun l hl => (nomatch hl), ?_⟩
    rintro id p fd ⟨o, ho, _⟩
    cases ho
  constructor
  · exact h.all_iff_of (I := Compatible) hinit (fun s e s' hc hs => compatible_step hc hs)
      fun s e s' _ hcov hs => covered_step hcov hs
  · intro hcov
    exact hcov.exclusive (h.invariant (fun s hs => (hinit s hs).1)
      fun s e s' hc hs => compatible_step hc hs)

/-- A process opens a file for writing and then once more to read it: the second
lock replaces the first. -/
theorem locks_cover_reread : ∃ past s, system.Run past s ∧
    ¬ ((∀ x ∈ past, Covered x.1) ∧ Covered s) := by
  obtain ⟨past, s, hf⟩ : ∃ past s, follow step [] start [.construct 0 0, .opens 0 3 7 .write,
      .locks 0 .granted, .construct 1 0, .opens 1 4 7 .read, .locks 1 .granted] =
        some (past, s) := ⟨_, _, rfl⟩
  have hstart : system.Run [] start := .start rfl
  have hrun := hstart.follow hf
  refine ⟨past, s, hrun, ?_⟩
  rw [(locks_cover_iff hrun).1]
  intro hclean
  cases hf
  have hlast := hclean _ (.tail _ (.tail _ (.tail _ (.tail _ (.tail _ (.head _))))))
    ⟨0, some 4, .opening⟩ rfl ⟨7, .read⟩ rfl rfl 0 3 ⟨7, .write⟩ (by decide)
    ⟨⟨0, some 3, .idle⟩, rfl, rfl, rfl, rfl⟩ rfl rfl
  cases hlast

end CkCore.Proofs.FileLock
