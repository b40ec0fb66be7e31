import CkCore.Model.ProcessCreate
import CkCore.Model.ProcessLife

namespace CkCore.Proofs.FailedCreate
open Lib ProcessObject

/-- create was not refused, returned false and started no child. -/
def failed : CreateExit → Bool
  | .noArguments | .missing | .noPipe | .noFork => true
  | .refused | .noThread _ | .created _ => false

/-- The object is not running, and the next create is not refused. -/
def Stopped (o : ProcessObject) : Prop :=
  o.self.running = false ∧ ∀ calls cmdLine, (o.create calls cmdLine).1 ≠ .refused

/-- create gets as far as the fork: there is an executable and there are pipes. -/
def Prepared (calls : CreateCalls) (cmdLine : List Byte) : Prop :=
  (∃ path rest, Process.argList cmdLine = some (path :: rest) ∧ calls.exist path = true) ∧
    calls.pipeStdin.isSome ∧ calls.pipeStdout.isSome ∧ calls.pipeStderr.isSome

def ForkFails (o : ProcessObject) (calls : CreateCalls) (cmdLine : List Byte) : Prop :=
  o.self.running = false ∧ Prepared calls cmdLine ∧ calls.fork = none

/-- The exits of a number of creates on one object, and the object behind them. -/
def creates (o : ProcessObject) : List (CreateCalls × List Byte) → List CreateExit × ProcessObject
  | [] => ([], o)
  | (calls, cmdLine) :: later =>
    let (exit, o) := o.create calls cmdLine
    let (exits, o) := creates o later
    (exit :: exits, o)

section
variable {o : ProcessObject} {calls : CreateCalls} {cmdLine : List Byte}

/-- The pipe calls open the pipes they succeed for and touch nothing else. -/
theorem openPipes_self (o : ProcessObject) (calls : CreateCalls) :
    (o.openPipes calls).2.self = o.self := by
  unfold openPipes
  split
  case h_1 => rfl
  case h_2 =>
    split
    case h_1 => rfl
    case h_2 => split <;> rfl

theorem openPipes_iff (o : ProcessObject) (calls : CreateCalls) :
    (o.openPipes calls).1 = true ↔
      calls.pipeStdin.isSome ∧ calls.pipeStdout.isSome ∧ calls.pipeStderr.isSome := by
  unfold openPipes
  cases hin : calls.pipeStdin with
  | none => simp
  | some stdin =>
    cases hout : calls.pipeStdout with
    | none => simp
    | some stdout => cases herr : calls.pipeStderr <;> simp

/-- What create comes to, by how far it gets. -/
inductive Ends (o : ProcessObject) (calls : CreateCalls) (cmdLine : List Byte)
    (r : CreateExit × ProcessObject) : Prop where
  | refused (running : o.self.running = true) (result : r = (.refused, o))
  | early (idle : o.self.running = false) (unprepared : ¬ Prepared calls cmdLine)
      (exit : failed r.1 = true) (self : r.2.self = o.self.close)
  | noFork (idle : o.self.running = false) (prepared : Prepared calls cmdLine)
      (fork : calls.fork = none) (exit : r.1 = .noFork)
      (self : r.2.self = { o.self.close with state := .running })
  | forked (idle : o.self.running = false) (prepared : Prepared calls cmdLine)
      (fork : calls.fork.isSome) (exit : failed r.1 = false) (child : r.1 ≠ .refused)

theorem forkChild_ends (hidle : o.self.running = false) (hprepared : Prepared calls cmdLine)
    {o' : ProcessObject} (hself : o'.self = o.self.close) :
    Ends o calls cmdLine (o'.forkChild calls) := by
  unfold forkChild
  cases hfork : calls.fork with
  | none =>
    refine .noFork hidle hprepared hfork rfl ?_
    exact congrArg (fun self : Process => { self with state := .running }) hself
  | some pid =>
    have hsome : calls.fork.isSome := by simp [hfork]
    cases hlisten : calls.listen <;> exact .forked hidle hprepared hsome rfl (by simp)

theorem create_ends (o : ProcessObject) (calls : CreateCalls) (cmdLine : List Byte) :
    Ends o calls cmdLine (o.create calls cmdLine) := by
  unfold create
  split
  case isTrue hrunning => exact .refused hrunning rfl
  case isFalse hidle =>
    have hidle : o.self.running = false := Bool.eq_false_iff.mpr hidle
    split
    case h_1 harg =>
      refine .early hidle ?_ rfl rfl
      rintro ⟨⟨path, rest, hpath, _⟩, _⟩
      cases harg.symm.trans hpath
    case h_2 harg =>
      refine .early hidle ?_ rfl rfl
      rintro ⟨⟨path, rest, hpath, _⟩, _⟩
      cases harg.symm.trans hpath
    case h_3 path rest harg =>
      split
      case isFalse hmissing =>
        refine .early hidle ?_ rfl rfl
        rintro ⟨⟨path', rest', hpath, hexist⟩, _⟩
        cases harg.symm.trans hpath
        exact hmissing hexist
      case isTrue hexist =>
        have hself := openPipes_self o.close calls
        have hopened := openPipes_iff o.close calls
        split
        case h_1 o' hpipes =>
          rw [hpipes] at hself hopened
          refine .early hidle ?_ rfl hself
          rintro ⟨_, hsome⟩
          exact Bool.false_ne_true (hopened.mpr hsome)
        case h_2 o' hpipes =>
          rw [hpipes] at hself hopened
          exact forkChild_ends hidle ⟨⟨path, rest, harg, hexist⟩, hopened.mp rfl⟩ hself

/-- A create is refused just when running() is true. -/
theorem refused_iff : (o.create calls cmdLine).1 = .refused ↔ o.self.running = true := by
  cases create_ends o calls cmdLine with
  | refused running result => exact iff_of_true (by rw [result]) running
  | early idle _ exit _ =>
    refine iff_of_false (fun hr => ?_) (by simp [idle])
    rw [hr] at exit
    cases exit
  | noFork idle _ _ exit _ => exact iff_of_false (by simp [exit]) (by simp [idle])
  | forked idle _ _ _ child => exact iff_of_false child (by simp [idle])

theorem stopped_iff : Stopped o ↔ o.self.running = false := by
  refine ⟨And.left, fun h => ⟨h, fun calls cmdLine hr => ?_⟩⟩
  exact Bool.false_ne_true (h.symm.trans (refused_iff.mp hr))

/-- Nothing create does ever frees an object it refuses. -/
theorem creates_refused (h : o.self.running = true) (later : List (CreateCalls × List Byte)) :
    creates o later = (List.replicate later.length .refused, o) := by
  have hrefused : ∀ calls cmdLine, o.create calls cmdLine = (.refused, o) := fun _ _ => if_pos h
  induction later with
  | nil => rfl
  | cons call later ih =>
    simp only [creates, hrefused, ih]
    rfl

/-- A create that fails without a child leaves the object stopped, except where
it is fork that fails: from then on every create is refused. -/
theorem failed_create_iff (o : ProcessObject) (calls : CreateCalls) (cmdLine : List Byte) :
    ((failed (o.create calls cmdLine).1 = true → Stopped (o.create calls cmdLine).2) ↔
      ¬ ForkFails o calls cmdLine) ∧
    (ForkFails o calls cmdLine → ∀ later, (creates (o.create calls cmdLine).2 later).1 =
      List.replicate later.length .refused) := by
  rw [stopped_iff]
  cases create_ends o calls cmdLine with
  | refused running result =>
    have hn : ¬ ForkFails o calls cmdLine := fun hf => by simp [hf.1] at running
    exact ⟨iff_of_true (by simp [result, failed]) hn, fun hf => absurd hf hn⟩
  | early idle unprepared exit self =>
    have hn : ¬ ForkFails o calls cmdLine := fun hf => unprepared hf.2.1
    refine ⟨iff_of_true (fun _ => ?_) hn, fun hf => absurd hf hn⟩
    rw [self]
    rfl
  | noFork idle prepared fork exit self =>
    have hrunning : (o.create calls cmdLine).2.self.running = true := by
      rw [self]
      rfl
    refine ⟨iff_of_false (fun h => ?_) (not_not_intro ⟨idle, prepared, fork⟩), fun _ later => ?_⟩
    · exact Bool.false_ne_true ((h (by rw [exit]; rfl)).symm.trans hrunning)
    · rw [creates_refused hrunning]
  | forked idle prepared fork exit child =>
    have hn : ¬ ForkFails o calls cmdLine := fun hf => by simp [hf.2.2] at fork
    exact ⟨iff_of_true (fun h => Bool.noConfusion (exit.symm.trans h)) hn, fun hf => absurd hf hn⟩

/-- A program that exists and has its pipes, and no child for it. -/
theorem failed_fork_runs : ∃ (o : ProcessObject) (calls : CreateCalls) (cmdLine : List Byte),
    o.self.running = false ∧
    (o.create calls cmdLine).1 = .noFork ∧ (o.create calls cmdLine).2.self.running = true ∧
    ((o.create calls cmdLine).2.create calls cmdLine).1 = .refused := by
  refine ⟨⟨Process.construct, none, none, none, none⟩,
    ⟨fun _ => true, some (3, 4), some (5, 6), some (7, 8), none, true⟩, [97], ?_⟩
  decide

end
end CkCore.Proofs.FailedCreate
