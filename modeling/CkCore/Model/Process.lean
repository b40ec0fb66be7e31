import CkCore.Model.Stream
import CkCore.Lib.System

namespace CkCore
open Lib

inductive ProcessState where
  | stopped
  | running
deriving DecidableEq, Repr

/-- The members the creating thread, the listener and the signal handler share.
A pipe is the list of the bytes nobody has read yet. -/
structure Process where
  invalidInheritor : Bool
  state : ProcessState
  exitCode : Nat
  startedEvent : Bool
  blockDelims : List Byte
  blockBufferOut : List Byte
  blockBufferErr : List Byte
  pipeStdout : List Byte
  pipeStderr : List Byte
deriving DecidableEq, Repr

namespace Process

def readBufferSize : Nat := 128

def running (self : Process) : Bool := self.state = .running

/-- exit_code(); none for its false. -/
def readExitCode (self : Process) : Option Nat :=
  if self.running then none else some self.exitCode

def close (self : Process) : Process :=
  { self with pipeStdout := [], pipeStderr := [], startedEvent := false, state := .stopped }

/-- The loop over the bytes of one read: the blocks completed by a delimiter and
the block still open. -/
def split (blockDelims : List Byte) : List Byte → List Byte → List (List Byte) × List Byte
  | blockBuffer, [] => ([], blockBuffer)
  | blockBuffer, c :: rest =>
    if c ∈ blockDelims then
      if blockBuffer.length > 0 then
        (blockBuffer :: (split blockDelims [] rest).1, (split blockDelims [] rest).2)
      else split blockDelims blockBuffer rest
    else split blockDelims (blockBuffer ++ [c]) rest

/-- The blocks that reach event_output. -/
def reported (self : Process) (blocks : List (List Byte)) : List (List Byte) :=
  if self.invalidInheritor then [] else blocks

/-- read_stdout on the bytes the read call returned; none for its false. -/
def readStdout (self : Process) (buffer : List Byte) : Option (List (List Byte) × Process) :=
  if buffer = [] then none
  else
    let (blocks, rest) := split self.blockDelims self.blockBufferOut buffer
    some (self.reported blocks, { self with blockBufferOut := rest })

def readStderr (self : Process) (buffer : List Byte) : Option (List (List Byte) × Process) :=
  if buffer = [] then none
  else
    let (blocks, rest) := split self.blockDelims self.blockBufferErr buffer
    some (self.reported blocks, { self with blockBufferErr := rest })

end Process

/-- The status of a child that ended; none when a signal killed it. -/
abbrev ExitStatus := Option Nat

/-- The handler waits for the child, changes the state and then records the
status. -/
inductive Child where
  | alive
  | exited (status : ExitStatus)
  | stopped (status : ExitStatus)
  | reaped
deriving DecidableEq, Repr

/-- Where the thread in create is, from the fork on. -/
inductive CreatorPc where
  | register
  | spawn
  | wait
  | reset
  | returned
deriving DecidableEq, Repr

/-- Where the listener is: the flags say which pipes select found readable and
are still to be read in this pass. -/
inductive ListenerPc where
  | idle
  | clear
  | signal
  | test
  | select
  | readOut (out err : Bool)
  | readErr (err : Bool)
  | failed
  | finish
  | close
  | done
deriving DecidableEq, Repr

/-- A created process with all parties to it, and a record of the bytes that
went into and came out of the pipes and of the blocks reported. -/
structure ProcessRun where
  self : Process
  child : Child
  registered : Bool
  creator : CreatorPc
  listener : ListenerPc
  wroteOut : List Byte
  wroteErr : List Byte
  gotOut : List Byte
  gotErr : List Byte
  output : List (List Byte)
deriving DecidableEq, Repr

inductive ProcessEvent where
  | childOut (bytes : List Byte)
  | childErr (bytes : List Byte)
  | childExit (status : ExitStatus)
  | handler
  | create
  | listen
  | interrupted
  | readStdout (count : Nat)
  | readStderr (count : Nat)
deriving DecidableEq, Repr

namespace ProcessRun

/-- What a read may return: some bytes when there are any, at most what the
buffer holds. -/
def readable (pipe : List Byte) (count : Nat) : Prop :=
  count ≤ Process.readBufferSize - 1 ∧ (pipe ≠ [] → 0 < count)

instance (pipe : List Byte) (count : Nat) : Decidable (readable pipe count) :=
  inferInstanceAs (Decidable (_ ∧ _))

/-- The signal handler finds the process only once it is registered. -/
def sigchldHandler (s : ProcessRun) : Option ProcessRun :=
  match s.child with
  | .exited status =>
    if s.registered then
      some { s with child := .stopped status, self := { s.self with state := .stopped } }
    else some { s with child := .reaped }
  | .stopped status => some { s with
      child := .reaped, self := { s.self with exitCode := status.getD s.self.exitCode } }
  | .alive | .reaped => none

def createStep (s : ProcessRun) : Option ProcessRun :=
  match s.creator with
  | .register => some { s with registered := true, creator := .spawn }
  | .spawn => some { s with listener := .clear, creator := .wait }
  | .wait => if s.self.startedEvent then some { s with creator := .reset } else none
  | .reset => some { s with self := { s.self with exitCode := 0 }, creator := .returned }
  | .returned => none

/-- A step of the listener that involves no read. -/
def listenStep (s : ProcessRun) : Option ProcessRun :=
  match s.listener with
  | .clear => some { s with
      self := { s.self with blockBufferOut := [], blockBufferErr := [] }, listener := .signal }
  | .signal => some { s with self := { s.self with startedEvent := true }, listener := .test }
  | .test => some { s with listener := if s.self.state = .running then .select else .finish }
  | .select =>
    some { s with
      listener := .readOut (s.self.pipeStdout ≠ []) (s.self.pipeStderr ≠ []) }
  | .readOut false err => some { s with listener := .readErr err }
  | .readErr false => some { s with listener := .test }
  | .failed => some { s with self := s.self.close, listener := .finish }
  | .finish => some { s with listener := .close }
  | .close => some { s with self := s.self.close, listener := .done }
  | .readOut true _ | .readErr true | .idle | .done => none

def readOutStep (s : ProcessRun) (count : Nat) : Option ProcessRun :=
  match s.listener with
  | .readOut true err =>
    let bytes := s.self.pipeStdout.take count
    if readable s.self.pipeStdout count then
      match s.self.readStdout bytes with
      | none => some { s with listener := .failed }
      | some (blocks, self) => some { s with
          self := { self with pipeStdout := s.self.pipeStdout.drop count }
          listener := .readErr err
          gotOut := s.gotOut ++ bytes
          output := s.output ++ blocks }
    else none
  | _ => none

def readErrStep (s : ProcessRun) (count : Nat) : Option ProcessRun :=
  match s.listener with
  | .readErr true =>
    let bytes := s.self.pipeStderr.take count
    if readable s.self.pipeStderr count then
      match s.self.readStderr bytes with
      | none => some { s with listener := .failed }
      | some (blocks, self) => some { s with
          self := { self with pipeStderr := s.self.pipeStderr.drop count }
          listener := .test
          gotErr := s.gotErr ++ bytes
          output := s.output ++ blocks }
    else none
  | _ => none

def step (s : ProcessRun) : ProcessEvent → Option ProcessRun
  | .childOut bytes =>
    if s.child = .alive then
      some { s with
        self := { s.self with pipeStdout := s.self.pipeStdout ++ bytes }
        wroteOut := s.wroteOut ++ bytes }
    else none
  | .childErr bytes =>
    if s.child = .alive then
      some { s with
        self := { s.self with pipeStderr := s.self.pipeStderr ++ bytes }
        wroteErr := s.wroteErr ++ bytes }
    else none
  | .childExit status => if s.child = .alive then some { s with child := .exited status } else none
  | .handler => sigchldHandler s
  | .create => createStep s
  | .listen => listenStep s
  | .interrupted => if s.listener = .select then some s else none
  | .readStdout count => readOutStep s count
  | .readStderr count => readErrStep s count

/-- A child has just been forked. -/
structure Forked (s : ProcessRun) : Prop where
  state : s.self.state = .running
  started : s.self.startedEvent = false
  pipes : s.self.pipeStdout = [] ∧ s.self.pipeStderr = []
  child : s.child = .alive
  registered : s.registered = false
  creator : s.creator = .register
  listener : s.listener = .idle
  record : s.wroteOut = [] ∧ s.wroteErr = [] ∧ s.gotOut = [] ∧ s.gotErr = [] ∧ s.output = []

/-- A freshly forked child with the delimiters the process was given. -/
def forked (blockDelims : List Byte) : ProcessRun where
  self := {
    invalidInheritor := false
    state := .running
    exitCode := 0
    startedEvent := false
    blockDelims := blockDelims
    blockBufferOut := []
    blockBufferErr := []
    pipeStdout := []
    pipeStderr := [] }
  child := .alive
  registered := false
  creator := .register
  listener := .idle
  wroteOut := []
  wroteErr := []
  gotOut := []
  gotErr := []
  output := []

theorem forked_forked (blockDelims : List Byte) : Forked (forked blockDelims) :=
  ⟨rfl, rfl, ⟨rfl, rfl⟩, rfl, rfl, rfl, rfl, ⟨rfl, rfl, rfl, rfl, rfl⟩⟩

/-- Every order of the steps of the child, the handler, create and listen. -/
def system : System ProcessRun ProcessEvent := .machine Forked step

end ProcessRun
end CkCore
