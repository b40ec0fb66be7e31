import CkCore.Model.CommandLine
import CkCore.Model.Process

namespace CkCore
open Lib

/-- A process with its identifier and the descriptors of its pipes, reading end
first; none for -1. -/
structure ProcessObject where
  self : Process
  pid : Option Nat
  pipeStdin : Option (Nat × Nat)
  pipeStdout : Option (Nat × Nat)
  pipeStderr : Option (Nat × Nat)
deriving DecidableEq, Repr

/-- What the calls that create makes would answer; none for -1. -/
structure CreateCalls where
  exist : List Byte → Bool
  pipeStdin : Option (Nat × Nat)
  pipeStdout : Option (Nat × Nat)
  pipeStderr : Option (Nat × Nat)
  fork : Option Nat
  listen : Bool

/-- The exit create takes. Only the last returns true, and only the last two have
started a child. -/
inductive CreateExit where
  | refused
  | noArguments
  | missing
  | noPipe
  | noFork
  | noThread (pid : Nat)
  | created (pid : Nat)
deriving DecidableEq, Repr

namespace ProcessObject

def close (o : ProcessObject) : ProcessObject where
  self := o.self.close
  pid := none
  pipeStdin := none
  pipeStdout := none
  pipeStderr := none

/-- The pipe calls: behind one that fails no other is made. -/
def openPipes (o : ProcessObject) (calls : CreateCalls) : Bool × ProcessObject :=
  match calls.pipeStdin with
  | none => (false, o)
  | some stdin =>
    match calls.pipeStdout with
    | none => (false, { o with pipeStdin := some stdin })
    | some stdout =>
      match calls.pipeStderr with
      | none => (false, { o with pipeStdin := some stdin, pipeStdout := some stdout })
      | some stderr => (true, { o with
          pipeStdin := some stdin, pipeStdout := some stdout, pipeStderr := some stderr })

/-- The listener has cleared its buffers and signalled when create returns true;
what else it does by then is left to its own steps. -/
def started (o : ProcessObject) : ProcessObject :=
  { o with self := { o.self with
    blockBufferOut := [], blockBufferErr := [], startedEvent := true, exitCode := 0 } }

/-- create behind the pipe calls. -/
def forkChild (o : ProcessObject) (calls : CreateCalls) : CreateExit × ProcessObject :=
  let o := { o with self := { o.self with state := .running } }
  match calls.fork with
  | none => (.noFork, o)
  | some pid =>
    let o := { o with pid := some pid }
    if calls.listen then (.created pid, o.started) else (.noThread pid, o)

def create (o : ProcessObject) (calls : CreateCalls) (cmdLine : List Byte) :
    CreateExit × ProcessObject :=
  if o.self.running then (.refused, o)
  else
    match Process.argList cmdLine with
    | none | some [] => (.noArguments, o.close)
    | some (path :: _) =>
      if calls.exist path then
        match o.close.openPipes calls with
        | (false, o) => (.noPipe, o)
        | (true, o) => o.forkChild calls
      else (.missing, o.close)

end ProcessObject
end CkCore
