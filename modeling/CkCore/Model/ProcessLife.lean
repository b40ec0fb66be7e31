import CkCore.Model.ProcessMonitor

namespace CkCore
open Lib

/-- The constructor. -/
def Process.construct : Process where
  invalidInheritor := false
  state := .stopped
  exitCode := 0
  startedEvent := false
  blockDelims := [10, 13]
  blockBufferOut := []
  blockBufferErr := []
  pipeStdout := []
  pipeStderr := []

/-- The processes of a program by their addresses: which of them are objects, in
which a call of create is under way, and for which a listener holds mutex_exec_.
The registrations are a record, the latest first. -/
structure ProcessLife where
  run : MonitorRun
  alive : Nat → Bool
  creating : Nat → Bool
  listening : Nat → Bool
  registrations : List (Nat × Nat)

/-- The program may have other children, for which the handler is called too. -/
inductive LifeEvent where
  | construct (process : Nat)
  | destroy (process : Nat)
  | createFails (process : Nat) (state : ProcessState)
  | monitor (e : MonitorEvent)
  | launch (process : Nat) (created : Bool)
  | hangUp (process : Nat)
  | finish (process : Nat)
  | otherExit
  | other (pid : Nat) (status : ExitStatus)
deriving DecidableEq, Repr

namespace ProcessLife

/-- Only an object creates, one child at a time. -/
def permits (s : ProcessLife) : MonitorEvent → Prop
  | .fork process _ => s.alive process = true ∧ s.creating process = false
  | _ => True

instance (s : ProcessLife) : DecidablePred s.permits
  | .fork _ _ => inferInstanceAs (Decidable (_ ∧ _))
  | .instance_ _ | .register _ | .exit _ _ | .deliver | .reap _ | .waitFails | .lookup _ =>
    isTrue trivial

/-- The processes in create behind the event. -/
def begun (s : ProcessLife) : MonitorEvent → Nat → Bool
  | .fork process _ => Function.update s.creating process true
  | _ => s.creating

def recorded (s : ProcessLife) : MonitorEvent → List (Nat × Nat)
  | .register child =>
    match s.run.children[child]? with
    | some c => (c.pid, c.process) :: s.registrations
    | none => s.registrations
  | _ => s.registrations

def put (s : ProcessLife) (process : Nat) (object : Process) : ProcessLife :=
  { s with run := { s.run with processes := Function.update s.run.processes process object } }

def step (s : ProcessLife) : LifeEvent → Option ProcessLife
  | .construct process =>
    if s.alive process then none
    else some { s.put process Process.construct with alive := Function.update s.alive process true }
  -- The destructor waits for mutex_exec_, and for nothing else.
  | .destroy process =>
    if s.alive process = true ∧ s.creating process = false ∧ s.listening process = false then
      some { s.put process (s.run.processes process).close with
        alive := Function.update s.alive process false }
    else none
  -- A create that starts no child; when fork fails the state is left at running.
  | .createFails process state =>
    if s.alive process = true ∧ s.creating process = false ∧
        (s.run.processes process).running = false then
      some (s.put process { (s.run.processes process).close with state := state })
    else none
  | .monitor e =>
    if s.permits e then
      (s.run.step e).map fun run =>
        { s with run := run, creating := s.begun e, registrations := s.recorded e }
    else none
  -- create behind the registration: it fails, or waits until the listener has begun,
  -- which takes mutex_exec_.
  | .launch process created =>
    if s.creating process = true ∧ (created = true → s.listening process = false) ∧
        ∀ c ∈ s.run.children, c.process = process → c.registration = .registered then
      let s := { s with creating := Function.update s.creating process false }
      if created then
        some { s.put process { s.run.processes process with exitCode := 0 } with
          listening := Function.update s.listening process true }
      else some s
    else none
  -- The listener closes the process when a pipe ends and once more before it unlocks.
  | .hangUp process =>
    if s.listening process then some (s.put process (s.run.processes process).close) else none
  | .finish process =>
    if s.listening process then
      some { s.put process (s.run.processes process).close with
        listening := Function.update s.listening process false }
    else none
  | .otherExit =>
    some { s with run := { s.run with pending := s.run.pending || s.run.monitor.installed } }
  | .other pid status =>
    if 0 < s.run.waiting ∧ s.run.children.any (fun c => c.pid = pid ∧ MonitorRun.unreaped c) = false
    then
      some { s with run := { s.run with
        processes := s.run.monitor.sigchldHandler s.run.processes pid status
        waiting := s.run.waiting - 1 } }
    else none

/-- The address the handler writes to in a step. -/
def writes (s : ProcessLife) : LifeEvent → Option Nat
  | .monitor (.lookup child) => s.run.children[child]?.bind fun c => s.run.monitor.pidMap c.pid
  | .other pid _ => s.run.monitor.pidMap pid
  | _ => none

/-- No object has been made and the monitor has not been used. -/
structure Initial (s : ProcessLife) : Prop where
  run : s.run.Initial
  alive : s.alive = fun _ => false
  creating : s.creating = fun _ => false
  listening : s.listening = fun _ => false
  registrations : s.registrations = []

def idle : ProcessLife := ⟨MonitorRun.idle, fun _ => false, fun _ => false, fun _ => false, []⟩

theorem idle_initial : Initial idle := ⟨MonitorRun.idle_initial, rfl, rfl, rfl, rfl⟩

/-- Every order of constructions, creates, exits, handlers and destructions. -/
def system : System ProcessLife LifeEvent := .machine Initial step

end ProcessLife
end CkCore
