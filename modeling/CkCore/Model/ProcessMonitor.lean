import Mathlib.Logic.Function.Basic
import CkCore.Model.Process

namespace CkCore
open Lib

/-- What the handler writes when it finds the process of a child that ended. -/
def Process.ended (self : Process) (status : ExitStatus) : Process :=
  { self with state := .stopped, exitCode := status.getD self.exitCode }

/-- pid_map_, and whether the constructor has installed the handler. -/
structure ProcessMonitor where
  installed : Bool
  pidMap : Nat → Option Nat

namespace ProcessMonitor

/-- instance(): the first call runs the constructor. -/
def instance_ (self : ProcessMonitor) : ProcessMonitor := { self with installed := true }

def registerProcess (self : ProcessMonitor) (pid process : Nat) : ProcessMonitor :=
  { self with pidMap := Function.update self.pidMap pid (some process) }

/-- sigchld_handler once wait has returned a child. -/
def sigchldHandler (self : ProcessMonitor) (processes : Nat → Process) (pid : Nat)
    (status : ExitStatus) : Nat → Process :=
  match self.pidMap pid with
  | some process => Function.update processes process ((processes process).ended status)
  | none => processes

end ProcessMonitor

/-- A child is reaped when wait has returned it and the handler has not looked
it up yet. From then on its exit is recorded in its own process or never. -/
inductive Life where
  | alive
  | zombie (status : ExitStatus)
  | reaped (status : ExitStatus)
  | recorded
  | missed
deriving DecidableEq, Repr

/-- What create still has to do for a child. -/
inductive Registration where
  | monitor
  | register
  | registered
deriving DecidableEq, Repr

structure ForkedChild where
  pid : Nat
  process : Nat
  life : Life
  registration : Registration
deriving DecidableEq, Repr

/-- Whether the handler finds the child's own process. -/
def ProcessMonitor.outcome (self : ProcessMonitor) (c : ForkedChild) : Life :=
  if self.pidMap c.pid = some c.process then .recorded else .missed

/-- Every process object, every child forked for one, and the signal: at most
one SIGCHLD is pending, and some handlers are in wait. -/
structure MonitorRun where
  processes : Nat → Process
  children : List ForkedChild
  monitor : ProcessMonitor
  pending : Bool
  waiting : Nat

inductive MonitorEvent where
  | fork (process pid : Nat)
  | instance_ (child : Nat)
  | register (child : Nat)
  | exit (child : Nat) (status : ExitStatus)
  | deliver
  | reap (child : Nat)
  | waitFails
  | lookup (child : Nat)
deriving DecidableEq, Repr

namespace MonitorRun

/-- The pid of a child that wait has not returned is not given again. -/
def unreaped (c : ForkedChild) : Bool :=
  match c.life with
  | .alive | .zombie _ => true
  | .reaped _ | .recorded | .missed => false

def childStep (s : MonitorRun) (child : Nat) (next : ForkedChild → Option MonitorRun) :
    Option MonitorRun :=
  match s.children[child]? with
  | none => none
  | some c => next c

/-- create up to the fork, for a process that is not running. -/
def fork (s : MonitorRun) (process pid : Nat) : Option MonitorRun :=
  if (s.processes process).running ∨ s.children.any (fun c => c.pid = pid ∧ unreaped c) then none
  else some { s with
    processes := Function.update s.processes process
      { (s.processes process).close with state := .running }
    children := s.children ++ [⟨pid, process, .alive, .monitor⟩] }

def step (s : MonitorRun) : MonitorEvent → Option MonitorRun
  | .fork process pid => s.fork process pid
  | .instance_ child => s.childStep child fun c =>
    if c.registration = .monitor then
      some { s with
        children := s.children.set child { c with registration := .register }
        monitor := s.monitor.instance_ }
    else none
  | .register child => s.childStep child fun c =>
    if c.registration = .register then
      some { s with
        children := s.children.set child { c with registration := .registered }
        monitor := s.monitor.registerProcess c.pid c.process }
    else none
  | .exit child status => s.childStep child fun c =>
    if c.life = .alive then
      some { s with
        children := s.children.set child { c with life := .zombie status }
        pending := s.pending || s.monitor.installed }
    else none
  | .deliver =>
    if s.pending then some { s with pending := false, waiting := s.waiting + 1 } else none
  | .reap child => s.childStep child fun c =>
    match c.life with
    | .zombie status =>
      if 0 < s.waiting then
        some { s with
          children := s.children.set child { c with life := .reaped status }
          waiting := s.waiting - 1 }
      else none
    | _ => none
  | .waitFails =>
    if 0 < s.waiting ∧ s.children.countP unreaped = 0 then
      some { s with waiting := s.waiting - 1 }
    else none
  | .lookup child => s.childStep child fun c =>
    match c.life with
    | .reaped status => some { s with
        children := s.children.set child { c with life := s.monitor.outcome c }
        processes := s.monitor.sigchldHandler s.processes c.pid status }
    | _ => none

/-- No process runs and the monitor has not been used. -/
structure Initial (s : MonitorRun) : Prop where
  stopped : ∀ process, (s.processes process).state = .stopped
  children : s.children = []
  installed : s.monitor.installed = false
  pidMap : s.monitor.pidMap = fun _ => none
  pending : s.pending = false
  waiting : s.waiting = 0

/-- Process objects that have not been used. -/
def idle : MonitorRun where
  processes _ := (ProcessRun.forked []).self.close
  children := []
  monitor := ⟨false, fun _ => none⟩
  pending := false
  waiting := 0

theorem idle_initial : Initial idle := ⟨fun _ => rfl, rfl, rfl, rfl, rfl, rfl⟩

/-- Every order of the creations, the exits, the deliveries and the handlers. -/
def system : System MonitorRun MonitorEvent := .machine Initial step

end MonitorRun
end CkCore
