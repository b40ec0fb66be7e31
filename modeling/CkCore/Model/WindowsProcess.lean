import CkCore.Model.Process

namespace CkCore
open Lib

/-- The child behind the process handle; none when that is a null handle. -/
inductive WindowsChild where
  | none
  | alive
  | exited
deriving DecidableEq, Repr

/-- What create does next: idle is outside of it, close and join are its own
call of close, abandon the one after a failed CreateThread. -/
inductive WindowsCreatorPc where
  | idle
  | close
  | join
  | start
  | spawn
  | abandon
  | handle
  | run
  | wait
deriving DecidableEq, Repr

/-- What the listener does next, from enter to leave in its call of close. -/
inductive WindowsListenerPc where
  | none
  | lock
  | signal
  | read
  | enter
  | handle
  | child
  | resetStart
  | resetStop
  | store
  | leave
  | unlock
  | notify
  | done
deriving DecidableEq, Repr

/-- The members create and the listener share, and where both are. Of the handle
of the listener's thread it matters whether it is null. An earlier listener may
linger in front of giving mutex_exec_ back. -/
structure WindowsProcess where
  state : ProcessState
  startEvent : Bool
  stopEvent : Bool
  threadHandle : Bool
  child : WindowsChild
  pipeBroken : Bool
  lingering : Bool
  creator : WindowsCreatorPc
  listener : WindowsListenerPc
deriving DecidableEq, Repr

/-- The flag of a step of create says whether what it tries to make can be made. -/
inductive WindowsEvent where
  | create (ok : Bool)
  | listen
  | childExit
  | pipeBreak
  | linger
deriving DecidableEq, Repr

namespace WindowsProcess

/-- A constructed object on which create has not been called. -/
def init : WindowsProcess where
  state := .stopped
  startEvent := false
  stopEvent := false
  threadHandle := false
  child := .none
  pipeBroken := false
  lingering := false
  creator := .idle
  listener := .none

def running (self : WindowsProcess) : Bool := self.state = .running

/-- The listener holds mutex_. -/
def inClose : WindowsListenerPc → Bool
  | .handle | .child | .resetStart | .resetStop | .store | .leave => true
  | _ => false

/-- The listener holds mutex_exec_. -/
def inListen : WindowsListenerPc → Bool
  | .none | .lock | .notify | .done => false
  | _ => true

/-- What close does once the thread is dealt with: it waits for the child and
resets the object. -/
def reset (self : WindowsProcess) (next : WindowsCreatorPc) : Option WindowsProcess :=
  if self.child = .alive then none
  else some { self with
    threadHandle := false
    child := .none
    startEvent := false
    stopEvent := false
    state := .stopped
    creator := next }

def createStep (self : WindowsProcess) (ok : Bool) : Option WindowsProcess :=
  match self.creator with
  | .idle =>
    if inClose self.listener then none
    else if self.running then some self
    else some { self with creator := .close }
  | .close =>
    if inClose self.listener then none
    else if self.threadHandle then some { self with stopEvent := true, creator := .join }
    else self.reset .start
  | .join => if self.listener = .done then self.reset .start else none
  | .start =>
    if ok then some { self with child := .alive, pipeBroken := false, creator := .spawn }
    else some { self with creator := .idle }
  | .spawn =>
    if ok then some { self with
      lingering := self.lingering || inListen self.listener
      listener := .lock
      creator := .handle }
    else some { self with threadHandle := false, creator := .abandon }
  | .abandon => if inClose self.listener then none else self.reset .idle
  | .handle => some { self with threadHandle := true, creator := .run }
  | .run => some { self with state := .running, creator := .wait }
  | .wait => if self.startEvent then some { self with creator := .idle } else none

/-- The loop of listen ends with the child, with its end of the pipe or on the
stop event. -/
def listenStep (self : WindowsProcess) : Option WindowsProcess :=
  match self.listener with
  | .lock => if self.lingering then none else some { self with listener := .signal }
  | .signal => some { self with startEvent := true, listener := .read }
  | .read =>
    if self.child = .exited ∨ self.pipeBroken = true ∨ self.stopEvent = true then
      some { self with listener := .enter }
    else none
  | .enter => if self.creator = .join then none else some { self with listener := .handle }
  | .handle => some { self with threadHandle := false, listener := .child }
  | .child =>
    if self.child = .alive then none
    else some { self with child := .none, listener := .resetStart }
  | .resetStart => some { self with startEvent := false, listener := .resetStop }
  | .resetStop => some { self with stopEvent := false, listener := .store }
  | .store => some { self with state := .stopped, listener := .leave }
  | .leave => some { self with listener := .unlock }
  | .unlock => some { self with listener := .notify }
  | .notify => some { self with listener := .done }
  | .none | .done => none

def step (self : WindowsProcess) : WindowsEvent → Option WindowsProcess
  | .create ok => createStep self ok
  | .listen => listenStep self
  | .childExit => if self.child = .alive then some { self with child := .exited } else none
  | .pipeBreak => if self.child = .none then none else some { self with pipeBroken := true }
  | .linger => if self.lingering then some { self with lingering := false } else none

/-- Every order of the steps of create, called again and again, the listeners it
starts and their children. -/
def system : System WindowsProcess WindowsEvent := .machine (· = init) step

end WindowsProcess
end CkCore
