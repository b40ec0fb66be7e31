import CkCore.Lib.Memory
import CkCore.Lib.System

namespace CkCore
open Lib

/-- Where a call of wait is: at the semaphore, between its time-out or its token
and the second critical section, or behind that as the last waiter that has yet
to set the event. -/
inductive WindowsWaitPc where
  | blocked
  | timedOut
  | acquired
  | lastWaiter
  | left
deriving DecidableEq, Repr

structure WindowsWaitCall where
  timeout : Nat
  pc : WindowsWaitPc
deriving DecidableEq, Repr

/-- Where a signal is: signal_one in front of its release, signal_all in front
of the event or in front of taking broadcast_ back. `mark` is a record: the
calls of wait below it had begun when the broadcast was issued. -/
inductive WindowsSignal where
  | releasing
  | blocked (mark : Nat)
  | ending
  | done
deriving DecidableEq, Repr

/-- The wait condition with its kernel objects and all calls, by number. -/
structure WindowsWait where
  broadcast : Bool
  waiters : Nat
  sema : Nat
  waitersDone : Bool
  calls : List WindowsWaitCall
  signals : List WindowsSignal
deriving DecidableEq, Repr

namespace WindowsWait

def create : WindowsWait where
  broadcast := false
  waiters := 0
  sema := 0
  waitersDone := false
  calls := []
  signals := []

/-- The timeout that is passed on as INFINITE. -/
def infinite : Nat := word - 1

/-- ReleaseSemaphore leaves the count alone when it would pass the maximum. -/
def release (sema count : Nat) : Nat :=
  if sema + count ≤ 0x7fffffff then sema + count else sema

/-- The critical sections and the calls on kernel objects. -/
inductive Event where
  | wait (timeout : Nat)
  | acquire (call : Nat)
  | expire (call : Nat)
  | leaveAcquired (call : Nat)
  | leaveTimedOut (call : Nat)
  | setDone (call : Nat)
  | signalOne
  | release (signal : Nat)
  | signalAll
  | wakeSignal (signal : Nat)
  | endBroadcast (signal : Nat)
deriving DecidableEq, Repr

def put (self : WindowsWait) (call : Nat) (c : WindowsWaitCall) (pc : WindowsWaitPc) :
    WindowsWait :=
  { self with calls := self.calls.set call { c with pc := pc } }

def callStep (self : WindowsWait) (call : Nat) (pc : WindowsWaitPc)
    (next : WindowsWaitCall → Option WindowsWait) : Option WindowsWait :=
  match self.calls[call]? with
  | none => none
  | some c => if c.pc = pc then next c else none

def signalStep (self : WindowsWait) (signal : Nat)
    (next : WindowsSignal → Option WindowsWait) : Option WindowsWait :=
  match self.signals[signal]? with
  | none => none
  | some c => next c

/-- The second critical section of wait, for a call with a token. -/
def leaveAcquired (self : WindowsWait) (call : Nat) (c : WindowsWaitCall) : WindowsWait :=
  let self := { self with waiters := subWord self.waiters 1 }
  if self.broadcast = true ∧ self.waiters = 0 then self.put call c .lastWaiter
  else self.put call c .left

/-- The second critical section of wait, for a call whose time is over. -/
def leaveTimedOut (self : WindowsWait) (call : Nat) (c : WindowsWaitCall) : WindowsWait :=
  { self with waiters := subWord self.waiters 1 }.put call c .left

def step (self : WindowsWait) : Event → Option WindowsWait
  | .wait timeout => some { self with
      waiters := addWord self.waiters 1, calls := self.calls ++ [⟨timeout, .blocked⟩] }
  | .acquire call => self.callStep call .blocked fun c =>
    if self.sema = 0 then none
    else some ({ self with sema := self.sema - 1 }.put call c .acquired)
  | .expire call => self.callStep call .blocked fun c =>
    if c.timeout = infinite then none else some (self.put call c .timedOut)
  | .leaveAcquired call => self.callStep call .acquired fun c => some (self.leaveAcquired call c)
  | .leaveTimedOut call => self.callStep call .timedOut fun c => some (self.leaveTimedOut call c)
  | .setDone call => self.callStep call .lastWaiter fun c =>
    some ({ self with waitersDone := true }.put call c .left)
  | .signalOne =>
    some (if self.waiters > 0 then { self with signals := self.signals ++ [.releasing] } else self)
  | .release signal => self.signalStep signal fun c =>
    if c = .releasing then some { self with
      sema := WindowsWait.release self.sema 1, signals := self.signals.set signal .done }
    else none
  | .signalAll =>
    some (if self.waiters > 0 then { self with
      broadcast := true
      sema := WindowsWait.release self.sema self.waiters
      signals := self.signals ++ [.blocked self.calls.length] } else self)
  | .wakeSignal signal => self.signalStep signal fun c =>
    match c with
    | .blocked _ => if self.waitersDone then some { self with
        waitersDone := false, signals := self.signals.set signal .ending } else none
    | _ => none
  | .endBroadcast signal => self.signalStep signal fun c =>
    if c = .ending then some { self with
      broadcast := false, signals := self.signals.set signal .done }
    else none

/-- The runs of a wait condition from its construction on. -/
def system : System WindowsWait Event := .machine (· = create) step

end WindowsWait
end CkCore
