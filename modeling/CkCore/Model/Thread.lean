import CkCore.Model.Waiting

namespace CkCore
open Lib

/-- A native thread, alive until it has run cleanup. `cancelled` is set by
pthread_cancel. -/
structure NativeThread where
  alive : Bool
  cancelled : Bool
deriving DecidableEq, Repr

/-- Where a call is: inside the wait on thread_done_, on the way from there to the
mutex of the object, or returned. -/
inductive CallPlace where
  | inside (timeout : Nat)
  | left (res : Bool)
  | returned (res : Bool)
deriving DecidableEq, Repr

/-- A call of wait or kill that found the thread running, made by a thread of the
object or by another one. `target` is what thread_ was then. -/
structure ThreadCall where
  kill : Bool
  caller : Option Nat
  target : Nat
  place : CallPlace
deriving DecidableEq, Repr

namespace ThreadCall

def inside (self : ThreadCall) : Bool :=
  match self.place with
  | .inside _ => true
  | _ => false

def returned (self : ThreadCall) : Bool :=
  match self.place with
  | .returned _ => true
  | _ => false

end ThreadCall

/-- A Thread with all native threads it has created, by number, and all calls on
it that got as far as waiting. With `aborted` the process is gone. -/
structure Thread where
  thread : Option Nat
  running : Bool
  threadDone : WaitCondition
  natives : List NativeThread
  calls : List ThreadCall
  aborted : Bool
deriving DecidableEq, Repr

/-- The sections run under the mutex of the object or that of the condition, and
the abort of the process when a cancelled thread comes to a cancellation point.
`start` and `kill` come with the answers of pthread_create and pthread_cancel. -/
inductive ThreadEvent where
  | start (created : Bool)
  | cleanup (native : Nat)
  | wait (caller : Option Nat) (timeout : Nat)
  | kill (caller : Option Nat) (found : Bool)
  | wake (call : Nat)
  | expire (call : Nat)
  | resume (call : Nat)
  | abort (native : Nat)
deriving DecidableEq, Repr

namespace Thread

def create : Thread := ⟨none, false, ⟨0, 0⟩, [], [], false⟩

def alive (self : Thread) (native : Nat) : Bool := self.natives[native]?.any (·.alive)

def cancelled (self : Thread) (native : Nat) : Bool := self.natives[native]?.any (·.cancelled)

/-- The thread has a call on the object itself to return from. -/
def busy (self : Thread) (native : Nat) : Bool :=
  self.calls.any fun c => c.caller == some native && !c.returned

/-- A thread of the object can go on in run. -/
def free (self : Thread) (native : Nat) : Bool := self.alive native && !self.busy native

/-- A cancelled thread of the object comes to a cancellation point, in run or in
the wait on thread_done_: the catch (...) of native_thread swallows its unwinding,
for which glibc aborts the process. Locking a mutex is no such point. -/
def unwinds (self : Thread) (native : Nat) : Bool :=
  self.alive native && self.cancelled native &&
    self.calls.all fun c => c.caller != some native || c.inside || c.returned

/-- With running_ set nothing is done. -/
def start (self : Thread) (created : Bool) : Thread :=
  if self.running then self
  else if created then
    { self with
      thread := some self.natives.length
      running := true
      natives := self.natives ++ [⟨true, false⟩] }
  else self

def cleanup (self : Thread) (native : Nat) : Thread :=
  { self with
    running := false
    threadDone := self.threadDone.signalAll
    natives := self.natives.modify native fun t => { t with alive := false } }

/-- thread_done_.wait up to the release of the internal mutex. For a cancelled
caller pthread_cond_wait is a cancellation point at once. -/
def enter (self : Thread) (kill : Bool) (caller : Option Nat) (target timeout : Nat) : Thread :=
  { self with
    threadDone := self.threadDone.enter
    calls := self.calls ++ [⟨kill, caller, target, .inside timeout⟩]
    aborted := caller.any self.cancelled }

/-- A thread does not wait for itself. -/
def wait (self : Thread) (caller : Option Nat) (timeout : Nat) : Thread :=
  match self.thread with
  | none => self
  | some target =>
    if caller = some target then self
    else if self.running then self.enter false caller target timeout
    else self

/-- pthread_cancel marks the thread; it may be the caller's own. -/
def cancel (self : Thread) (native : Nat) : Thread :=
  { self with natives := self.natives.modify native fun t => { t with cancelled := true } }

def kill (self : Thread) (caller : Option Nat) (found : Bool) : Thread :=
  match self.thread with
  | none => self
  | some target =>
    if self.running && found then
      (self.cancel target).enter true caller target ThreadPool.unlimited
    else self

/-- A call leaves the wait on thread_done_. -/
def leave (self : Thread) (call : Nat) (c : ThreadCall) (res : Bool) (cond : WaitCondition) :
    Thread :=
  { self with threadDone := cond, calls := self.calls.set call { c with place := .left res } }

/-- What is behind the wait on thread_done_: kill clears running_, whatever was
woken for, and returns true. -/
def resume (self : Thread) (call : Nat) (c : ThreadCall) (res : Bool) : Thread :=
  { self with
    running := if c.kill then false else self.running
    calls := self.calls.set call { c with place := .returned (c.kill || res) } }

/-- The wait on thread_done_ of a call goes on. -/
def waiting (self : Thread) (call : Nat) (next : ThreadCall → Nat → Option Thread) :
    Option Thread :=
  match self.calls[call]? with
  | none => none
  | some c =>
    match c.place with
    | .inside timeout => next c timeout
    | _ => none

def act (self : Thread) : ThreadEvent → Option Thread
  | .start created => some (self.start created)
  | .cleanup native => if self.free native then some (self.cleanup native) else none
  | .wait caller timeout =>
    if caller.all self.free then some (self.wait caller timeout) else none
  | .kill caller found => if caller.all self.free then some (self.kill caller found) else none
  | .wake call => self.waiting call fun c _ =>
    if self.threadDone.wakeups = 0 then none
    else some (self.leave call c true self.threadDone.wake)
  | .expire call => self.waiting call fun c timeout =>
    if timeout = ThreadPool.unlimited then none
    else some (self.leave call c false self.threadDone.expire)
  | .resume call =>
    match self.calls[call]? with
    | none => none
    | some c =>
      match c.place with
      | .left res => some (self.resume call c res)
      | _ => none
  | .abort native => if self.unwinds native then some { self with aborted := true } else none

def step (self : Thread) (e : ThreadEvent) : Option Thread :=
  if self.aborted then none else self.act e

def system : System Thread ThreadEvent := .machine (· = create) step

end Thread
end CkCore
