import Mathlib.Data.List.Basic
import CkCore.Model.Waiting

namespace CkCore
open Lib

/-- Where a thread is that uses a wait condition with a mutex: outside the mutex,
inside it, or in a call of wait or of a signal, by the next thing it does. A call
of wait has a number from the release of the mutex on; `within` tells a signal
that is issued inside the mutex. -/
inductive WaitPlace where
  | outside
  | inside
  | entering (timeout : Nat)
  | releasing (timeout : Nat)
  | counting (call timeout : Nat)
  | asleep (call timeout : Nat)
  | awake (call timeout : Nat) (expired : Bool)
  | leaving (res : Bool)
  | relocking (res : Bool)
  | calling (all within : Bool)
  | signalling (all within : Bool)
  | signalled (within : Bool)
deriving DecidableEq, Repr

def WaitPlace.sleeps : WaitPlace → Bool
  | .asleep _ _ => true
  | _ => false

/-- A mutex and a wait condition with its internal mutex, with their holders, and
all threads. The threads in `woken` are those pthread_cond_signal and
pthread_cond_broadcast have unblocked and that have not come back yet. `begun` is a
record: the calls of wait that have released the mutex. -/
structure LockedWait where
  mutex : Option Nat
  internal : Option Nat
  cond : WaitCondition
  woken : List Nat
  places : List WaitPlace
  begun : Nat
deriving DecidableEq, Repr

namespace LockedWait

def create (threads : Nat) : LockedWait where
  mutex := none
  internal := none
  cond := ⟨0, 0⟩
  woken := []
  places := List.replicate threads .outside
  begun := 0

/-- A thread locks or unlocks the mutex or begins a call, pthread_cond_wait comes
back with the internal mutex (after a signal, spuriously, or when its time is
over), a signal is issued, or a thread goes on. -/
inductive Event where
  | lock (thread : Nat)
  | unlock (thread : Nat)
  | wait (thread timeout : Nat)
  | signal (thread : Nat) (all : Bool)
  | wake (thread : Nat) (expired : Bool)
  | issue (thread : Nat) (chosen : List Nat)
  | go (thread : Nat)
deriving DecidableEq, Repr

def put (self : LockedWait) (thread : Nat) (place : WaitPlace) : LockedWait :=
  { self with places := self.places.set thread place }

/-- The threads blocked on the condition variable. -/
def blocked (self : LockedWait) : List Nat :=
  (self.places.findIdxs WaitPlace.sleeps).filter fun t => t ∉ self.woken

/-- The threads a signal unblocks: all of them, or those the system chooses, at
least one if there is one. -/
def unblocked (self : LockedWait) (all : Bool) (chosen : List Nat) : List Nat :=
  let picked := self.blocked.filter fun t => t ∈ chosen
  if all then self.blocked
  else if picked = [] then self.blocked.take 1
  else picked

/-- The section of signal_one and signal_all. -/
def issue (self : LockedWait) (thread : Nat) (chosen : List Nat) (all within : Bool) :
    LockedWait :=
  { self with
    cond := if all then self.cond.signalAll else self.cond.signalOne
    woken := self.woken ++ self.unblocked all chosen }.put thread (.signalled within)

/-- pthread_cond_wait has come back: without a wake-up for anyone it is called
again. -/
def check (self : LockedWait) (thread call timeout : Nat) (expired : Bool) : LockedWait :=
  if expired then { self with cond := self.cond.expire }.put thread (.leaving false)
  else if self.cond.wakeups = 0 then
    { self with internal := none }.put thread (.asleep call timeout)
  else { self with cond := self.cond.wake }.put thread (.leaving true)

/-- The thread goes on from where it is, unless a mutex keeps it. -/
def go (self : LockedWait) (thread : Nat) : WaitPlace → Option LockedWait
  | .outside | .inside | .asleep _ _ | .signalling _ _ => none
  | .entering timeout =>
    if self.internal = none then
      some ({ self with internal := some thread }.put thread (.releasing timeout))
    else none
  | .releasing timeout =>
    some ({ self with mutex := none, begun := self.begun + 1 }.put thread
      (.counting self.begun timeout))
  | .counting call timeout =>
    some ({ self with internal := none, cond := self.cond.enter }.put thread (.asleep call timeout))
  | .awake call timeout expired => some (self.check thread call timeout expired)
  | .leaving res => some ({ self with internal := none }.put thread (.relocking res))
  | .relocking _ =>
    if self.mutex = none then some ({ self with mutex := some thread }.put thread .inside) else none
  | .calling all within =>
    if self.internal = none then
      some ({ self with internal := some thread }.put thread (.signalling all within))
    else none
  | .signalled within =>
    some ({ self with internal := none }.put thread (if within then .inside else .outside))

/-- What a thread does from the place it is at. -/
def act (self : LockedWait) (thread : Nat) (place : WaitPlace) : Event → Option LockedWait
  | .lock _ =>
    if place = .outside ∧ self.mutex = none then
      some ({ self with mutex := some thread }.put thread .inside)
    else none
  | .unlock _ =>
    if place = .inside then some ({ self with mutex := none }.put thread .outside) else none
  | .wait _ timeout => if place = .inside then some (self.put thread (.entering timeout)) else none
  | .signal _ all =>
    if place = .inside then some (self.put thread (.calling all true))
    else if place = .outside then some (self.put thread (.calling all false))
    else none
  | .wake _ expired =>
    match place with
    | .asleep call timeout =>
      if self.internal = none ∧ ¬ (expired = true ∧ timeout = ThreadPool.unlimited) then
        some ({ self with internal := some thread, woken := self.woken.erase thread }.put thread
          (.awake call timeout expired))
      else none
    | _ => none
  | .issue _ chosen =>
    match place with
    | .signalling all within => some (self.issue thread chosen all within)
    | _ => none
  | .go _ => self.go thread place

def Event.thread : Event → Nat
  | .lock thread | .unlock thread | .wait thread _ | .signal thread _ | .wake thread _
  | .issue thread _ | .go thread => thread

def step (self : LockedWait) (e : Event) : Option LockedWait :=
  match self.places[e.thread]? with
  | none => none
  | some place => self.act e.thread place e

def system : System LockedWait Event := .machine (∃ threads, · = create threads) step

end LockedWait
end CkCore
