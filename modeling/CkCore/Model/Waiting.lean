import CkCore.Model.ThreadPool

namespace CkCore
open Lib

def WaitCondition.signalAll (self : WaitCondition) : WaitCondition :=
  { self with wakeups := self.waiters }

/-- A call of wait. `called` is a record: a signal was issued since it began. -/
structure WaitCall where
  timeout : Nat
  inside : Bool
  called : Bool
deriving DecidableEq, Repr

/-- A wait condition with all calls of wait, by number. -/
structure Waiting where
  cond : WaitCondition
  calls : List WaitCall
deriving DecidableEq, Repr

namespace Waiting

def create : Waiting := ⟨⟨0, 0⟩, []⟩

/-- The sections run under the internal mutex: wait up to the release of the
mutex, one re-acquisition of it, and the two signals. -/
inductive Event where
  | wait (timeout : Nat)
  | wake (call : Nat)
  | spurious (call : Nat)
  | expire (call : Nat)
  | signalOne
  | signalAll
deriving DecidableEq, Repr

def leave (self : Waiting) (call : Nat) (c : WaitCall) (cond : WaitCondition) : Waiting :=
  { cond := cond, calls := self.calls.set call { c with inside := false } }

/-- A call that is inside wait goes on. -/
def callStep (self : Waiting) (call : Nat) (next : WaitCall → Option Waiting) :
    Option Waiting :=
  match self.calls[call]? with
  | none => none
  | some c => if c.inside then next c else none

def issue (self : Waiting) (cond : WaitCondition) : Waiting :=
  { cond := cond, calls := self.calls.map fun c => { c with called := true } }

def step (self : Waiting) : Event → Option Waiting
  | .wait timeout =>
    some { cond := self.cond.enter, calls := self.calls ++ [⟨timeout, true, false⟩] }
  | .wake call => self.callStep call fun c =>
    if self.cond.wakeups = 0 then none else some (self.leave call c self.cond.wake)
  | .spurious call => self.callStep call fun _ =>
    if self.cond.wakeups = 0 then some self else none
  | .expire call => self.callStep call fun c =>
    if c.timeout = ThreadPool.unlimited then none
    else some (self.leave call c self.cond.expire)
  | .signalOne => some (self.issue self.cond.signalOne)
  | .signalAll => some (self.issue self.cond.signalAll)

def system : System Waiting Event := .machine (· = create) step

end Waiting
end CkCore
