import CkCore.Model.ThreadPool

namespace CkCore
open Lib

/-- A pool with the priorities its queued tasks were passed to start with, one
for each entry of the queue. A task given to start_now has no priority, which is
priority zero for start. -/
structure Ledger where
  pool : ThreadPool
  items : List ((Task × Nat) × Nat)
deriving DecidableEq, Repr

namespace Ledger
open ThreadPool

/-- The sections that take an entry from the queue, if there is one. -/
def takes (p : ThreadPool) : Event → Bool
  | .reserve numThreads _ => numThreads < p.resThreads
  | .finish _ => !p.overworking
  | .resume worker => p.workers[worker]?.map Worker.pc == some (.woken false)
  | _ => false

def taken (p : ThreadPool) (e : Event) : Option (Task × Nat) :=
  if takes p e then top p.queue else none

/-- The priority requested for an entry of the queue. -/
def requested (self : Ledger) (entry : Task × Nat) : Option Nat :=
  (self.items.find? fun item => item.1 == entry).map Prod.snd

/-- The priority requested for the task an event puts into the queue. -/
def wanted (self : Ledger) : Event → Nat
  | .start _ priority _ => priority
  | .reserve _ _ => ((top self.pool.queue).bind self.requested).getD 0
  | _ => 0

/-- The items left when the entry of an event has been taken. -/
def left (self : Ledger) (e : Event) : List ((Task × Nat) × Nat) :=
  (taken self.pool e).elim self.items fun entry => self.items.eraseP fun item => item.1 == entry

/-- The items an event puts into the queue behind those that are left. -/
def added (self : Ledger) (e : Event) : List ((Task × Nat) × Nat) :=
  (((self.pool.step e).elim [] queue).drop (self.left e).length).map fun entry =>
    (entry, self.wanted e)

def step (self : Ledger) (e : Event) : Option Ledger :=
  (self.pool.step e).map fun pool => { pool := pool, items := self.left e ++ self.added e }

/-- The runs of a pool from its construction on, with its ledger. -/
def system : System Ledger Event := .machine (∃ count, · = ⟨ThreadPool.create count, []⟩) step

end Ledger
end CkCore
