import CkCore.Model.Waiting

namespace CkCore
open Lib

namespace ThreadPool

def beginWait (self : ThreadPool) : ThreadPool :=
  { self with exiting := true, taskReady := self.taskReady.signalAll }

def takeThreads (self : ThreadPool) : ThreadPool := { self with allThreads := [] }

def endWait (self : ThreadPool) : ThreadPool :=
  { self with retThreads := [], polThreads := 0, idlThreads := 0, exiting := false }

end ThreadPool

/-- Where a call of wait is with the first of its threads: before Thread::wait,
asleep in it until the thread's cleanup signals thread_done_, behind it, or asleep
in the kill of the destructor, which finds a thread that runs again. -/
inductive JoinPlace where
  | ahead
  | waiting (signalled : Bool)
  | back
  | killing (signalled : Bool)
deriving DecidableEq, Repr

def JoinPlace.signal : JoinPlace → JoinPlace
  | .waiting _ => .waiting true
  | .killing _ => .killing true
  | place => place

/-- A call of ThreadPool::wait in progress, with the threads of its copy of
all_threads_ it has yet to wait for and delete. -/
structure PoolCall where
  place : JoinPlace
  batch : List Nat
deriving DecidableEq, Repr

def PoolCall.signal (self : PoolCall) (worker : Nat) : PoolCall :=
  if self.batch.head? = some worker then { self with place := self.place.signal } else self

/-- A pool and the calls of ThreadPool::wait in progress. -/
structure PoolWait where
  pool : ThreadPool
  waits : List PoolCall
deriving DecidableEq, Repr

namespace PoolWait

def create (count : Nat) : PoolWait := ⟨.create count, []⟩

/-- The head of the loop of wait, and what is behind the loop. -/
def loopHead (self : PoolWait) (call : Nat) : PoolWait :=
  if self.pool.allThreads = [] then
    { pool := self.pool.endWait, waits := self.waits.eraseIdx call }
  else
    { pool := self.pool.takeThreads, waits := self.waits.set call ⟨.ahead, self.pool.allThreads⟩ }

def wait (self : PoolWait) : PoolWait :=
  loopHead { pool := self.pool.beginWait, waits := self.waits ++ [⟨.ahead, []⟩] } self.waits.length

/-- The steps of the pool, and those of threads outside it that call wait: the
section up to the first unlock, the sections under the mutex of the thread the
call waits for and deletes, and the section from a relock on. -/
inductive Event where
  | pool (event : ThreadPool.Event)
  | wait
  | join (call : Nat)
  | relock (call : Nat)
deriving DecidableEq, Repr

/-- The cleanup of a worker signals who waits for it. -/
def signalled (self : PoolWait) : ThreadPool.Event → List PoolCall
  | .cleanup worker => self.waits.map fun c => c.signal worker
  | _ => self.waits

/-- What a call of wait does next with a thread. Thread::wait does not look at
running_ again when it has been woken. The destructor kills a thread that runs;
where the cancelled thread comes to a cancellation point before its end the
process is aborted, and no step follows. -/
def join (self : PoolWait) (call thread : Nat) (place : JoinPlace) (rest : List Nat) :
    Option PoolWait :=
  let goto (place : JoinPlace) : PoolWait :=
    { self with waits := self.waits.set call ⟨place, thread :: rest⟩ }
  let delete (pool : ThreadPool) : PoolWait :=
    { pool := pool, waits := self.waits.set call ⟨.ahead, rest⟩ }
  match self.pool.workers[thread]? with
  | none => none
  | some worker =>
    match place with
    | .ahead => some (goto (if worker.running then .waiting false else .back))
    | .waiting signalled => if signalled then some (goto .back) else none
    | .back => some (if worker.running then goto (.killing false) else delete self.pool)
    | .killing signalled =>
      if signalled then some (delete (self.pool.put thread { worker with running := false }))
      else none

def step (self : PoolWait) : Event → Option PoolWait
  | .pool event =>
    (self.pool.step event).map fun pool => { pool := pool, waits := self.signalled event }
  | .wait => some self.wait
  | .join call =>
    match self.waits[call]? with
    | some ⟨place, thread :: rest⟩ => self.join call thread place rest
    | _ => none
  | .relock call =>
    match self.waits[call]? with
    | some ⟨_, []⟩ => some (self.loopHead call)
    | _ => none

/-- The step is the last one of a call of wait. -/
def returns (self : PoolWait) : Event → Prop
  | .wait | .relock _ => self.pool.allThreads = []
  | _ => False

def system : System PoolWait Event := .machine (∃ count, · = create count) step

end PoolWait
end CkCore
