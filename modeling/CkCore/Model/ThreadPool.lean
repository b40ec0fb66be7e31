import CkCore.Lib.Memory
import CkCore.Lib.System

namespace CkCore
open Lib

/-- The counters of a wait condition; the threads inside wait are those of the
program that uses it. -/
structure WaitCondition where
  waiters : Nat
  wakeups : Nat
deriving DecidableEq, Repr

namespace WaitCondition

def enter (self : WaitCondition) : WaitCondition :=
  { self with waiters := addWord self.waiters 1 }

/-- A waiter leaves because pthread_cond_wait returned zero and a wake-up is
recorded. -/
def wake (self : WaitCondition) : WaitCondition :=
  { waiters := subWord self.waiters 1, wakeups := subWord self.wakeups 1 }

/-- A waiter leaves because its time is over. -/
def expire (self : WaitCondition) : WaitCondition :=
  { self with waiters := subWord self.waiters 1 }

def signalOne (self : WaitCondition) : WaitCondition :=
  { self with wakeups := min (addWord self.wakeups 1) self.waiters }

theorem expire_wakeups (self : WaitCondition) : self.expire.wakeups = self.wakeups := by
  obtain ⟨waiters, wakeups⟩ := self
  exact Eq.refl wakeups

end WaitCondition

/-- The address of a task object. -/
abbrev Task := Nat

/-- Where a worker is: `starting` before run has locked the pool, `waiting` in
the wait of its condition, `woken` on the way from there to the pool's mutex,
`returned` between run and cleanup. A thread that could not be created stays
`unborn`. -/
inductive WorkerPc where
  | unborn
  | starting
  | executing
  | waiting (timeout : Nat)
  | woken (expired : Bool)
  | returned
  | stopped
deriving DecidableEq, Repr

structure Worker where
  task : Option Task
  running : Bool
  pc : WorkerPc
deriving DecidableEq, Repr

/-- Thread::start; `created` is what pthread_create does. -/
def Worker.start (self : Worker) (created : Bool) : Bool × Worker :=
  if self.running then (false, self)
  else if created then (true, { self with running := true, pc := .starting })
  else (false, self)

/-- A pool with all workers it has made, by number. The back of ret_threads_ is
the front of the list. Three fields are a record: the tasks start and start_now
have accepted, those that have run, and the hand-overs to idle workers that have
not left wait yet. -/
structure ThreadPool where
  workers : List Worker
  queue : List (Task × Nat)
  allThreads : List Nat
  retThreads : List Nat
  accepted : List Task
  executed : List Task
  promised : Nat
  exiting : Bool
  retTimeout : Nat
  maxThreads : Nat
  taskReady : WaitCondition
  polThreads : Nat
  resThreads : Nat
  idlThreads : Nat
deriving DecidableEq, Repr

namespace ThreadPool

def threadRetireTimeout : Nat := 20000

/-- The timeout that makes a wait unlimited. -/
def unlimited : Nat := word - 1

/-- The constructor; `count` is the ideal number of threads of the system. -/
def create (count : Nat) : ThreadPool where
  exiting := false
  maxThreads := count
  polThreads := 0
  resThreads := 0
  idlThreads := 0
  taskReady := ⟨0, 0⟩
  allThreads := []
  retThreads := []
  retTimeout := threadRetireTimeout
  queue := []
  workers := []
  accepted := []
  executed := []
  promised := 0

def activeThreads (self : ThreadPool) : Nat :=
  subWord (subWord (addWord (toWord self.allThreads.length) self.resThreads)
    (toWord self.retThreads.length)) self.idlThreads

def overworking (self : ThreadPool) : Bool := self.activeThreads > self.maxThreads

/-- The order of the entries: pairs of address and priority. -/
def less (a b : Task × Nat) : Bool := a.1 < b.1 || (a.1 == b.1 && a.2 < b.2)

/-- The greatest entry of the queue. -/
def top : List (Task × Nat) → Option (Task × Nat)
  | [] => none
  | entry :: rest =>
    match top rest with
    | none => some entry
    | some best => if less entry best then some best else some entry

def push (self : ThreadPool) (entry : Task × Nat) : ThreadPool :=
  { self with queue := self.queue ++ [entry] }

def pop (self : ThreadPool) (entry : Task × Nat) : ThreadPool :=
  { self with queue := self.queue.erase entry }

def enqueue (self : ThreadPool) (task : Task) (priority : Nat) : ThreadPool :=
  { self.push (task, priority) with taskReady := self.taskReady.signalOne }

def spawn (self : ThreadPool) (task : Task) (created : Bool) : Bool × ThreadPool :=
  let (started, thread) := Worker.start ⟨some task, false, .unborn⟩ created
  (started, { self with
    allThreads := self.allThreads ++ [self.workers.length]
    polThreads := addWord self.polThreads 1
    workers := self.workers ++ [thread] })

/-- The back of ret_threads_ gets the task; what start returns is not looked at. -/
def restart (self : ThreadPool) (worker : Nat) (rest : List Nat) (task : Task)
    (created : Bool) : ThreadPool :=
  let self := { self with retThreads := rest, polThreads := addWord self.polThreads 1 }
  match self.workers[worker]? with
  | none => self
  | some thread =>
    { self with
      workers := self.workers.set worker (({ thread with task := some task }).start created).2 }

def tryStart (self : ThreadPool) (task : Task) (created : Bool) : Bool × ThreadPool :=
  if self.activeThreads ≥ self.maxThreads then (false, self)
  else if self.idlThreads > 0 then
    let self := { self with
      idlThreads := subWord self.idlThreads 1, promised := self.promised + 1 }
    (true, self.enqueue task 0)
  else
    match self.retThreads with
    | worker :: rest => (true, self.restart worker rest task created)
    | [] => self.spawn task created

/-- Starting no task at all is refused. -/
def start (self : ThreadPool) (task : Option Task) (priority : Nat) (created : Bool) :
    Bool × ThreadPool :=
  match task with
  | none => (false, self)
  | some task =>
    match self.tryStart task created with
    | (true, self) => (true, { self with accepted := self.accepted ++ [task] })
    | (false, self) =>
      (true, { self.enqueue task priority with accepted := self.accepted ++ [task] })

/-- start_now after its check without the lock. -/
def startNow (self : ThreadPool) (task : Option Task) (created : Bool) : Bool × ThreadPool :=
  match task with
  | none => (false, self)
  | some task =>
    match self.tryStart task created with
    | (true, self) => (true, { self with accepted := self.accepted ++ [task] })
    | (false, self) => (false, self)

def setReserved (self : ThreadPool) (numThreads : Nat) : ThreadPool :=
  { self with resThreads := if numThreads > self.maxThreads then self.maxThreads else numThreads }

def reserve (self : ThreadPool) (numThreads : Nat) (created : Bool) : ThreadPool :=
  let startTask : Bool := numThreads < self.resThreads
  let self := self.setReserved numThreads
  match startTask, top self.queue with
  | true, some entry =>
    match (self.pop entry).tryStart entry.1 created with
    | (true, self) => self
    | (false, self) => self.push entry
  | _, _ => self

def setRetireTimeout (self : ThreadPool) (timeout : Nat) : ThreadPool :=
  { self with retTimeout := timeout }

def put (self : ThreadPool) (worker : Nat) (thread : Worker) : ThreadPool :=
  { self with workers := self.workers.set worker thread }

section
variable (self : ThreadPool) (worker : Nat) (thread : Worker)

@[simp] theorem put_workers :
    (self.put worker thread).workers = self.workers.set worker thread := rfl
@[simp] theorem put_retThreads : (self.put worker thread).retThreads = self.retThreads := rfl
@[simp] theorem put_queue : (self.put worker thread).queue = self.queue := rfl
@[simp] theorem put_accepted : (self.put worker thread).accepted = self.accepted := rfl
@[simp] theorem put_executed : (self.put worker thread).executed = self.executed := rfl

end

def retire (self : ThreadPool) (worker : Nat) (thread : Worker) : ThreadPool :=
  { self with
    retThreads := worker :: self.retThreads
    polThreads := subWord self.polThreads 1 }.put worker { thread with pc := .returned }

/-- What run does behind the task loop, up to the next unlock. -/
def afterTasks (self : ThreadPool) (worker : Nat) (thread : Worker) : ThreadPool :=
  if self.exiting then
    { self with polThreads := subWord self.polThreads 1 }.put worker { thread with pc := .returned }
  else if self.overworking then self.retire worker thread
  else
    { self with
      idlThreads := addWord self.idlThreads 1
      polThreads := subWord self.polThreads 1
      taskReady := self.taskReady.enter }.put worker { thread with pc := .waiting self.retTimeout }

/-- The head of the task loop. -/
def loopHead (self : ThreadPool) (worker : Nat) (thread : Worker) : ThreadPool :=
  match thread.task with
  | some _ => self.put worker { thread with pc := .executing }
  | none => self.afterTasks worker thread

/-- A worker without a task takes the greatest entry, if there is one. -/
def fetch (self : ThreadPool) (worker : Nat) (thread : Worker) : ThreadPool :=
  match top self.queue with
  | some entry => (self.pop entry).loopHead worker { thread with task := some entry.1 }
  | none => self.loopHead worker thread

/-- The locked section behind the execution of a task. -/
def finish (self : ThreadPool) (worker : Nat) (thread : Worker) (task : Task) : ThreadPool :=
  let self := { self with executed := self.executed ++ [task] }
  let thread := { thread with task := none }
  if self.overworking then self.afterTasks worker thread else self.fetch worker thread

/-- The locked section behind a wait. -/
def resume (self : ThreadPool) (worker : Nat) (thread : Worker) (expired : Bool) : ThreadPool :=
  let self := { self with polThreads := addWord self.polThreads 1 }
  if expired then { self with idlThreads := subWord self.idlThreads 1 }.retire worker thread
  else { self with promised := self.promised - 1 }.fetch worker thread

inductive Event where
  | start (task : Option Task) (priority : Nat) (created : Bool)
  | startNow (task : Option Task) (created : Bool)
  | startNowChoked (task : Option Task)
  | reserve (numThreads : Nat) (created : Bool)
  | setRetireTimeout (timeout : Nat)
  | enter (worker : Nat)
  | finish (worker : Nat)
  | wake (worker : Nat)
  | expire (worker : Nat)
  | resume (worker : Nat)
  | cleanup (worker : Nat)
deriving DecidableEq, Repr

/-- The step of a worker, by the point its thread is at. -/
def workerStep (self : ThreadPool) (worker : Nat)
    (next : Worker → Option ThreadPool) : Option ThreadPool :=
  match self.workers[worker]? with
  | none => none
  | some thread => next thread

/-- The sections run under the mutexes, in any order. -/
def step (self : ThreadPool) : Event → Option ThreadPool
  | .start task priority created => some (self.start task priority created).2
  | .startNow task created => some (self.startNow task created).2
  | .startNowChoked _ => if self.activeThreads > self.maxThreads then some self else none
  | .reserve numThreads created => some (self.reserve numThreads created)
  | .setRetireTimeout timeout => some (self.setRetireTimeout timeout)
  | .enter worker => self.workerStep worker fun thread =>
    if thread.pc = .starting then some (self.loopHead worker thread) else none
  | .finish worker => self.workerStep worker fun thread =>
    match thread.pc, thread.task with
    | .executing, some task => some (self.finish worker thread task)
    | _, _ => none
  | .wake worker => self.workerStep worker fun thread =>
    match thread.pc with
    | .waiting _ =>
      if self.taskReady.wakeups = 0 then none
      else some ({ self with taskReady := self.taskReady.wake }.put worker
        { thread with pc := .woken false })
    | _ => none
  | .expire worker => self.workerStep worker fun thread =>
    match thread.pc with
    | .waiting timeout =>
      if timeout = unlimited then none
      else some ({ self with taskReady := self.taskReady.expire }.put worker
        { thread with pc := .woken true })
    | _ => none
  | .resume worker => self.workerStep worker fun thread =>
    match thread.pc with
    | .woken expired => some (self.resume worker thread expired)
    | _ => none
  | .cleanup worker => self.workerStep worker fun thread =>
    match thread.pc with
    | .returned => some (self.put worker { thread with running := false, pc := .stopped })
    | _ => none

/-- The runs of a pool from its construction on. -/
def system : System ThreadPool Event := .machine (∃ count, · = create count) step

end ThreadPool
end CkCore
