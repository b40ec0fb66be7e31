import CkCore.Proofs.PoolTasks

namespace CkCore.Proofs.PoolCount
open Lib ThreadPool

/-- The places a worker is counted in. -/
inductive Place where
  | busy
  | waiting
  | roused
  | expired
  | done
deriving DecidableEq

def place : WorkerPc → Place
  | .unborn | .starting | .executing => .busy
  | .waiting _ => .waiting
  | .woken false => .roused
  | .woken true => .expired
  | .returned | .stopped => .done

def tally (p : ThreadPool) (k : Place) : Nat := p.workers.countP fun x => place x.pc == k

/-- The workers that are inside the wait of task_ready_. -/
def inside (p : ThreadPool) : Nat :=
  p.workers.countP fun x => place x.pc == .waiting || place x.pc == .roused ||
    place x.pc == .expired

/-- The workers inside the wait that try_start has promised no task. -/
def idle (p : ThreadPool) : Nat := inside p - p.promised

/-- The counters mean what they are taken for: the idle count stays below the
idle workers, no subtraction wraps, and active_threads counts the reserved
threads and the workers that are neither idle nor retired. -/
structure Counted (p : ThreadPool) : Prop where
  idle : p.idlThreads ≤ idle p
  sum : p.retThreads.length + p.idlThreads ≤ p.allThreads.length + p.resThreads
  inside : PoolCount.idle p + p.retThreads.length ≤ p.allThreads.length
  active : p.activeThreads =
    p.resThreads + (p.allThreads.length - PoolCount.idle p - p.retThreads.length)

/-- Some worker waits without a wake-up recorded for it. -/
def unpromised (p : ThreadPool) : Prop := p.taskReady.wakeups < p.taskReady.waiters

/-- A hand-over to an idle worker finds one whose wake-up is still to come. -/
def served (p : ThreadPool) : Prop :=
  p.activeThreads < p.maxThreads → 0 < p.idlThreads → unpromised p

/-- The steps that keep the idle count and the wake-ups together. -/
def paired (p : ThreadPool) : Event → Prop
  | .start (some _) _ _ => served p ∧ (p.activeThreads ≥ p.maxThreads → ¬ unpromised p)
  | .startNow (some _) _ => served p
  | .reserve numThreads _ =>
    numThreads < p.resThreads → p.queue ≠ [] → served (p.setReserved numThreads)
  | .expire _ => unpromised p
  | _ => True

instance (p : ThreadPool) : Decidable (unpromised p) := inferInstanceAs (Decidable (_ < _))

instance (p : ThreadPool) : Decidable (served p) :=
  inferInstanceAs (Decidable (_ → _ → unpromised p))

instance (p : ThreadPool) : DecidablePred (paired p)
  | .start (some _) _ _ => inferInstanceAs (Decidable (served p ∧ (_ → ¬ unpromised p)))
  | .startNow (some _) _ => inferInstanceAs (Decidable (served p))
  | .reserve numThreads _ =>
    inferInstanceAs (Decidable (_ → _ → served (p.setReserved numThreads)))
  | .expire _ => inferInstanceAs (Decidable (unpromised p))
  | .start none _ _ | .startNow none _ | .startNowChoked _ | .setRetireTimeout _ | .enter _
  | .finish _ | .wake _ | .resume _ | .cleanup _ => isTrue trivial

/-- Every worker is in all_threads_, no sum of counts wraps, and the pool is not
being waited for. -/
structure Sized (p : ThreadPool) : Prop where
  all : p.allThreads.length = p.workers.length
  few : p.workers.length ≤ p.maxThreads
  res : p.resThreads ≤ p.maxThreads
  small : 2 * p.maxThreads < word
  calm : p.exiting = false

/-- What the counters have to do with the workers. -/
structure Linked (p : ThreadPool) : Prop extends Sized p where
  waiters : p.taskReady.waiters = tally p .waiting
  recorded : p.taskReady.wakeups ≤ p.taskReady.waiters
  promised : p.promised = p.taskReady.wakeups + tally p .roused
  idle : p.idlThreads + p.taskReady.wakeups = tally p .waiting + tally p .expired
  retired : p.retThreads.length ≤ tally p .done

/-- Only one worker changes; the counters may. -/
structure Moved (p p' : ThreadPool) (w : Nat) (y : Worker) : Prop where
  workers : p'.workers = p.workers.set w y
  allThreads : p'.allThreads = p.allThreads
  maxThreads : p'.maxThreads = p.maxThreads
  resThreads : p'.resThreads = p.resThreads
  exiting : p'.exiting = p.exiting

section
variable {p p' : ThreadPool} {w : Nat} {x y : Worker} {j k : Place}

theorem Moved.sized (hm : Moved p p' w y) (h : Sized p) : Sized p' := by
  have hlength : p'.workers.length = p.workers.length := by rw [hm.workers, List.length_set]
  refine ⟨?_, ?_, ?_, ?_, ?_⟩
  · rw [hm.allThreads, hlength]
    exact h.all
  · rw [hm.maxThreads, hlength]
    exact h.few
  · rw [hm.maxThreads, hm.resThreads]
    exact h.res
  · rw [hm.maxThreads]
    exact h.small
  · rw [hm.exiting]
    exact h.calm

theorem Moved.census (hm : Moved p p' w y) (hw : p.workers[w]? = some x) (f : Worker → Bool) :
    p'.workers.countP f + (f x).toNat = p.workers.countP f + (f y).toNat := by
  rw [hm.workers]
  exact census_set f hw y

theorem Moved.tally (hm : Moved p p' w y) (hw : p.workers[w]? = some x) (hx : place x.pc = j)
    (hy : place y.pc = k) (i : Place) :
    tally p' i + (j == i).toNat = tally p i + (k == i).toNat := by
  have h := hm.census hw fun z => place z.pc == i
  simp only [hx, hy] at h
  exact h

theorem Moved.self (hm : Moved p p' w y) (hw : p.workers[w]? = some x) :
    p'.workers[w]? = some y := by
  rw [hm.workers, List.getElem?_set_self (List.getElem?_eq_some_iff.mp hw).1]

theorem Moved.others (hm : Moved p p' w y) {z : Worker} (hz : z ∈ p'.workers) :
    z ∈ p.workers ∨ z = y := by
  rw [hm.workers] at hz
  exact List.mem_or_eq_of_mem_set hz

/-- What else the state has that a worker moves in does not matter. -/
theorem Moved.frame {p₀ : ThreadPool} (hm : Moved p₀ p' w y) (hworkers : p₀.workers = p.workers)
    (hall : p₀.allThreads = p.allThreads) (hmax : p₀.maxThreads = p.maxThreads)
    (hres : p₀.resThreads = p.resThreads) (hexit : p₀.exiting = p.exiting) : Moved p p' w y :=
  ⟨hworkers ▸ hm.workers, hm.allThreads.trans hall, hm.maxThreads.trans hmax,
    hm.resThreads.trans hres, hm.exiting.trans hexit⟩

theorem tally_pos (hw : p.workers[w]? = some x) (hx : place x.pc = k) : 0 < tally p k :=
  census_pos hw (by simp [hx])

/-- No worker is counted in two places. -/
theorem tally_sum (p : ThreadPool) :
    tally p .waiting + tally p .roused + tally p .expired + tally p .done ≤ p.workers.length := by
  simp only [tally]
  induction p.workers with
  | nil => exact Nat.le_refl 0
  | cons x workers ih =>
    simp only [List.countP_cons, List.length_cons]
    cases place x.pc <;> simp <;> omega

theorem inside_eq (p : ThreadPool) :
    inside p = tally p .waiting + tally p .roused + tally p .expired := by
  simp only [inside, tally]
  induction p.workers with
  | nil => rfl
  | cons x workers ih =>
    simp only [List.countP_cons, ih]
    cases place x.pc <;> simp <;> omega

theorem Linked.idle_eq (h : Linked p) : PoolCount.idle p = p.idlThreads := by
  have h1 := h.promised
  have h2 := h.idle
  rw [PoolCount.idle, inside_eq]
  omega

/-- No worker is both idle and retired. -/
theorem Linked.sum (h : Linked p) :
    p.idlThreads + p.retThreads.length ≤ p.allThreads.length := by
  have h1 := h.idle
  have h2 := h.recorded
  have h3 := h.waiters
  have h4 := h.retired
  have h5 := h.all
  have h6 := tally_sum p
  omega

/-- With fewer idle and retired workers than threads no operation of active_threads
wraps. -/
theorem active_plain (hsum : p.idlThreads + p.retThreads.length ≤ p.allThreads.length)
    (hsmall : p.allThreads.length + p.resThreads < word) :
    p.activeThreads =
      p.resThreads + (p.allThreads.length - p.idlThreads - p.retThreads.length) := by
  have h1 : toWord p.allThreads.length = p.allThreads.length := toWord_nat (by omega)
  have h2 : toWord p.retThreads.length = p.retThreads.length := toWord_nat (by omega)
  have h3 : addWord p.allThreads.length p.resThreads = p.allThreads.length + p.resThreads :=
    addWord_eq hsmall
  have h4 : subWord (p.allThreads.length + p.resThreads) p.retThreads.length =
      p.allThreads.length + p.resThreads - p.retThreads.length :=
    subWord_eq hsmall (by omega)
  have h5 : subWord (p.allThreads.length + p.resThreads - p.retThreads.length) p.idlThreads =
      p.allThreads.length + p.resThreads - p.retThreads.length - p.idlThreads :=
    subWord_eq (by omega) (by omega)
  rw [activeThreads, h1, h2, h3, h4, h5]
  omega

theorem Linked.active (h : Linked p) :
    p.activeThreads =
      p.resThreads + (p.allThreads.length - p.idlThreads - p.retThreads.length) := by
  have hall : p.allThreads.length ≤ p.maxThreads := h.all ▸ h.few
  have hres := h.res
  have hsmall := h.small
  exact active_plain h.sum (by omega)

theorem Linked.counted (h : Linked p) : Counted p := by
  have hsum := h.sum
  have hidle := h.idle_eq
  refine ⟨Nat.le_of_eq hidle.symm, ?_, ?_, ?_⟩
  · omega
  · rw [hidle]
    exact hsum
  · rw [hidle]
    exact h.active

/-- The records of the tasks and the queue count for nothing. -/
theorem Linked.frame (h : Linked p) (accepted executed : List Task) (queue : List (Task × Nat)) :
    Linked { p with accepted := accepted, executed := executed, queue := queue } :=
  ⟨⟨h.all, h.few, h.res, h.small, h.calm⟩, h.waiters, h.recorded, h.promised, h.idle, h.retired⟩

/-- One worker goes from a place to a place, and the counters go with it. -/
theorem Linked.moved (h : Linked p) (hm : Moved p p' w y) (hw : p.workers[w]? = some x)
    (hx : place x.pc = j) (hy : place y.pc = k)
    (waiters : p'.taskReady.waiters + (j == .waiting).toNat =
      p.taskReady.waiters + (k == .waiting).toNat)
    (recorded : p'.taskReady.wakeups ≤ p'.taskReady.waiters)
    (promised : p'.promised + p.taskReady.wakeups + (j == .roused).toNat =
      p.promised + p'.taskReady.wakeups + (k == .roused).toNat)
    (idle : p'.idlThreads + p'.taskReady.wakeups + (j == .waiting).toNat + (j == .expired).toNat =
      p.idlThreads + p.taskReady.wakeups + (k == .waiting).toNat + (k == .expired).toNat)
    (retired : p'.retThreads.length + (j == .done).toNat ≤
      p.retThreads.length + (k == .done).toNat) : Linked p' := by
  have hwaiting := hm.tally hw hx hy .waiting
  have hroused := hm.tally hw hx hy .roused
  have hexpired := hm.tally hw hx hy .expired
  have hdone := hm.tally hw hx hy .done
  have h1 := h.waiters
  have h2 := h.promised
  have h3 := h.idle
  have h4 := h.retired
  refine ⟨hm.sized h.toSized, ?_, recorded, ?_, ?_, ?_⟩ <;> omega

/-- There is room for more in every count. -/
theorem Linked.room (h : Linked p) :
    p.idlThreads + 1 < word ∧ p.taskReady.waiters + 1 < word ∧ p.taskReady.wakeups + 1 < word := by
  have h1 := h.sum
  have h2 := h.all
  have h3 := h.few
  have h4 := h.small
  have h5 := h.waiters
  have h6 := h.recorded
  have h7 := tally_sum p
  have hword : word = 4294967296 := rfl
  omega

theorem Linked.put_busy (h : Linked p) (hw : p.workers[w]? = some x) (hx : place x.pc = .busy)
    (hy : place y.pc = .busy) : Linked (p.put w y) :=
  h.moved ⟨rfl, rfl, rfl, rfl, rfl⟩ hw hx hy rfl h.recorded rfl rfl (Nat.le_refl _)

/-- A busy worker retires, or is counted as idle and starts to wait. -/
theorem afterTasks_linked (h : Linked p) (hw : p.workers[w]? = some x)
    (hx : place x.pc = .busy) (y : Worker) : Linked (p.afterTasks w y) := by
  unfold afterTasks
  rw [if_neg (by rw [h.calm]; decide)]
  split
  · exact h.moved ⟨rfl, rfl, rfl, rfl, rfl⟩ hw hx rfl rfl h.recorded rfl rfl (Nat.le_refl _)
  · obtain ⟨hidl, hwaiters, _⟩ := h.room
    have hidle : addWord p.idlThreads 1 = p.idlThreads + 1 := addWord_eq hidl
    have henter : addWord p.taskReady.waiters 1 = p.taskReady.waiters + 1 := addWord_eq hwaiters
    simp only [WaitCondition.enter, hidle, henter]
    refine h.moved ⟨rfl, rfl, rfl, rfl, rfl⟩ hw hx rfl rfl (Nat.le_succ_of_le h.recorded) rfl ?_
      (Nat.le_refl _)
    exact Nat.add_right_comm p.idlThreads 1 p.taskReady.wakeups

theorem loopHead_linked (h : Linked p) (hw : p.workers[w]? = some x)
    (hx : place x.pc = .busy) (y : Worker) : Linked (p.loopHead w y) := by
  unfold loopHead
  split
  · exact h.put_busy hw hx rfl
  · exact afterTasks_linked h hw hx y

theorem fetch_linked (h : Linked p) (hw : p.workers[w]? = some x)
    (hx : place x.pc = .busy) (y : Worker) : Linked (p.fetch w y) := by
  unfold fetch
  split
  · next entry htop =>
    have hpop : Linked (p.pop entry) := h.frame p.accepted p.executed (p.queue.erase entry)
    exact loopHead_linked hpop hw hx _
  · exact loopHead_linked h hw hx y

theorem enter_linked (h : Linked p) (hs : p.step (.enter w) = some p') : Linked p' := by
  obtain ⟨x, hw, hpc, rfl⟩ := step_enter hs
  have hx : place x.pc = .busy := by rw [hpc]; rfl
  exact loopHead_linked h hw hx x

theorem finish_linked (h : Linked p) (hs : p.step (.finish w) = some p') : Linked p' := by
  obtain ⟨x, task, hw, hpc, _, rfl⟩ := step_finish hs
  have hx : place x.pc = .busy := by rw [hpc]; rfl
  have hrecord : Linked { p with executed := p.executed ++ [task] } :=
    h.frame p.accepted (p.executed ++ [task]) p.queue
  simp only [ThreadPool.finish]
  split
  · exact afterTasks_linked hrecord hw hx _
  · exact fetch_linked hrecord hw hx _

/-- A wake-up is taken back from the recorded ones by the worker it wakes. -/
theorem wake_linked (h : Linked p) (hs : p.step (.wake w) = some p') : Linked p' := by
  obtain ⟨x, timeout, hw, hpc, hwake, rfl⟩ := step_wake hs
  have hx : place x.pc = .waiting := by rw [hpc]; rfl
  obtain ⟨_, hwaiters, hwakeups⟩ := h.room
  have hrecorded := h.recorded
  have hleave : subWord p.taskReady.waiters 1 = p.taskReady.waiters - 1 :=
    subWord_eq (by omega) (by omega)
  have hspend : subWord p.taskReady.wakeups 1 = p.taskReady.wakeups - 1 :=
    subWord_eq (by omega) (by omega)
  have hwaiting : p.taskReady.waiters - 1 + 1 = p.taskReady.waiters := by omega
  have hstill : p.taskReady.wakeups - 1 ≤ p.taskReady.waiters - 1 := by omega
  have hpromised : p.promised + p.taskReady.wakeups + 0 =
      p.promised + (p.taskReady.wakeups - 1) + 1 := by omega
  have hidle : p.idlThreads + (p.taskReady.wakeups - 1) + 1 =
      p.idlThreads + p.taskReady.wakeups := by omega
  simp only [WaitCondition.wake, hleave, hspend]
  exact h.moved (k := .roused) ⟨rfl, rfl, rfl, rfl, rfl⟩ hw hx rfl hwaiting hstill hpromised hidle
    (Nat.le_refl _)

/-- A wait that ends by time keeps the wake-ups recorded for the others. -/
theorem expire_linked (h : Linked p) (hfree : unpromised p) (hs : p.step (.expire w) = some p') :
    Linked p' := by
  obtain ⟨x, timeout, hw, hpc, rfl⟩ := step_expire hs
  have hx : place x.pc = .waiting := by rw [hpc]; rfl
  obtain ⟨_, hwaiters, _⟩ := h.room
  unfold unpromised at hfree
  have hleave : subWord p.taskReady.waiters 1 = p.taskReady.waiters - 1 :=
    subWord_eq (by omega) (by omega)
  have hwaiting : p.taskReady.waiters - 1 + 1 = p.taskReady.waiters := by omega
  have hstill : p.taskReady.wakeups ≤ p.taskReady.waiters - 1 := by omega
  simp only [WaitCondition.expire, hleave]
  exact h.moved (k := .expired) ⟨rfl, rfl, rfl, rfl, rfl⟩ hw hx rfl hwaiting hstill rfl rfl
    (Nat.le_refl _)

/-- What is known of a worker before a section of its own does not matter. -/
theorem put_put (p : ThreadPool) (w : Nat) (x y : Worker) : (p.put w x).put w y = p.put w y := by
  simp only [put, List.set_set]

theorem afterTasks_put (p : ThreadPool) (w : Nat) (x y : Worker) :
    (p.put w x).afterTasks w y = p.afterTasks w y := by
  have hsame : (p.put w x).overworking = p.overworking := rfl
  simp only [afterTasks, retire, hsame]
  simp only [put, List.set_set]

theorem fetch_put (p : ThreadPool) (w : Nat) (x y : Worker) :
    (p.put w x).fetch w y = p.fetch w y := by
  simp only [fetch, put_queue]
  cases top p.queue with
  | some entry => exact put_put (p.pop entry) w x _
  | none =>
    simp only [loopHead]
    cases y.task with
    | some task => exact put_put p w x _
    | none => exact afterTasks_put p w x y

/-- A worker whose time is over takes itself off the idle count; one that was
woken was taken off when it was promised its task. -/
theorem resume_linked (h : Linked p) (hs : p.step (.resume w) = some p') : Linked p' := by
  obtain ⟨x, expired, hw, hpc, rfl⟩ := step_resume hs
  cases expired with
  | true =>
    have hx : place x.pc = .expired := by rw [hpc]; rfl
    have hpos := tally_pos hw hx
    have hbalance := h.idle
    have hrecorded := h.recorded
    have hwaiters := h.waiters
    obtain ⟨hidl, _⟩ := h.room
    have hleave : subWord p.idlThreads 1 = p.idlThreads - 1 := subWord_eq (by omega) (by omega)
    have hidle : p.idlThreads - 1 + p.taskReady.wakeups + 0 + 1 =
        p.idlThreads + p.taskReady.wakeups := by omega
    simp only [resume, if_true, hleave, retire]
    exact h.moved (k := .done) ⟨rfl, rfl, rfl, rfl, rfl⟩ hw hx rfl rfl h.recorded rfl hidle
      (Nat.le_refl _)
  | false =>
    have hx : place x.pc = .roused := by rw [hpc]; rfl
    have hpos := tally_pos hw hx
    have hrecord := h.promised
    have hpromised : p.promised - 1 + p.taskReady.wakeups + 1 =
        p.promised + p.taskReady.wakeups := by omega
    have hbusy : Linked ({ p with
        polThreads := addWord p.polThreads 1
        promised := p.promised - 1 }.put w { x with pc := .executing }) :=
      h.moved (k := .busy) ⟨rfl, rfl, rfl, rfl, rfl⟩ hw hx rfl rfl h.recorded hpromised rfl
        (Nat.le_refl _)
    have hin : w < p.workers.length := (List.getElem?_eq_some_iff.mp hw).1
    have hself : (p.workers.set w { x with pc := .executing })[w]? =
        some { x with pc := .executing } := List.getElem?_set_self hin
    have hfetch := fetch_linked hbusy hself rfl x
    rw [fetch_put] at hfetch
    exact hfetch

theorem cleanup_linked (h : Linked p) (hs : p.step (.cleanup w) = some p') : Linked p' := by
  obtain ⟨x, hw, hpc, rfl⟩ := step_cleanup hs
  have hx : place x.pc = .done := by rw [hpc]; rfl
  exact h.moved (k := .done) ⟨rfl, rfl, rfl, rfl, rfl⟩ hw hx rfl rfl h.recorded rfl rfl
    (Nat.le_refl _)

/-- A signal is recorded for a waiter that has none, and changes nothing else. -/
theorem signal_eq (h : Linked p) : p.taskReady.signalOne =
    { p.taskReady with wakeups := min (p.taskReady.wakeups + 1) p.taskReady.waiters } := by
  obtain ⟨_, _, hroom⟩ := h.room
  rw [WaitCondition.signalOne, addWord_eq hroom]

/-- The task of a refused start waits for a busy worker. -/
theorem enqueue_linked (h : Linked p) (hall : ¬ unpromised p) (task : Task) (priority : Nat) :
    Linked (p.enqueue task priority) := by
  have hsame : p.taskReady.signalOne = p.taskReady := by
    have hrecorded := h.recorded
    unfold unpromised at hall
    have hmin : min (p.taskReady.wakeups + 1) p.taskReady.waiters = p.taskReady.wakeups := by omega
    rw [signal_eq h, hmin]
  rw [enqueue, hsame]
  exact h.frame p.accepted p.executed (p.push (task, priority)).queue

/-- A worker taken off the idle count has a wake-up of its own recorded. -/
theorem handOver_linked (h : Linked p) (hidle : 0 < p.idlThreads) (hfree : unpromised p)
    (task : Task) : Linked ({ p with
      idlThreads := subWord p.idlThreads 1, promised := p.promised + 1 }.enqueue task 0) := by
  have hrecorded := h.recorded
  obtain ⟨hidl, _⟩ := h.room
  unfold unpromised at hfree
  have hleave : subWord p.idlThreads 1 = p.idlThreads - 1 := subWord_eq (by omega) (by omega)
  have hmin : min (p.taskReady.wakeups + 1) p.taskReady.waiters = p.taskReady.wakeups + 1 := by
    omega
  have hpromised := h.promised
  have hbalance := h.idle
  simp only [enqueue, signal_eq h, hleave, hmin]
  refine ⟨⟨h.all, h.few, h.res, h.small, h.calm⟩, h.waiters, hfree, ?_, ?_, h.retired⟩
  · show p.promised + 1 = p.taskReady.wakeups + 1 + tally p .roused
    omega
  · show p.idlThreads - 1 + (p.taskReady.wakeups + 1) = tally p .waiting + tally p .expired
    omega

theorem gone_done {pc : WorkerPc} (h : PoolTasks.gone pc = true) : place pc = .done := by
  cases pc <;> first | rfl | cases h

/-- The retired thread that gets a task is done no longer, or stays done. -/
theorem restart_linked (h : Linked p) (htidy : PoolTasks.Tidy p) {rest : List Nat}
    (hret : p.retThreads = w :: rest) (task : Task) (created : Bool) :
    Linked (p.restart w rest task created) := by
  obtain ⟨x, hw, hgone, _⟩ := htidy.head hret
  have hx := gone_done hgone
  have hless : rest.length + 1 = p.retThreads.length := by rw [hret]; rfl
  rw [restart_eq hw]
  rcases start_cases { x with task := some task } created with ⟨_, _, hs⟩ | ⟨_, hs⟩
  · rw [hs]
    exact h.moved (k := .busy) ⟨rfl, rfl, rfl, rfl, rfl⟩ hw hx rfl rfl h.recorded rfl rfl
      (Nat.le_of_eq hless)
  · rw [hs]
    exact h.moved (k := .done) ⟨rfl, rfl, rfl, rfl, rfl⟩ hw hx hx rfl h.recorded rfl rfl
      (by simp only; omega)

/-- A pool with room for a thread is smaller than max_threads_. -/
theorem spawn_linked (h : Linked p) (hroom : p.activeThreads < p.maxThreads)
    (hidle : p.idlThreads = 0) (hret : p.retThreads = []) (task : Task) (created : Bool) :
    Linked (p.spawn task created).2 := by
  have hactive := h.active
  have hall := h.all
  have hbusy : place (newborn task created).pc = .busy := by cases created <;> rfl
  have hsame : ∀ k, k ≠ .busy →
      (p.workers ++ [newborn task created]).countP (fun x => place x.pc == k) = tally p k := by
    intro k hk
    rw [census_append, hbusy]
    cases k <;> first | exact absurd rfl hk | rfl
  rw [hidle, hret] at hactive
  rw [spawn_eq]
  refine ⟨⟨?_, ?_, h.res, h.small, h.calm⟩, ?_, h.recorded, ?_, ?_, ?_⟩
  · simp [hall]
  · simp at hactive ⊢
    omega
  · exact h.waiters.trans (hsame .waiting (by decide)).symm
  · rw [tally, hsame .roused (by decide)]
    exact h.promised
  · rw [tally, tally, hsame .waiting (by decide), hsame .expired (by decide)]
    exact h.idle
  · rw [tally, hsame .done (by decide)]
    exact h.retired

theorem tryStart_linked (h : Linked p) (htidy : PoolTasks.Tidy p) (hserved : served p)
    (task : Task) (created : Bool) : Linked (p.tryStart task created).2 := by
  rcases tryStart_cases p task created with ⟨_, hs⟩ | ⟨hroom, hidle, hs⟩ |
    ⟨_, _, w, rest, hret, hs⟩ | ⟨hroom, hidle, hret, hs⟩
  · rw [hs]
    exact h
  · rw [hs]
    exact handOver_linked h hidle (hserved hroom hidle) task
  · rw [hs]
    exact restart_linked h htidy hret task created
  · rw [hs]
    exact spawn_linked h hroom hidle hret task created

/-- With no idle worker to hand the task to, every waiter has its wake-up. -/
theorem Linked.all_promised (h : Linked p) (hidle : p.idlThreads = 0) : ¬ unpromised p := by
  have h1 := h.idle
  have h2 := h.waiters
  unfold unpromised
  omega

theorem tryStart_refused (h : Linked p) (hall : p.activeThreads ≥ p.maxThreads → ¬ unpromised p)
    {task : Task} {created : Bool} (hs : p.tryStart task created = (false, p')) :
    ¬ unpromised p' := by
  rcases tryStart_cases p task created with ⟨hfull, hc⟩ | ⟨_, _, hc⟩ | ⟨_, _, w, rest, _, hc⟩ |
    ⟨_, hidle, _, hc⟩
  · rw [hs] at hc
    cases hc
    exact hall hfull
  · rw [hs] at hc
    cases hc
  · rw [hs] at hc
    cases hc
  · rw [hs, spawn_eq] at hc
    cases hc
    exact h.all_promised hidle

theorem start_linked (h : Linked p) (htidy : PoolTasks.Tidy p) {task : Option Task}
    {priority : Nat} {created : Bool} (hok : paired p (.start task priority created)) :
    Linked (p.start task priority created).2 := by
  cases task with
  | none => exact h
  | some task =>
    obtain ⟨hserved, hall⟩ := hok
    have htry := tryStart_linked h htidy hserved task created
    simp only [start]
    split
    · next p₁ hs =>
      rw [hs] at htry
      exact htry.frame (p₁.accepted ++ [task]) p₁.executed p₁.queue
    · next p₁ hs =>
      rw [hs] at htry
      have hqueued := enqueue_linked htry (tryStart_refused h hall hs) task priority
      exact hqueued.frame (p₁.accepted ++ [task]) p₁.executed (p₁.enqueue task priority).queue

theorem startNow_linked (h : Linked p) (htidy : PoolTasks.Tidy p) {task : Option Task}
    {created : Bool} (hok : paired p (.startNow task created)) :
    Linked (p.startNow task created).2 := by
  cases task with
  | none => exact h
  | some task =>
    have htry := tryStart_linked h htidy hok task created
    simp only [startNow]
    split
    · next p₁ hs =>
      rw [hs] at htry
      exact htry.frame (p₁.accepted ++ [task]) p₁.executed p₁.queue
    · next p₁ hs =>
      rw [hs] at htry
      exact htry

theorem setReserved_linked (h : Linked p) (numThreads : Nat) :
    Linked (p.setReserved numThreads) := by
  refine ⟨⟨h.all, h.few, ?_, h.small, h.calm⟩, h.waiters, h.recorded, h.promised, h.idle,
    h.retired⟩
  simp only [setReserved]
  split <;> omega

/-- The entry reserve takes off the queue changes no counter. -/
theorem popReserved_linked (h : Linked p) (numThreads : Nat) (entry : Task × Nat) :
    Linked ((p.setReserved numThreads).pop entry) :=
  (setReserved_linked h numThreads).frame p.accepted p.executed (p.queue.erase entry)

theorem reserve_linked (h : Linked p) (htidy : PoolTasks.Tidy p) {numThreads : Nat}
    {created : Bool} (hok : paired p (.reserve numThreads created)) :
    Linked (p.reserve numThreads created) := by
  rcases reserve_cases p numThreads created with ⟨_, hr⟩ |
    ⟨hless, entry, accepted, p₁, htop, hs, hr⟩
  · rw [hr]
    exact setReserved_linked h numThreads
  · have hqueue : p.queue ≠ [] := top_ne_nil htop
    have hpop := popReserved_linked h numThreads entry
    have htidy' := htidy.reserved numThreads entry
    have htry := tryStart_linked hpop htidy' (hok hless hqueue) entry.1 created
    rw [hs] at htry
    rw [hr]
    cases accepted with
    | true => exact htry
    | false => exact htry.frame p₁.accepted p₁.executed (p₁.queue ++ [entry])

/-- Every step that keeps the idle count and the wake-ups together keeps all
counters together. -/
theorem step_linked (h : Linked p) (htidy : PoolTasks.Tidy p) {e : Event} (hok : paired p e)
    (hs : p.step e = some p') : Linked p' := by
  cases e with
  | start task priority created =>
    cases hs
    exact start_linked h htidy hok
  | startNow task created =>
    cases hs
    exact startNow_linked h htidy hok
  | startNowChoked task =>
    have hsame := step_startNowChoked hs
    subst hsame
    exact h
  | reserve numThreads created =>
    cases hs
    exact reserve_linked h htidy hok
  | setRetireTimeout timeout =>
    cases hs
    exact ⟨⟨h.all, h.few, h.res, h.small, h.calm⟩, h.waiters, h.recorded, h.promised, h.idle,
      h.retired⟩
  | enter w => exact enter_linked h hs
  | finish w => exact finish_linked h hs
  | wake w => exact wake_linked h hs
  | expire w => exact expire_linked h hok hs
  | resume w => exact resume_linked h hs
  | cleanup w => exact cleanup_linked h hs

theorem create_linked {count : Nat} (h : 2 * count < word) : Linked (create count) :=
  ⟨⟨rfl, Nat.zero_le _, Nat.zero_le _, h, rfl⟩, rfl, Nat.le_refl _, rfl, rfl, Nat.le_refl _⟩

/-- Conditions that keep the idle count and the wake-ups together keep all counters
together in every run. -/
theorem reached_linked {meets : ThreadPool → Event → Prop}
    (hmeets : ∀ p e, Linked p → meets p e → paired p e) (h : system.Reached meets p)
    (hsmall : 2 * p.maxThreads < word) : PoolTasks.Sane p ∧ Linked p := by
  have hrun : PoolTasks.Sane p ∧ (2 * p.maxThreads < word → Linked p) := by
    refine h.invariant (P := fun q => PoolTasks.Sane q ∧ (2 * q.maxThreads < word → Linked q))
      ?_ ?_
    · rintro p ⟨count, rfl⟩
      exact ⟨PoolTasks.create_sane count, create_linked⟩
    · intro p e p' ⟨hsane, hlinked⟩ hok hs
      refine ⟨(PoolTasks.step_effect hsane hs).sane, ?_⟩
      rw [step_maxThreads hs]
      intro hsmall
      have hl := hlinked hsmall
      exact step_linked hl hsane.tidy (hmeets p e hl hok) hs
  exact ⟨hrun.1, hrun.2 hsmall⟩

/-- In a run whose steps keep the idle count and the wake-ups together the
counters mean what they are taken for. -/
theorem counted_when_paired (h : system.Reached paired p) (hsmall : 2 * p.maxThreads < word) :
    Counted p :=
  (reached_linked (fun _ _ _ hok => hok) h hsmall).2.counted

/-- A second task handed to the worker that the first has left idle. -/
theorem counted_when_paired_idle : ∃ p, system.Reached paired p ∧ 2 * p.maxThreads < word ∧
    p.accepted = [1, 2] ∧ Counted p := by
  have hidle : ((follow step [] (create 1) [.start (some 1) 0 true, .enter 0, .finish 0,
      .start (some 2) 0 true, .wake 0]).map fun r =>
      (r.2.maxThreads, r.2.accepted, decide (∀ q ∈ r.1, paired q.1 q.2))) =
      some (1, [1, 2], true) := by decide +kernel
  obtain ⟨⟨past, p⟩, hfollow, hfinal⟩ := Option.map_eq_some_iff.mp hidle
  simp only [Prod.mk.injEq, decide_eq_true_eq] at hfinal
  obtain ⟨hmax, hacc, hpaired⟩ := hfinal
  have hstart : system.Run [] (create 1) := .start ⟨1, rfl⟩
  have hreached : system.Reached paired p := (hstart.follow hfollow).reached hpaired
  have hsmall : 2 * p.maxThreads < word := by rw [hmax]; decide
  exact ⟨p, hreached, hsmall, hacc, counted_when_paired hreached hsmall⟩

/-- A refused start wakes the only idle worker, which is never taken off the
idle count: with the reserved thread given back active_threads wraps. -/
theorem refused_start_drifts : ∃ past p, system.Run past p ∧ p.maxThreads = 1 ∧
    p.idlThreads = 2 ∧ inside p = 1 ∧ p.activeThreads = word - 1 ∧ ¬ Counted p := by
  have hdrift : ((follow step [] (create 1) [.start (some 1) 0 true, .enter 0, .finish 0,
      .reserve 1 true, .start (some 2) 0 true, .wake 0, .resume 0, .finish 0,
      .reserve 0 true]).map fun r =>
      (r.2.maxThreads, r.2.idlThreads, inside r.2, r.2.activeThreads)) =
      some (1, 2, 1, word - 1) := by decide +kernel
  obtain ⟨⟨past, p⟩, hfollow, hfinal⟩ := Option.map_eq_some_iff.mp hdrift
  simp only [Prod.mk.injEq] at hfinal
  obtain ⟨hmax, hidl, hinside, hactive⟩ := hfinal
  have hstart : system.Run [] (create 1) := .start ⟨1, rfl⟩
  refine ⟨past, p, hstart.follow hfollow, hmax, hidl, hinside, hactive, ?_⟩
  intro h
  have hidle := h.idle
  rw [PoolCount.idle, hidl, hinside] at hidle
  omega

end
end CkCore.Proofs.PoolCount
