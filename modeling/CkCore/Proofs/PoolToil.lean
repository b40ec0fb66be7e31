import CkCore.Proofs.PoolTurns

namespace CkCore.Proofs.PoolToil
open Lib ThreadPool PoolTasks PoolCount PoolTurns

/-- The steps the workers take of themselves. -/
def labour : Event → Prop
  | .enter _ | .finish _ | .wake _ | .expire _ | .resume _ | .cleanup _ => True
  | _ => False

/-- The thread has not begun or is over. -/
def ended : WorkerPc → Bool
  | .unborn | .stopped => true
  | _ => false

/-- A worker runs as long as it is not over, and starts with and executes only
what it has. -/
structure Alive (x : Worker) : Prop where
  running : x.running = !ended x.pc
  tasked : x.pc = .starting ∨ x.pc = .executing → x.task ≠ none

/-- How far a worker may be from its end, without another task or wake-up. -/
def toil : WorkerPc → Nat
  | .unborn | .stopped => 0
  | .returned => 1
  | .woken true => 2
  | .waiting _ => 3
  | .executing => 4
  | .starting | .woken false => 5

/-- A wake-up may send a waiter back to the queue. -/
def effort (p : ThreadPool) : Nat :=
  weight (fun x => toil x.pc) p.workers + 3 * p.taskReady.wakeups + p.queue.length

/-- Where a worker goes behind a task, a wait or its start: to a task, which is
its own or one of the queue, to its end or to the wait. -/
structure Sent (p p' : ThreadPool) (w : Nat) (x y : Worker) : Prop extends Moved p p' w y where
  running : y.running = x.running
  timeout : p'.retTimeout = p.retTimeout
  queue : p'.queue.length ≤ p.queue.length
  goes : (y.pc = .executing ∧ y.task ≠ none ∧ p'.taskReady = p.taskReady ∧
      (x.task ≠ none ∨ p'.queue.length < p.queue.length)) ∨
    (y.pc = .returned ∧ p'.taskReady = p.taskReady) ∨
    (y.pc = .waiting p.retTimeout ∧ p.exiting = false ∧ p'.taskReady = p.taskReady.enter)

/-- What the step of a worker does to it and to the wait condition, and that
there is less to do behind it. -/
structure Labours (p p' : ThreadPool) (w : Nat) (x y : Worker) : Prop
    extends Moved p p' w y where
  cell : p.workers[w]? = some x
  timeout : p'.retTimeout = p.retTimeout
  alive : Alive x → Alive y
  less : toil y.pc + 3 * p'.taskReady.wakeups + p'.queue.length <
    toil x.pc + 3 * p.taskReady.wakeups + p.queue.length
  cond : (place x.pc ≠ .waiting ∧ place y.pc ≠ .waiting ∧ p'.taskReady = p.taskReady) ∨
    (place x.pc ≠ .waiting ∧ y.pc = .waiting p.retTimeout ∧ p.exiting = false ∧
      p'.taskReady = p.taskReady.enter) ∨
    (place x.pc = .waiting ∧ place y.pc ≠ .waiting ∧ (p'.taskReady = p.taskReady.expire ∨
      p.taskReady.wakeups ≠ 0 ∧ p'.taskReady = p.taskReady.wake))

/-- What a call from outside does to the workers: nothing, the restart of one or
the birth of one. -/
structure Called (p p' : ThreadPool) : Prop where
  exiting : p'.exiting = p.exiting
  cond : p'.taskReady = p.taskReady ∨ p'.taskReady = p.taskReady.signalOne
  workers : (p'.workers = p.workers ∧ p'.allThreads = p.allThreads) ∨
    (∃ w x task created, p.workers[w]? = some x ∧ p'.workers =
      p.workers.set w (({ x with task := some task } : Worker).start created).2 ∧
      p'.allThreads = p.allThreads) ∨
    (∃ task created, p'.workers = p.workers ++ [newborn task created] ∧
      p'.allThreads = p.allThreads ++ [p.workers.length])

section
variable {p p₀ p' : ThreadPool} {w : Nat} {x y z : Worker} {e : Event}

theorem afterTasks_sent (p : ThreadPool) (w : Nat) (x : Worker) :
    ∃ y, Sent p (p.afterTasks w x) w x y ∧ y.pc ≠ .executing := by
  unfold afterTasks
  split
  · exact ⟨{ x with pc := .returned }, ⟨⟨rfl, rfl, rfl, rfl, rfl⟩, rfl, rfl, Nat.le_refl _,
      Or.inr (Or.inl ⟨rfl, rfl⟩)⟩, fun hn => nomatch hn⟩
  · next hcalm =>
    split
    · exact ⟨{ x with pc := .returned }, ⟨⟨rfl, rfl, rfl, rfl, rfl⟩, rfl, rfl, Nat.le_refl _,
        Or.inr (Or.inl ⟨rfl, rfl⟩)⟩, fun hn => nomatch hn⟩
    · exact ⟨{ x with pc := .waiting p.retTimeout }, ⟨⟨rfl, rfl, rfl, rfl, rfl⟩, rfl, rfl,
        Nat.le_refl _, Or.inr (Or.inr ⟨rfl, Bool.eq_false_iff.mpr hcalm, rfl⟩)⟩,
        fun hn => nomatch hn⟩

theorem loopHead_sent (p : ThreadPool) (w : Nat) (x : Worker) :
    ∃ y, Sent p (p.loopHead w x) w x y := by
  unfold loopHead
  split
  · next task htask =>
    have hsome : x.task ≠ none := by simp [htask]
    exact ⟨{ x with pc := .executing }, ⟨rfl, rfl, rfl, rfl, rfl⟩, rfl, rfl, Nat.le_refl _,
      Or.inl ⟨rfl, hsome, rfl, Or.inl hsome⟩⟩
  · obtain ⟨y, hy, _⟩ := afterTasks_sent p w x
    exact ⟨y, hy⟩

theorem pop_length {entry : Task × Nat} (h : entry ∈ p.queue) :
    (p.pop entry).queue.length < p.queue.length := by
  have hlong := List.length_pos_of_mem h
  change (p.queue.erase entry).length < p.queue.length
  rw [List.length_erase_of_mem h]
  omega

theorem fetch_sent (p : ThreadPool) (w : Nat) (x : Worker) :
    ∃ y, Sent p (p.fetch w x) w x y := by
  unfold fetch
  split
  · next entry htop =>
    have hless := pop_length (top_mem htop)
    refine ⟨{ x with task := some entry.1, pc := .executing }, ⟨rfl, rfl, rfl, rfl, rfl⟩, rfl, rfl,
      Nat.le_of_lt hless, Or.inl ⟨rfl, fun hn => (nomatch hn), rfl, Or.inr hless⟩⟩
  · exact loopHead_sent p w x

/-- A worker that is not over and has more to do than any task takes. -/
theorem Sent.labours (hs : Sent p₀ p' w z y) (hframe : ∀ v, Moved p₀ p' w v → Moved p p' w v)
    (hw : p.workers[w]? = some x) (hrun : z.running = x.running) (hlast : ended x.pc = false)
    (hx : place x.pc ≠ .waiting) (htimeout : p₀.retTimeout = p.retTimeout)
    (hexit : p₀.exiting = p.exiting) (hready : p₀.taskReady = p.taskReady)
    (hqueue : p₀.queue = p.queue) (hmuch : 4 ≤ toil x.pc)
    (hfresh : z.task = none ∨ 4 < toil x.pc) : Labours p p' w x y := by
  obtain ⟨hm, hsame, hret, hshort, hgoes⟩ := hs
  rw [htimeout] at hret hgoes
  rw [hready] at hgoes
  rw [hqueue] at hshort hgoes
  rw [hexit] at hgoes
  refine ⟨hframe y hm, hw, hret, ?_, ?_, ?_⟩
  · intro halive
    have hyes : y.running = true := by
      rw [hsame, hrun, halive.running, hlast]
      rfl
    rcases hgoes with ⟨hpc, htask, _⟩ | ⟨hpc, _⟩ | ⟨hpc, _⟩
    · exact ⟨by rw [hyes, hpc]; rfl, fun _ => htask⟩
    · exact ⟨by rw [hyes, hpc]; rfl, fun hn => by simp [hpc] at hn⟩
    · exact ⟨by rw [hyes, hpc]; rfl, fun hn => by simp [hpc] at hn⟩
  · rcases hgoes with ⟨hpc, _, hsame, hnew⟩ | ⟨hpc, hsame⟩ | ⟨hpc, _, hsame⟩
    · rw [hpc, hsame]
      change 4 + _ + _ < _
      rcases hnew with hold | hless
      · have hmore := hfresh.resolve_left hold
        omega
      · omega
    · rw [hpc, hsame]
      change 1 + _ + _ < _
      omega
    · rw [hpc, hsame]
      change 3 + 3 * p.taskReady.wakeups + _ < _
      omega
  · rcases hgoes with ⟨hpc, _, hsame, _⟩ | ⟨hpc, hsame⟩ | ⟨hpc, hcalm, hsame⟩
    · exact Or.inl ⟨hx, by rw [hpc]; decide, hsame⟩
    · exact Or.inl ⟨hx, by rw [hpc]; decide, hsame⟩
    · exact Or.inr (Or.inl ⟨hx, hpc, hcalm, hsame⟩)

theorem subWord_less {n : Nat} (h : n ≠ 0) : subWord n 1 < n := by
  unfold subWord
  by_cases hn : n < word
  · rw [show n + word - 1 = (n - 1) + word by omega, Nat.add_mod_right,
      Nat.mod_eq_of_lt (by omega)]
    omega
  · have hless : (n + word - 1) % word < word := Nat.mod_lt _ (by decide)
    omega

theorem enter_labours (hs : p.step (.enter w) = some p') : ∃ x y, Labours p p' w x y := by
  obtain ⟨x, hw, hpc, rfl⟩ := step_enter hs
  obtain ⟨y, hy⟩ := loopHead_sent p w x
  refine ⟨x, y, hy.labours (fun _ hm => hm) hw rfl ?_ ?_ rfl rfl rfl rfl ?_ (Or.inr ?_)⟩ <;>
    rw [hpc] <;> decide

theorem finish_labours (hs : p.step (.finish w) = some p') : ∃ x y, Labours p p' w x y := by
  obtain ⟨x, task, hw, hpc, _, rfl⟩ := step_finish hs
  have hsent : ∃ y, Sent { p with executed := p.executed ++ [task] } (p.finish w x task) w
      { x with task := none } y := by
    unfold ThreadPool.finish
    dsimp only
    split
    · obtain ⟨y, hy, _⟩ := afterTasks_sent { p with executed := p.executed ++ [task] } w
        { x with task := none }
      exact ⟨y, hy⟩
    · exact fetch_sent _ w _
  obtain ⟨y, hy⟩ := hsent
  refine ⟨x, y, hy.labours (fun _ hm => hm.frame rfl rfl rfl rfl rfl) hw rfl ?_ ?_ rfl rfl rfl
    rfl ?_
    (Or.inl rfl)⟩ <;> rw [hpc] <;> decide

theorem wake_labours (hs : p.step (.wake w) = some p') : ∃ x y, Labours p p' w x y := by
  obtain ⟨x, timeout, hw, hpc, hsome, rfl⟩ := step_wake hs
  have hless := subWord_less hsome
  refine ⟨x, { x with pc := .woken false }, ⟨rfl, rfl, rfl, rfl, rfl⟩, hw, rfl, ?_, ?_,
    Or.inr (Or.inr ⟨by rw [hpc]; rfl, fun hn => (nomatch hn), Or.inr ⟨hsome, rfl⟩⟩)⟩
  · intro halive
    have hrun := halive.running
    rw [hpc] at hrun
    exact ⟨hrun, fun hn => nomatch hn⟩
  · rw [hpc]
    change 5 + 3 * subWord p.taskReady.wakeups 1 + p.queue.length < 3 + _ + _
    omega

theorem expire_labours (hs : p.step (.expire w) = some p') : ∃ x y, Labours p p' w x y := by
  obtain ⟨x, timeout, hw, hpc, rfl⟩ := step_expire hs
  refine ⟨x, { x with pc := .woken true }, ⟨rfl, rfl, rfl, rfl, rfl⟩, hw, rfl, ?_, ?_,
    Or.inr (Or.inr ⟨by rw [hpc]; rfl, fun hn => (nomatch hn), Or.inl rfl⟩)⟩
  · intro halive
    have hrun := halive.running
    rw [hpc] at hrun
    exact ⟨hrun, fun hn => nomatch hn⟩
  · rw [hpc]
    change 2 + 3 * p.taskReady.expire.wakeups + p.queue.length < 3 + _ + _
    rw [WaitCondition.expire_wakeups]
    omega

theorem resume_labours (hs : p.step (.resume w) = some p') : ∃ x y, Labours p p' w x y := by
  obtain ⟨x, expired, hw, hpc, rfl⟩ := step_resume hs
  cases expired with
  | true =>
    refine ⟨x, { x with pc := .returned }, ⟨rfl, rfl, rfl, rfl, rfl⟩, hw, rfl, ?_, ?_,
      Or.inl ⟨by rw [hpc]; decide, fun hn => (nomatch hn), rfl⟩⟩
    · intro halive
      have hrun := halive.running
      rw [hpc] at hrun
      exact ⟨hrun, fun hn => nomatch hn⟩
    · rw [hpc]
      change 1 + 3 * p.taskReady.wakeups + p.queue.length < 2 + _ + _
      omega
  | false =>
    obtain ⟨y, hy⟩ := fetch_sent { p with
      polThreads := addWord p.polThreads 1, promised := p.promised - 1 } w x
    refine ⟨x, y, hy.labours (fun _ hm => hm.frame rfl rfl rfl rfl rfl) hw rfl ?_ ?_ rfl rfl rfl
      rfl ?_ (Or.inr ?_)⟩ <;> rw [hpc] <;> decide

theorem cleanup_labours (hs : p.step (.cleanup w) = some p') : ∃ x y, Labours p p' w x y := by
  obtain ⟨x, hw, hpc, rfl⟩ := step_cleanup hs
  refine ⟨x, { x with running := false, pc := .stopped }, ⟨rfl, rfl, rfl, rfl, rfl⟩, hw, rfl,
    fun _ => ⟨rfl, fun hn => nomatch hn⟩, ?_,
    Or.inl ⟨by rw [hpc]; decide, fun hn => (nomatch hn), rfl⟩⟩
  rw [hpc]
  change 0 + 3 * p.taskReady.wakeups + p.queue.length < 1 + _ + _
  omega

/-- All a step of a worker can do. -/
theorem labour_cases (hown : labour e) (hs : p.step e = some p') :
    ∃ w x y, Labours p p' w x y := by
  cases e with
  | enter w => exact ⟨w, enter_labours hs⟩
  | finish w => exact ⟨w, finish_labours hs⟩
  | wake w => exact ⟨w, wake_labours hs⟩
  | expire w => exact ⟨w, expire_labours hs⟩
  | resume w => exact ⟨w, resume_labours hs⟩
  | cleanup w => exact ⟨w, cleanup_labours hs⟩
  | start | startNow | startNowChoked | reserve | setRetireTimeout => exact hown.elim

/-- No step of a worker can be taken without end. -/
theorem labour_less (hown : labour e) (hs : p.step e = some p') : effort p' < effort p := by
  obtain ⟨w, x, y, h⟩ := labour_cases hown hs
  have hweight := weight_set (fun x => toil x.pc) h.cell y
  have hless := h.less
  unfold effort
  rw [h.workers]
  omega

/-- A worker that is not over can go on, unless it waits without limit and
without a wake-up; only without a wake-up its time has to be over. -/
theorem Alive.moves (h : Alive x) (hw : p.workers[w]? = some x) (hlast : ended x.pc = false) :
    (∃ e p', labour e ∧ (∀ v, e = .expire v → place x.pc = .waiting ∧ p.taskReady.wakeups = 0) ∧
      p.step e = some p') ∨ (x.pc = .waiting unlimited ∧ p.taskReady.wakeups = 0) := by
  cases hpc : x.pc with
  | unborn | stopped =>
    rw [hpc] at hlast
    cases hlast
  | starting =>
    have hs : p.step (.enter w) = some (p.loopHead w x) := by
      simp only [step, workerStep, hw, hpc, if_true]
    exact Or.inl ⟨.enter w, _, trivial, fun _ hn => (nomatch hn), hs⟩
  | executing =>
    obtain ⟨task, htask⟩ := Option.ne_none_iff_exists'.mp (h.tasked (Or.inr hpc))
    have hs : p.step (.finish w) = some (p.finish w x task) := by
      simp only [step, workerStep, hw, hpc, htask]
    exact Or.inl ⟨.finish w, _, trivial, fun _ hn => (nomatch hn), hs⟩
  | waiting timeout =>
    by_cases hnone : p.taskReady.wakeups = 0
    · by_cases hlong : timeout = unlimited
      · exact Or.inr ⟨by rw [hlong], hnone⟩
      · have hs : p.step (.expire w) = some ({ p with taskReady := p.taskReady.expire }.put w
            { x with pc := .woken true }) := by
          simp only [step, workerStep, hw, hpc, if_neg hlong]
        exact Or.inl ⟨.expire w, _, trivial, fun _ _ => ⟨rfl, hnone⟩, hs⟩
    · have hs : p.step (.wake w) = some ({ p with taskReady := p.taskReady.wake }.put w
          { x with pc := .woken false }) := by
        simp only [step, workerStep, hw, hpc, if_neg hnone]
      exact Or.inl ⟨.wake w, _, trivial, fun _ hn => (nomatch hn), hs⟩
  | woken expired =>
    have hs : p.step (.resume w) = some (p.resume w x expired) := by
      simp only [step, workerStep, hw, hpc]
    exact Or.inl ⟨.resume w, _, trivial, fun _ hn => (nomatch hn), hs⟩
  | returned =>
    have hs : p.step (.cleanup w) = some (p.put w { x with running := false, pc := .stopped }) := by
      simp only [step, workerStep, hw, hpc]
    exact Or.inl ⟨.cleanup w, _, trivial, fun _ hn => (nomatch hn), hs⟩

/-- What a refusal leaves waits for nobody to be woken. -/
theorem tryStart_called (p : ThreadPool) (task : Task) (created : Bool) :
    Called p (p.tryStart task created).2 ∧
      (p.tryStart task created).2.retTimeout = p.retTimeout ∧
      ((p.tryStart task created).1 = false →
        (p.tryStart task created).2.taskReady = p.taskReady) := by
  rcases tryStart_cases p task created with ⟨_, hs⟩ | ⟨_, _, hs⟩ | ⟨_, _, w, rest, _, hs⟩ |
    ⟨_, _, _, hs⟩
  · rw [hs]
    exact ⟨⟨rfl, Or.inl rfl, Or.inl ⟨rfl, rfl⟩⟩, rfl, fun _ => rfl⟩
  · rw [hs]
    exact ⟨⟨rfl, Or.inr rfl, Or.inl ⟨rfl, rfl⟩⟩, rfl, fun hn => nomatch hn⟩
  · rw [hs]
    cases hw : p.workers[w]? with
    | none =>
      have hr : p.restart w rest task created = { p with
          retThreads := rest, polThreads := addWord p.polThreads 1 } := by
        simp only [restart, hw]
      rw [hr]
      exact ⟨⟨rfl, Or.inl rfl, Or.inl ⟨rfl, rfl⟩⟩, rfl, fun _ => rfl⟩
    | some x =>
      rw [restart_eq hw]
      exact ⟨⟨rfl, Or.inl rfl, Or.inr (Or.inl ⟨w, x, task, created, hw, rfl, rfl⟩)⟩, rfl,
        fun _ => rfl⟩
  · rw [hs, spawn_eq]
    exact ⟨⟨rfl, Or.inl rfl, Or.inr (Or.inr ⟨task, created, rfl, rfl⟩)⟩, rfl, fun _ => rfl⟩

theorem handed_called {task : Task} {created : Bool} (h : Handed p task created p') :
    Called p p' ∧ p'.retTimeout = p.retTimeout := by
  obtain ⟨⟨hexit, hcond, hworkers⟩, htimeout, hrefused⟩ := tryStart_called p task created
  cases h with
  | taken tried after =>
    rw [tried] at hexit hcond hworkers htimeout
    rw [after]
    exact ⟨⟨hexit, hcond, hworkers⟩, htimeout⟩
  | @queued p₁ priority tried after =>
    rw [tried] at hexit hworkers htimeout hrefused
    have hsame : p₁.taskReady = p.taskReady := hrefused rfl
    rw [after]
    refine ⟨⟨hexit, Or.inr ?_, hworkers⟩, htimeout⟩
    change p₁.taskReady.signalOne = _
    rw [hsame]
  | refused tried =>
    rw [tried] at hexit hcond hworkers htimeout
    exact ⟨⟨hexit, hcond, hworkers⟩, htimeout⟩

/-- All a call from outside can do; only one of them sets the timeout. -/
theorem called_cases (hown : ¬ labour e) (hs : p.step e = some p') :
    Called p p' ∧ ((∀ timeout, e ≠ .setRetireTimeout timeout) → p'.retTimeout = p.retTimeout) := by
  have hnone : Called p p := ⟨rfl, Or.inl rfl, Or.inl ⟨rfl, rfl⟩⟩
  cases e with
  | start task priority created =>
    rcases step_start hs with ⟨_, rfl⟩ | ⟨t, _, hh⟩
    · exact ⟨hnone, fun _ => rfl⟩
    · exact ⟨(handed_called hh).1, fun _ => (handed_called hh).2⟩
  | startNow task created =>
    rcases step_startNow hs with ⟨_, rfl⟩ | ⟨t, _, hh⟩
    · exact ⟨hnone, fun _ => rfl⟩
    · exact ⟨(handed_called hh).1, fun _ => (handed_called hh).2⟩
  | startNowChoked task =>
    rw [step_startNowChoked hs]
    exact ⟨hnone, fun _ => rfl⟩
  | reserve numThreads created =>
    cases hs
    rcases reserve_cases p numThreads created with ⟨_, hr⟩ | ⟨_, entry, accepted, p₁, _, hs, hr⟩
    · rw [hr]
      exact ⟨⟨rfl, Or.inl rfl, Or.inl ⟨rfl, rfl⟩⟩, fun _ => rfl⟩
    · obtain ⟨⟨hexit, hcond, hworkers⟩, htimeout, _⟩ :=
        tryStart_called ((p.setReserved numThreads).pop entry) entry.1 created
      rw [hs] at hexit hcond hworkers htimeout
      rw [hr]
      cases accepted with
      | true => exact ⟨⟨hexit, hcond, hworkers⟩, fun _ => htimeout⟩
      | false => exact ⟨⟨hexit, hcond, hworkers⟩, fun _ => htimeout⟩
  | setRetireTimeout timeout =>
    cases hs
    exact ⟨⟨rfl, Or.inl rfl, Or.inl ⟨rfl, rfl⟩⟩, fun hn => absurd rfl (hn timeout)⟩
  | enter | finish | wake | expire | resume | cleanup => exact absurd trivial hown

theorem Alive.start (h : Alive x) (task : Task) (created : Bool) :
    Alive (({ x with task := some task } : Worker).start created).2 := by
  rcases start_cases { x with task := some task } created with ⟨_, _, hy⟩ | ⟨_, hy⟩
  · rw [hy]
    exact ⟨rfl, fun _ hn => nomatch hn⟩
  · rw [hy]
    exact ⟨h.running, fun _ hn => nomatch hn⟩

theorem newborn_alive (task : Task) (created : Bool) : Alive (newborn task created) := by
  cases created with
  | true => exact ⟨rfl, fun _ hn => nomatch hn⟩
  | false => exact ⟨rfl, fun _ hn => nomatch hn⟩

theorem Called.alive (h : Called p p') (halive : ∀ x ∈ p.workers, Alive x) :
    ∀ x ∈ p'.workers, Alive x := by
  intro z hz
  rcases h.workers with ⟨hsame, _⟩ | ⟨w, x, task, created, hw, hset, _⟩ | ⟨task, created, hnew, _⟩
  · rw [hsame] at hz
    exact halive z hz
  · rw [hset] at hz
    rcases List.mem_or_eq_of_mem_set hz with hz | rfl
    · exact halive z hz
    · exact (halive x (List.mem_of_getElem? hw)).start task created
  · rw [hnew] at hz
    rcases spawn_others hz with hz | rfl
    · exact halive z hz
    · exact newborn_alive task created

theorem Labours.all_alive (h : Labours p p' w x y) (halive : ∀ x ∈ p.workers, Alive x) :
    ∀ x ∈ p'.workers, Alive x := by
  intro z hz
  rcases h.toMoved.others hz with hz | rfl
  · exact halive z hz
  · exact h.alive (halive x (List.mem_of_getElem? h.cell))

/-- Every step leaves the workers as they have to be. -/
theorem step_alive (halive : ∀ x ∈ p.workers, Alive x) (hs : p.step e = some p') :
    ∀ x ∈ p'.workers, Alive x := by
  by_cases hown : labour e
  · obtain ⟨w, x, y, h⟩ := labour_cases hown hs
    exact h.all_alive halive
  · exact (called_cases hown hs).1.alive halive

end
end CkCore.Proofs.PoolToil
