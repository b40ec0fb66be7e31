import CkCore.Model.ThreadPool

namespace CkCore.ThreadPool
open Lib

section
variable {p p' : ThreadPool} {w : Nat} {x : Worker}

/-- The four ways of try_start. -/
theorem tryStart_cases (p : ThreadPool) (task : Task) (created : Bool) :
    (p.activeThreads ≥ p.maxThreads ∧ p.tryStart task created = (false, p)) ∨
    (p.activeThreads < p.maxThreads ∧ 0 < p.idlThreads ∧ p.tryStart task created =
      (true, { p with
        idlThreads := subWord p.idlThreads 1, promised := p.promised + 1 }.enqueue task 0)) ∨
    (p.activeThreads < p.maxThreads ∧ p.idlThreads = 0 ∧ ∃ worker rest,
      p.retThreads = worker :: rest ∧
      p.tryStart task created = (true, p.restart worker rest task created)) ∨
    (p.activeThreads < p.maxThreads ∧ p.idlThreads = 0 ∧ p.retThreads = [] ∧
      p.tryStart task created = p.spawn task created) := by
  unfold tryStart
  by_cases hfull : p.activeThreads ≥ p.maxThreads
  · exact Or.inl ⟨hfull, if_pos hfull⟩
  · rw [if_neg hfull]
    have hroom : p.activeThreads < p.maxThreads := Nat.lt_of_not_le hfull
    by_cases hidle : p.idlThreads > 0
    · exact Or.inr (Or.inl ⟨hroom, hidle, if_pos hidle⟩)
    · rw [if_neg hidle]
      have hnone : p.idlThreads = 0 := Nat.eq_zero_of_not_pos hidle
      cases hret : p.retThreads with
      | nil => exact Or.inr (Or.inr (Or.inr ⟨hroom, hnone, rfl, rfl⟩))
      | cons worker rest =>
        exact Or.inr (Or.inr (Or.inl ⟨hroom, hnone, worker, rest, rfl, rfl⟩))

theorem top_mem {queue : List (Task × Nat)} {entry : Task × Nat} (h : top queue = some entry) :
    entry ∈ queue := by
  induction queue generalizing entry with
  | nil => cases h
  | cons first rest ih =>
    unfold top at h
    split at h
    · cases h
      exact List.mem_cons_self
    · next best hb =>
      split at h
      · cases h
        exact List.mem_cons_of_mem _ (ih hb)
      · cases h
        exact List.mem_cons_self

theorem top_ne_nil {queue : List (Task × Nat)} {entry : Task × Nat}
    (h : top queue = some entry) : queue ≠ [] := List.ne_nil_of_mem (top_mem h)

theorem top_none {queue : List (Task × Nat)} (h : top queue = none) : queue = [] := by
  cases queue with
  | nil => rfl
  | cons first rest =>
    unfold top at h
    split at h
    · cases h
    · split at h <;> cases h

/-- The ways of reserve: nothing is tried, or the greatest entry is, and goes
back when it is refused. -/
theorem reserve_cases (p : ThreadPool) (numThreads : Nat) (created : Bool) :
    (¬ (numThreads < p.resThreads ∧ p.queue ≠ []) ∧
      p.reserve numThreads created = p.setReserved numThreads) ∨
    (numThreads < p.resThreads ∧ ∃ entry accepted p', top p.queue = some entry ∧
      ((p.setReserved numThreads).pop entry).tryStart entry.1 created = (accepted, p') ∧
      p.reserve numThreads created = if accepted then p' else p'.push entry) := by
  unfold reserve
  by_cases hless : numThreads < p.resThreads
  · cases htop : top p.queue with
    | none =>
      refine Or.inl ⟨fun h => h.2 (top_none htop), ?_⟩
      simp [setReserved, htop]
    | some entry =>
      have hstart : decide (numThreads < p.resThreads) = true := decide_eq_true hless
      have hqueue : top (p.setReserved numThreads).queue = some entry := htop
      obtain ⟨accepted, p', hs⟩ : ∃ accepted p',
          ((p.setReserved numThreads).pop entry).tryStart entry.1 created = (accepted, p') :=
        ⟨_, _, rfl⟩
      refine Or.inr ⟨hless, entry, accepted, p', rfl, hs, ?_⟩
      simp only [hstart, hqueue, hs]
      cases accepted with
      | true => exact (if_pos rfl).symm
      | false => exact (if_neg Bool.false_ne_true).symm
  · refine Or.inl ⟨fun h => hless h.1, ?_⟩
    simp [hless]

theorem workerStep_cases {next : Worker → Option ThreadPool}
    (h : p.workerStep w next = some p') : ∃ x, p.workers[w]? = some x ∧ next x = some p' := by
  unfold workerStep at h
  split at h
  · cases h
  · next x hx => exact ⟨x, hx, h⟩

theorem step_enter (h : p.step (.enter w) = some p') :
    ∃ x, p.workers[w]? = some x ∧ x.pc = .starting ∧ p' = p.loopHead w x := by
  obtain ⟨x, hx, hn⟩ := workerStep_cases h
  obtain ⟨hpc, hn⟩ := Option.ite_none_right_eq_some.mp hn
  exact ⟨x, hx, hpc, (Option.some.inj hn).symm⟩

theorem step_finish (h : p.step (.finish w) = some p') :
    ∃ x task, p.workers[w]? = some x ∧ x.pc = .executing ∧ x.task = some task ∧
      p' = p.finish w x task := by
  obtain ⟨x, hx, hn⟩ := workerStep_cases h
  split at hn
  · next hpc ht => exact ⟨x, _, hx, hpc, ht, (Option.some.inj hn).symm⟩
  · cases hn

theorem step_wake (h : p.step (.wake w) = some p') :
    ∃ x timeout, p.workers[w]? = some x ∧ x.pc = .waiting timeout ∧ p.taskReady.wakeups ≠ 0 ∧
      p' = { p with taskReady := p.taskReady.wake }.put w { x with pc := .woken false } := by
  obtain ⟨x, hx, hn⟩ := workerStep_cases h
  split at hn
  · next timeout hpc =>
    split at hn
    · cases hn
    · next hwake => exact ⟨x, timeout, hx, hpc, hwake, (Option.some.inj hn).symm⟩
  · cases hn

theorem step_expire (h : p.step (.expire w) = some p') :
    ∃ x timeout, p.workers[w]? = some x ∧ x.pc = .waiting timeout ∧
      p' = { p with taskReady := p.taskReady.expire }.put w { x with pc := .woken true } := by
  obtain ⟨x, hx, hn⟩ := workerStep_cases h
  split at hn
  · next timeout hpc =>
    split at hn
    · cases hn
    · exact ⟨x, timeout, hx, hpc, (Option.some.inj hn).symm⟩
  · cases hn

theorem step_resume (h : p.step (.resume w) = some p') :
    ∃ x expired, p.workers[w]? = some x ∧ x.pc = .woken expired ∧
      p' = p.resume w x expired := by
  obtain ⟨x, hx, hn⟩ := workerStep_cases h
  split at hn
  · next expired hpc => exact ⟨x, expired, hx, hpc, (Option.some.inj hn).symm⟩
  · cases hn

theorem step_cleanup (h : p.step (.cleanup w) = some p') :
    ∃ x, p.workers[w]? = some x ∧ x.pc = .returned ∧
      p' = p.put w { x with running := false, pc := .stopped } := by
  obtain ⟨x, hx, hn⟩ := workerStep_cases h
  split at hn
  · next hpc => exact ⟨x, hx, hpc, (Option.some.inj hn).symm⟩
  · cases hn

/-- What becomes of a task handed to start or start_now, which differ only in what
they do with one that try_start refuses. -/
inductive Handed (p : ThreadPool) (task : Task) (created : Bool) (p' : ThreadPool) : Prop where
  | taken {p₁ : ThreadPool} (tried : p.tryStart task created = (true, p₁))
      (after : p' = { p₁ with accepted := p₁.accepted ++ [task] })
  | queued {p₁ : ThreadPool} {priority : Nat} (tried : p.tryStart task created = (false, p₁))
      (after : p' = { p₁.enqueue task priority with accepted := p₁.accepted ++ [task] })
  | refused (tried : p.tryStart task created = (false, p'))

theorem step_start {task : Option Task} {priority : Nat} {created : Bool}
    (h : p.step (.start task priority created) = some p') :
    (task = none ∧ p' = p) ∨ ∃ t, task = some t ∧ Handed p t created p' := by
  cases h
  cases task with
  | none => exact Or.inl ⟨rfl, rfl⟩
  | some task =>
    refine Or.inr ⟨task, rfl, ?_⟩
    simp only [start]
    split
    · next hs => exact .taken hs rfl
    · next hs => exact .queued hs rfl

theorem step_startNow {task : Option Task} {created : Bool}
    (h : p.step (.startNow task created) = some p') :
    (task = none ∧ p' = p) ∨ ∃ t, task = some t ∧ Handed p t created p' := by
  cases h
  cases task with
  | none => exact Or.inl ⟨rfl, rfl⟩
  | some task =>
    refine Or.inr ⟨task, rfl, ?_⟩
    simp only [startNow]
    split
    · next hs => exact .taken hs rfl
    · next hs => exact .refused hs

theorem step_startNowChoked {task : Option Task} (h : p.step (.startNowChoked task) = some p') :
    p' = p := by
  obtain ⟨_, h⟩ := Option.ite_none_right_eq_some.mp h
  exact (Option.some.inj h).symm

/-- The retired thread with its new task: only one that is no longer running and
can be created is going to run. -/
theorem start_cases (x : Worker) (created : Bool) :
    (x.running = false ∧ created = true ∧
      (x.start created).2 = { x with running := true, pc := .starting }) ∨
    (¬ (x.running = false ∧ created = true) ∧ (x.start created).2 = x) := by
  unfold Worker.start
  cases hr : x.running with
  | true => exact Or.inr ⟨by simp, rfl⟩
  | false =>
    cases created with
    | true => exact Or.inl ⟨rfl, rfl, rfl⟩
    | false => exact Or.inr ⟨by simp, rfl⟩

/-- The thread a spawn makes; one that could not be created stays unborn. -/
def newborn (task : Task) (created : Bool) : Worker :=
  ⟨some task, created, if created then .starting else .unborn⟩

theorem spawn_eq (p : ThreadPool) (task : Task) (created : Bool) :
    p.spawn task created = (created, { p with
      allThreads := p.allThreads ++ [p.workers.length]
      polThreads := addWord p.polThreads 1
      workers := p.workers ++ [newborn task created] }) := by
  cases created <;> rfl

/-- The workers of a pool behind a spawn. -/
theorem spawn_others {task : Task} {created : Bool} {z : Worker}
    (hz : z ∈ p.workers ++ [newborn task created]) : z ∈ p.workers ∨ z = newborn task created := by
  rcases List.mem_append.mp hz with hz | hz
  · exact Or.inl hz
  · exact Or.inr (List.mem_singleton.mp hz)

theorem restart_eq {rest : List Nat} (hw : p.workers[w]? = some x) (task : Task)
    (created : Bool) : p.restart w rest task created = { p with
      retThreads := rest
      polThreads := addWord p.polThreads 1
      workers := p.workers.set w (({ x with task := some task } : Worker).start created).2 } := by
  simp only [restart, hw]

theorem restart_frame (p : ThreadPool) (w : Nat) (rest : List Nat) (task : Task)
    (created : Bool) : (p.restart w rest task created).accepted = p.accepted ∧
      (p.restart w rest task created).maxThreads = p.maxThreads := by
  cases hw : p.workers[w]? with
  | none => simp only [restart, hw, and_self]
  | some x =>
    rw [restart_eq hw]
    exact ⟨rfl, rfl⟩

theorem restart_counts (p : ThreadPool) (w : Nat) (rest : List Nat) (task : Task)
    (created : Bool) : (p.restart w rest task created).queue = p.queue ∧
      (p.restart w rest task created).allThreads = p.allThreads ∧
      (p.restart w rest task created).retThreads = rest ∧
      (p.restart w rest task created).idlThreads = p.idlThreads ∧
      (p.restart w rest task created).resThreads = p.resThreads := by
  cases hw : p.workers[w]? with
  | none => simp only [restart, hw, and_self]
  | some x =>
    rw [restart_eq hw]
    exact ⟨rfl, rfl, rfl, rfl, rfl⟩

/-- try_start neither accepts a task nor moves the bound on the threads. -/
theorem tryStart_frame (p : ThreadPool) (task : Task) (created : Bool) :
    (p.tryStart task created).2.accepted = p.accepted ∧
      (p.tryStart task created).2.maxThreads = p.maxThreads := by
  rcases tryStart_cases p task created with ⟨_, hs⟩ | ⟨_, _, hs⟩ | ⟨_, _, w, rest, _, hs⟩ |
    ⟨_, _, _, hs⟩
  · rw [hs]
    exact ⟨rfl, rfl⟩
  · rw [hs]
    exact ⟨rfl, rfl⟩
  · rw [hs]
    exact restart_frame p w rest task created
  · rw [hs, spawn_eq]
    exact ⟨rfl, rfl⟩

theorem afterTasks_maxThreads (p : ThreadPool) (w : Nat) (x : Worker) :
    (p.afterTasks w x).maxThreads = p.maxThreads := by
  unfold afterTasks
  split
  · rfl
  · split <;> rfl

theorem afterTasks_queue (p : ThreadPool) (w : Nat) (x : Worker) :
    (p.afterTasks w x).queue = p.queue := by
  unfold afterTasks
  split
  · rfl
  · split <;> rfl

theorem loopHead_maxThreads (p : ThreadPool) (w : Nat) (x : Worker) :
    (p.loopHead w x).maxThreads = p.maxThreads := by
  unfold loopHead
  split
  · rfl
  · exact afterTasks_maxThreads p w x

theorem fetch_maxThreads (p : ThreadPool) (w : Nat) (x : Worker) :
    (p.fetch w x).maxThreads = p.maxThreads := by
  unfold fetch
  split
  · next entry _ => exact loopHead_maxThreads (p.pop entry) w _
  · exact loopHead_maxThreads p w x

theorem Handed.maxThreads {task : Task} {created : Bool} (h : Handed p task created p') :
    p'.maxThreads = p.maxThreads := by
  have htry := (tryStart_frame p task created).2
  cases h with
  | taken tried after =>
    rw [tried] at htry
    rw [after]
    exact htry
  | queued tried after =>
    rw [tried] at htry
    rw [after]
    exact htry
  | refused tried =>
    rw [tried] at htry
    exact htry

/-- The bound on the threads is the same in a whole run. -/
theorem step_maxThreads {e : Event} (h : p.step e = some p') : p'.maxThreads = p.maxThreads := by
  cases e with
  | start task priority created =>
    rcases step_start h with ⟨_, rfl⟩ | ⟨t, _, hh⟩
    · rfl
    · exact hh.maxThreads
  | startNow task created =>
    rcases step_startNow h with ⟨_, rfl⟩ | ⟨t, _, hh⟩
    · rfl
    · exact hh.maxThreads
  | startNowChoked task => rw [step_startNowChoked h]
  | reserve numThreads created =>
    cases h
    rcases reserve_cases p numThreads created with ⟨_, hr⟩ | ⟨_, entry, accepted, p', _, hs, hr⟩
    · rw [hr]
      rfl
    · have htry := (tryStart_frame ((p.setReserved numThreads).pop entry) entry.1 created).2
      rw [hs] at htry
      rw [hr]
      cases accepted with
      | true => exact htry
      | false => exact htry
  | setRetireTimeout timeout =>
    cases h
    rfl
  | enter w =>
    obtain ⟨x, _, _, rfl⟩ := step_enter h
    exact loopHead_maxThreads p w x
  | finish w =>
    obtain ⟨x, task, _, _, _, rfl⟩ := step_finish h
    simp only [finish]
    split
    · exact afterTasks_maxThreads _ w _
    · exact fetch_maxThreads _ w _
  | wake w =>
    obtain ⟨x, timeout, _, _, _, rfl⟩ := step_wake h
    rfl
  | expire w =>
    obtain ⟨x, timeout, _, _, rfl⟩ := step_expire h
    rfl
  | resume w =>
    obtain ⟨x, expired, _, _, rfl⟩ := step_resume h
    cases expired with
    | true => rfl
    | false => exact fetch_maxThreads _ w x
  | cleanup w =>
    obtain ⟨x, _, _, rfl⟩ := step_cleanup h
    rfl

end
end CkCore.ThreadPool
