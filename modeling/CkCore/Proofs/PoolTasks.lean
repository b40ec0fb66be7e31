import CkCore.Lib.Census
import CkCore.Proofs.PoolSteps

namespace CkCore.Proofs.PoolTasks
open Lib ThreadPool

/-- The run of the worker is going to read its task, or is executing it. -/
def live : WorkerPc → Bool
  | .starting | .executing => true
  | _ => false

/-- The run of the worker is over. -/
def gone : WorkerPc → Bool
  | .returned | .stopped => true
  | _ => false

/-- The tasks held by workers that will execute them. -/
def held (p : ThreadPool) : List Task :=
  p.workers.filterMap fun x => if live x.pc then x.task else none

/-- Every accepted task is in exactly one place: queued, held or executed. -/
def accounted (p : ThreadPool) : Prop :=
  p.accepted.Perm (p.queue.map Prod.fst ++ held p ++ p.executed)

/-- A retired thread try_start would take has been cleaned up, and its thread
can be created. -/
def restartable (p : ThreadPool) (created : Bool) : Prop :=
  p.activeThreads < p.maxThreads → p.idlThreads = 0 →
    ∀ worker rest thread, p.retThreads = worker :: rest → p.workers[worker]? = some thread →
      thread.running = false ∧ created = true

/-- The steps that restart no thread still on its way out. -/
def reaped (p : ThreadPool) : Event → Prop
  | .start (some _) _ created => restartable p created
  | .startNow (some _) created => restartable p created
  | .reserve numThreads created =>
    numThreads < p.resThreads → p.queue ≠ [] → restartable (p.setReserved numThreads) created
  | _ => True

instance (p : ThreadPool) (created : Bool) : Decidable (restartable p created) :=
  decidable_of_iff (p.activeThreads < p.maxThreads → p.idlThreads = 0 →
      ∀ worker ∈ p.retThreads.head?, ∀ thread ∈ p.workers[worker]?,
        thread.running = false ∧ created = true) (by
    constructor
    · intro h hroom hidle worker rest thread hret hw
      exact h hroom hidle worker (by rw [hret]; rfl) thread hw
    · intro h hroom hidle worker hret thread hw
      obtain ⟨rest, hret⟩ := List.head?_eq_some_iff.mp hret
      exact h hroom hidle worker rest thread hret hw)

instance (p : ThreadPool) : DecidablePred (reaped p)
  | .start (some _) _ created => inferInstanceAs (Decidable (restartable p created))
  | .startNow (some _) created => inferInstanceAs (Decidable (restartable p created))
  | .reserve numThreads created =>
    inferInstanceAs (Decidable (_ → _ → restartable (p.setReserved numThreads) created))
  | .start none _ _ | .startNow none _ | .startNowChoked _ | .setRetireTimeout _ | .enter _
  | .finish _ | .wake _ | .expire _ | .resume _ | .cleanup _ => isTrue trivial

/-- The worker has the task, whether or not it will execute it. -/
def has (t : Task) (x : Worker) : Bool := x.pc != .unborn && x.task == some t

/-- All places a task can be in, with those it is lost in. -/
def owed (p : ThreadPool) (t : Task) : Nat :=
  (p.queue.map Prod.fst).count t + p.workers.countP (has t) + p.executed.count t

/-- Shape of the workers: whoever waits has no task, and the retired threads are
different, done and without a task. -/
structure Tidy (p : ThreadPool) : Prop where
  idle : ∀ x ∈ p.workers,
    (∃ timeout, x.pc = .waiting timeout) ∨ (∃ expired, x.pc = .woken expired) →
    x.task = none
  retired : ∀ w ∈ p.retThreads, ∃ x, p.workers[w]? = some x ∧ gone x.pc = true ∧ x.task = none
  different : p.retThreads.Nodup

/-- The worker was given a task after its run was over. -/
def spoiled (x : Worker) : Bool := gone x.pc && x.task.isSome

/-- No worker whose run is over has been given a task. -/
def kept (p : ThreadPool) : Prop := p.workers.countP spoiled = 0

/-- What a locked section of a worker leaves: the worker at its next point,
without a task unless it executes one, and perhaps retired. -/
structure Settled (p p' : ThreadPool) (w : Nat) (y : Worker) : Prop where
  workers : p'.workers = p.workers.set w y
  accepted : p'.accepted = p.accepted
  executed : p'.executed = p.executed
  born : y.pc ≠ .unborn
  done : live y.pc = false → y.task = none
  retired : p'.retThreads = p.retThreads ∨
    p'.retThreads = w :: p.retThreads ∧ gone y.pc = true

section
variable {p p' : ThreadPool} {w : Nat} {x y : Worker}

theorem afterTasks_settled (hx : x.task = none) :
    ∃ y, Settled p (p.afterTasks w x) w y ∧ y.task = none ∧
      (p.afterTasks w x).queue = p.queue := by
  unfold afterTasks
  split
  · refine ⟨{ x with pc := .returned }, ⟨?_, ?_, ?_, ?_, fun _ => hx, Or.inl ?_⟩, hx, ?_⟩ <;> simp
  · split
    · refine ⟨{ x with pc := .returned }, ⟨?_, ?_, ?_, ?_, fun _ => hx, Or.inr ⟨?_, rfl⟩⟩, hx,
        ?_⟩ <;> simp [retire]
    · refine ⟨{ x with pc := .waiting p.retTimeout }, ⟨?_, ?_, ?_, ?_, fun _ => hx, Or.inl ?_⟩,
        hx, ?_⟩ <;> simp

theorem loopHead_settled (p : ThreadPool) (w : Nat) (x : Worker) :
    ∃ y, Settled p (p.loopHead w x) w y ∧ y.task = x.task ∧
      (p.loopHead w x).queue = p.queue := by
  unfold loopHead
  split
  · refine ⟨{ x with pc := .executing }, ⟨rfl, rfl, rfl, ?_, ?_, Or.inl rfl⟩, rfl, rfl⟩
    · simp
    · intro hl
      cases hl
  · next hx =>
    rw [hx]
    exact afterTasks_settled hx

/-- A fetch moves one task from the queue to the worker, or none. -/
theorem fetch_settled (p : ThreadPool) (w : Nat) (hx : x.task = none) :
    ∃ y, Settled p (p.fetch w x) w y ∧
      ((y.task = none ∧ (p.fetch w x).queue = p.queue) ∨
      ∃ entry ∈ p.queue, y.task = some entry.1 ∧ (p.fetch w x).queue = p.queue.erase entry) := by
  unfold fetch
  cases htop : top p.queue with
  | none =>
    obtain ⟨y, hy, ht, hq⟩ := loopHead_settled p w x
    exact ⟨y, hy, Or.inl ⟨ht.trans hx, hq⟩⟩
  | some entry =>
    obtain ⟨y, hy, ht, hq⟩ := loopHead_settled (p.pop entry) w { x with task := some entry.1 }
    refine ⟨y, ⟨hy.workers, hy.accepted, hy.executed, hy.born, hy.done, hy.retired⟩, Or.inr ?_⟩
    exact ⟨entry, top_mem htop, ht, hq⟩

/-- The thread try_start would restart is done and has no task. -/
theorem Tidy.head (h : Tidy p) {rest : List Nat} (hret : p.retThreads = w :: rest) :
    ∃ x, p.workers[w]? = some x ∧ gone x.pc = true ∧ x.task = none := by
  have hmem : w ∈ p.retThreads := by
    rw [hret]
    exact List.mem_cons_self
  exact h.retired w hmem

theorem Tidy.reserved (h : Tidy p) (numThreads : Nat) (entry : Task × Nat) :
    Tidy ((p.setReserved numThreads).pop entry) := ⟨h.idle, h.retired, h.different⟩

/-- A worker whose run is not over is not among the retired. -/
theorem Tidy.not_retired (h : Tidy p) (hw : p.workers[w]? = some x) (hx : gone x.pc = false) :
    w ∉ p.retThreads := by
  intro hmem
  obtain ⟨x', hx', hgone, _⟩ := h.retired w hmem
  rw [hw] at hx'
  cases hx'
  rw [hx] at hgone
  cases hgone

/-- The retired threads stay so when another worker changes. -/
theorem Tidy.retired_set (h : Tidy p) (hfresh : w ∉ p.retThreads) (y : Worker) {v : Nat}
    (hv : v ∈ p.retThreads) :
    ∃ z, (p.workers.set w y)[v]? = some z ∧ gone z.pc = true ∧ z.task = none := by
  have hne : w ≠ v := fun he => hfresh (he ▸ hv)
  rw [List.getElem?_set_ne hne]
  exact h.retired v hv

/-- A settled worker was not retired before, and keeps the shape. -/
theorem Settled.tidy (hs : Settled p p' w y) (h : Tidy p) (hw : p.workers[w]? = some x)
    (hx : gone x.pc = false) : Tidy p' := by
  have hfresh := h.not_retired hw hx
  have hin : w < p.workers.length := (List.getElem?_eq_some_iff.mp hw).1
  refine ⟨?_, ?_, ?_⟩
  · intro z hz hwait
    rw [hs.workers] at hz
    rcases List.mem_or_eq_of_mem_set hz with hz | rfl
    · exact h.idle z hz hwait
    · apply hs.done
      rcases hwait with ⟨timeout, hpc⟩ | ⟨expired, hpc⟩ <;> rw [hpc] <;> rfl
  · intro v hv
    rw [hs.workers]
    rcases hs.retired with hret | ⟨hret, hgone⟩
    · exact h.retired_set hfresh y (hret ▸ hv)
    · rw [hret] at hv
      rcases List.mem_cons.mp hv with rfl | hv
      · refine ⟨y, List.getElem?_set_self hin, hgone, hs.done ?_⟩
        cases hpc : y.pc <;> simp_all [gone, live]
      · exact h.retired_set hfresh y hv
  · rcases hs.retired with hret | ⟨hret, _⟩
    · rw [hret]
      exact h.different
    · rw [hret]
      exact List.nodup_cons.mpr ⟨hfresh, h.different⟩

theorem Settled.kept (hs : Settled p p' w y) (hw : p.workers[w]? = some x)
    (hx : gone x.pc = false) : kept p' ↔ kept p := by
  have hnew : spoiled y = false := by
    cases hl : live y.pc with
    | true => cases hpc : y.pc <;> simp_all [spoiled, gone, live]
    | false => simp [spoiled, hs.done hl]
  have hold : spoiled x = false := by simp [spoiled, hx]
  rw [PoolTasks.kept, PoolTasks.kept, hs.workers, census_same spoiled hw (hnew.trans hold.symm)]

/-- What the worker gives up and takes is all that changes among the workers. -/
theorem Settled.workers_has (hs : Settled p p' w y) (hw : p.workers[w]? = some x) (t : Task) :
    p'.workers.countP (has t) + (has t x).toNat =
      p.workers.countP (has t) + (y.task == some t).toNat := by
  have hy : has t y = (y.task == some t) := by simp [has, hs.born]
  rw [hs.workers, census_set (has t) hw y, hy]

/-- Taking an entry out takes its task out once. -/
theorem pop_owed {entry : Task × Nat} (h : entry ∈ p.queue) (t : Task) :
    owed (p.pop entry) t + (entry.1 == t).toNat = owed p t := by
  have hperm := (List.perm_cons_erase h).map Prod.fst
  have hcount := hperm.count_eq t
  rw [List.map_cons, List.count_cons] at hcount
  simp only [owed, pop]
  cases hb : entry.1 == t <;> simp [hb] at hcount ⊢ <;> omega

theorem push_owed (entry : Task × Nat) (t : Task) :
    owed (p.push entry) t = owed p t + (entry.1 == t).toNat := by
  simp only [owed, push, List.map_append, List.count_append, List.map_cons, List.map_nil,
    List.count_cons, List.count_nil]
  cases entry.1 == t with
  | true =>
    simp
    omega
  | false => simp

theorem enqueue_owed (task : Task) (priority : Nat) (t : Task) :
    owed (p.enqueue task priority) t = owed p t + (task == t).toNat :=
  push_owed (task, priority) t

/-- The retired thread that gets a task is no longer among the retired. -/
theorem restart_tidy (h : Tidy p) {rest : List Nat} (hret : p.retThreads = w :: rest)
    (task : Task) (created : Bool) : Tidy (p.restart w rest task created) := by
  obtain ⟨x, hw, hgone, _⟩ := h.head hret
  have hdiff := h.different
  rw [hret, List.nodup_cons] at hdiff
  rw [restart_eq hw]
  refine ⟨?_, ?_, hdiff.2⟩
  · intro z hz hwait
    rcases List.mem_or_eq_of_mem_set hz with hz | rfl
    · exact h.idle z hz hwait
    · exfalso
      rcases start_cases { x with task := some task } created with ⟨_, _, hs⟩ | ⟨_, hs⟩
      · rw [hs] at hwait
        simp at hwait
      · rw [hs] at hwait
        rcases hwait with ⟨timeout, hpc⟩ | ⟨expired, hpc⟩
        · rw [show x.pc = _ from hpc] at hgone
          cases hgone
        · rw [show x.pc = _ from hpc] at hgone
          cases hgone
  · intro v hv
    have hne : w ≠ v := fun he => hdiff.1 (he ▸ hv)
    rw [List.getElem?_set_ne hne]
    exact h.retired v (by rw [hret]; exact List.mem_cons_of_mem _ hv)

theorem spawn_tidy (h : Tidy p) (task : Task) (created : Bool) :
    Tidy (p.spawn task created).2 := by
  rw [spawn_eq]
  refine ⟨?_, ?_, h.different⟩
  · intro z hz hwait
    rcases List.mem_append.mp hz with hz | hz
    · exact h.idle z hz hwait
    · rw [List.mem_singleton] at hz
      rw [hz] at hwait
      cases created <;> simp [newborn] at hwait
  · intro v hv
    obtain ⟨x, hx, hrest⟩ := h.retired v hv
    have hin : v < p.workers.length := (List.getElem?_eq_some_iff.mp hx).1
    exact ⟨x, (List.getElem?_append_left hin).trans hx, hrest⟩

theorem tryStart_tidy (h : Tidy p) (task : Task) (created : Bool) :
    Tidy (p.tryStart task created).2 := by
  rcases tryStart_cases p task created with ⟨_, hs⟩ | ⟨_, _, hs⟩ | ⟨_, _, w, rest, hret, hs⟩ |
    ⟨_, _, _, hs⟩
  · rw [hs]
    exact h
  · rw [hs]
    exact ⟨h.idle, h.retired, h.different⟩
  · rw [hs]
    exact restart_tidy h hret task created
  · rw [hs]
    exact spawn_tidy h task created

theorem restart_owed (h : Tidy p) {rest : List Nat} (hret : p.retThreads = w :: rest)
    (task : Task) (created : Bool) (t : Task) :
    owed (p.restart w rest task created) t = owed p t + (task == t).toNat := by
  obtain ⟨x, hw, hgone, hnone⟩ := h.head hret
  have hcensus := census_set (has t) hw (({ x with task := some task } : Worker).start created).2
  have hold : has t x = false := by simp [has, hnone]
  have hnew : has t (({ x with task := some task } : Worker).start created).2 = (task == t) := by
    rcases start_cases { x with task := some task } created with ⟨_, _, hy⟩ | ⟨_, hy⟩
    · simp [hy, has]
    · have hborn : x.pc ≠ .unborn := by
        intro hpc
        rw [hpc] at hgone
        cases hgone
      simp [hy, has, hborn]
  rw [hold, hnew] at hcensus
  simp only [Bool.toNat_false, Nat.add_zero] at hcensus
  simp only [restart_eq hw, owed]
  omega

theorem spawn_owed (p : ThreadPool) (task : Task) (created : Bool) (t : Task) :
    owed (p.spawn task created).2 t =
      owed p t + ((p.spawn task created).1 && task == t).toNat := by
  have hnew : has t (newborn task created) = (created && task == t) := by
    cases created <;> simp [newborn, has]
  simp only [spawn_eq, owed, census_append, hnew]
  omega

/-- An accepted task is in one place more, a refused one in none. -/
theorem tryStart_owed (h : Tidy p) (task : Task) (created : Bool) (t : Task) :
    owed (p.tryStart task created).2 t =
      owed p t + ((p.tryStart task created).1 && task == t).toNat := by
  rcases tryStart_cases p task created with ⟨_, hs⟩ | ⟨_, _, hs⟩ | ⟨_, _, w, rest, hret, hs⟩ |
    ⟨_, _, _, hs⟩
  · rw [hs]
    simp
  · rw [hs]
    exact enqueue_owed task 0 t
  · rw [hs]
    exact restart_owed h hret task created t
  · rw [hs]
    exact spawn_owed p task created t

/-- A restarted thread takes its task up only if it is no longer running and can
be created. -/
theorem restart_kept (h : Tidy p) {rest : List Nat} (hret : p.retThreads = w :: rest)
    (hw : p.workers[w]? = some x) (task : Task) (created : Bool) :
    kept (p.restart w rest task created) ↔ kept p ∧ x.running = false ∧ created = true := by
  obtain ⟨x', hw', hgone, hnone⟩ := h.head hret
  rw [hw] at hw'
  cases hw'
  have hold : spoiled x = false := by simp [spoiled, hnone]
  have hcensus := census_set spoiled hw (({ x with task := some task } : Worker).start created).2
  simp only [kept, restart_eq hw]
  rcases start_cases { x with task := some task } created with ⟨hr, hc, hy⟩ | ⟨hn, hy⟩
  · have hnew : spoiled (({ x with task := some task } : Worker).start created).2 = false := by
      simp [hy, spoiled, gone]
    rw [hold, hnew] at hcensus
    simp only [Bool.toNat_false, Nat.add_zero] at hcensus
    rw [hcensus]
    exact ⟨fun hk => ⟨hk, hr, hc⟩, fun hk => hk.1⟩
  · have hnew : spoiled (({ x with task := some task } : Worker).start created).2 = true := by
      simp [hy, spoiled, hgone]
    rw [hold, hnew] at hcensus
    simp only [Bool.toNat_false, Bool.toNat_true, Nat.add_zero] at hcensus
    constructor
    · intro hk
      omega
    · intro hk
      exact absurd hk.2 hn

theorem spawn_kept (p : ThreadPool) (task : Task) (created : Bool) :
    kept (p.spawn task created).2 ↔ kept p := by
  have hnew : spoiled (newborn task created) = false := by cases created <;> rfl
  have hcensus := census_append spoiled p.workers (newborn task created)
  rw [hnew, Bool.toNat_false, Nat.add_zero] at hcensus
  rw [spawn_eq]
  simp only [kept, hcensus]

/-- Only the restart of a thread that cannot start yet loses its task. -/
theorem tryStart_kept (h : Tidy p) (task : Task) (created : Bool) :
    kept (p.tryStart task created).2 ↔ kept p ∧ restartable p created := by
  rcases tryStart_cases p task created with ⟨hfull, hs⟩ | ⟨_, hidle, hs⟩ |
    ⟨hroom, hidle, w, rest, hret, hs⟩ | ⟨_, _, hret, hs⟩
  · rw [hs]
    exact ⟨fun hk => ⟨hk, fun hroom => absurd hroom (Nat.not_lt.mpr hfull)⟩, fun hk => hk.1⟩
  · rw [hs]
    exact ⟨fun hk => ⟨hk, fun _ hnone => absurd hnone (Nat.pos_iff_ne_zero.mp hidle)⟩,
      fun hk => hk.1⟩
  · obtain ⟨x, hw, _⟩ := h.head hret
    have hready : restartable p created ↔ x.running = false ∧ created = true := by
      constructor
      · intro hr
        exact hr hroom hidle w rest x hret hw
      · intro hx _ _ worker rest' thread hret' hw'
        rw [hret] at hret'
        cases hret'
        rw [hw] at hw'
        cases hw'
        exact hx
    rw [hs, hready]
    exact restart_kept h hret hw task created
  · have hready : restartable p created := by
      intro _ _ worker rest thread hret'
      rw [hret] at hret'
      cases hret'
    rw [hs]
    exact (spawn_kept p task created).trans ⟨fun hk => ⟨hk, hready⟩, fun hk => hk.1⟩

/-- What holds of the tasks in every run, however its steps are ordered: each
accepted task is owed once. -/
structure Sane (p : ThreadPool) : Prop where
  tidy : Tidy p
  balanced : ∀ t, p.accepted.count t = owed p t

/-- What a step does to the lost tasks. -/
structure Effect (p p' : ThreadPool) (e : Event) : Prop where
  sane : Sane p'
  kept : kept p' ↔ kept p ∧ reaped p e

theorem create_sane (count : Nat) : Sane (create count) := by
  refine ⟨⟨?_, ?_, List.nodup_nil⟩, fun t => rfl⟩
  · intro x hx
    cases hx
  · intro w hw
    cases hw

/-- A step under no condition that changes no worker that is done. -/
theorem Effect.free {e : Event} (hs : Sane p') (hk : PoolTasks.kept p' ↔ PoolTasks.kept p)
    (he : reaped p e) : Effect p p' e :=
  ⟨hs, hk.trans ⟨fun h => ⟨h, he⟩, fun h => h.1⟩⟩

theorem count_single (task t : Task) : [task].count t = (task == t).toNat := by
  rw [List.count_singleton]
  cases task == t <;> rfl

/-- try_start on a task that has just been passed in, together with the record
of its acceptance. -/
theorem tryStart_accepts (h : Sane p) {task : Task} {created : Bool}
    (hs : p.tryStart task created = (true, p')) :
    Sane { p' with accepted := p'.accepted ++ [task] } := by
  have htidy := tryStart_tidy h.tidy task created
  have howed := tryStart_owed h.tidy task created
  have hrec := (tryStart_frame p task created).1
  rw [hs] at htidy howed hrec
  refine ⟨⟨htidy.idle, htidy.retired, htidy.different⟩, ?_⟩
  intro t
  have hsum : (p'.accepted ++ [task]).count t = owed p' t := by
    rw [List.count_append, count_single, howed t, Bool.true_and, hrec, h.balanced t]
  exact hsum

theorem tryStart_refuses (h : Sane p) {task : Task} {created : Bool}
    (hs : p.tryStart task created = (false, p')) : Sane p' := by
  have htidy := tryStart_tidy h.tidy task created
  have howed := tryStart_owed h.tidy task created
  have hrec := (tryStart_frame p task created).1
  rw [hs] at htidy howed hrec
  refine ⟨htidy, ?_⟩
  intro t
  rw [howed t, hrec, Bool.false_and, Bool.toNat_false, Nat.add_zero]
  exact h.balanced t

/-- A queued task is owed by the queue. -/
theorem enqueue_sane (h : Sane p) (task : Task) (priority : Nat) :
    Sane { p.enqueue task priority with accepted := p.accepted ++ [task] } := by
  refine ⟨⟨h.tidy.idle, h.tidy.retired, h.tidy.different⟩, ?_⟩
  intro t
  have hsum : (p.accepted ++ [task]).count t = owed (p.enqueue task priority) t := by
    rw [List.count_append, count_single, enqueue_owed, h.balanced t]
  exact hsum

theorem handed_effect (h : Sane p) {task : Task} {created : Bool} {e : Event}
    (hh : Handed p task created p') (hready : reaped p e ↔ restartable p created) :
    Effect p p' e := by
  have hkept := tryStart_kept h.tidy task created
  rw [← hready] at hkept
  cases hh with
  | taken tried after =>
    rw [tried] at hkept
    rw [after]
    exact ⟨tryStart_accepts h tried, hkept⟩
  | queued tried after =>
    rw [tried] at hkept
    rw [after]
    exact ⟨enqueue_sane (tryStart_refuses h tried) task _, hkept⟩
  | refused tried =>
    rw [tried] at hkept
    exact ⟨tryStart_refuses h tried, hkept⟩

/-- reserve moves at most one task, from the queue to where try_start puts it. -/
theorem reserve_effect (h : Sane p) (numThreads : Nat) (created : Bool) :
    Effect p (p.reserve numThreads created) (.reserve numThreads created) := by
  have hset : Sane (p.setReserved numThreads) := ⟨⟨h.tidy.idle, h.tidy.retired, h.tidy.different⟩,
    h.balanced⟩
  rcases reserve_cases p numThreads created with ⟨hnot, hr⟩ |
    ⟨hless, entry, accepted, p₁, htop, hs, hr⟩
  · rw [hr]
    exact .free hset Iff.rfl fun hless hqueue => absurd ⟨hless, hqueue⟩ hnot
  · have hqueue : p.queue ≠ [] := top_ne_nil htop
    have hpop := h.tidy.reserved numThreads entry
    have htidy := tryStart_tidy hpop entry.1 created
    have howed := tryStart_owed hpop entry.1 created
    have hrec := (tryStart_frame ((p.setReserved numThreads).pop entry) entry.1 created).1
    have hkept := tryStart_kept hpop entry.1 created
    have hready : reaped p (.reserve numThreads created) ↔
        restartable ((p.setReserved numThreads).pop entry) created :=
      ⟨fun hr => hr hless hqueue, fun hr _ _ => hr⟩
    have hback := pop_owed (p := p.setReserved numThreads) (top_mem htop)
    rw [hs] at htidy howed hrec hkept
    have hsum : ∀ t, p₁.accepted.count t + (accepted && entry.1 == t).toNat =
        owed p₁ t + (entry.1 == t).toNat := by
      intro t
      have h1 : owed p₁ t = owed ((p.setReserved numThreads).pop entry) t +
          (accepted && entry.1 == t).toNat := howed t
      have h2 := hback t
      have h3 : p.accepted.count t = owed (p.setReserved numThreads) t := h.balanced t
      rw [show p₁.accepted = p.accepted from hrec]
      omega
    rw [hr]
    refine ⟨?_, ?_⟩
    · cases accepted with
      | true => exact ⟨htidy, fun t => Nat.add_right_cancel (hsum t)⟩
      | false =>
        refine ⟨⟨htidy.idle, htidy.retired, htidy.different⟩, fun t => ?_⟩
        exact (hsum t).trans (push_owed entry t).symm
    · cases accepted <;> exact hkept.trans (and_congr_right fun _ => hready.symm)

/-- Where the task of a settled worker comes from. -/
def drawn (p p' : ThreadPool) (y : Worker) : Prop :=
  (y.task = none ∧ p'.queue = p.queue) ∨
  ∃ entry ∈ p.queue, y.task = some entry.1 ∧ p'.queue = p.queue.erase entry

/-- A settled worker has given up what it had and no more. -/
theorem Settled.owed (hs : Settled p p' w y) (hw : p.workers[w]? = some x)
    (hd : drawn p p' y) (t : Task) :
    owed p' t + (has t x).toNat = owed p t := by
  have hhas := hs.workers_has hw t
  rcases hd with ⟨hnone, hq⟩ | ⟨entry, hmem, hsome, hq⟩
  · rw [hnone] at hhas
    simp only [PoolTasks.owed, hq, hs.executed]
    simp at hhas
    omega
  · have hpop := pop_owed hmem t
    have hsame : (y.task == some t) = (entry.1 == t) := by rw [hsome]; rfl
    rw [hsame] at hhas
    simp only [PoolTasks.owed, pop] at hpop
    simp only [PoolTasks.owed, hq, hs.executed]
    omega

/-- A section in which the worker gives up what has just been recorded. -/
theorem Settled.effect {e : Event} {p₀ : ThreadPool} (hs : Settled p₀ p' w y) (h : Sane p)
    (hbase : p₀.workers = p.workers ∧ p₀.retThreads = p.retThreads ∧ p₀.accepted = p.accepted)
    (hw : p.workers[w]? = some x) (hx : gone x.pc = false) (hd : drawn p₀ p' y)
    (howed : ∀ t, PoolTasks.owed p₀ t = PoolTasks.owed p t + (has t x).toNat)
    (he : reaped p e) : Effect p p' e := by
  obtain ⟨hworkers, hret, hacc⟩ := hbase
  have hw₀ : p₀.workers[w]? = some x := by rw [hworkers]; exact hw
  have htidy₀ : Tidy p₀ := by
    refine ⟨?_, ?_, ?_⟩
    · rw [hworkers]
      exact h.tidy.idle
    · rw [hworkers, hret]
      exact h.tidy.retired
    · rw [hret]
      exact h.tidy.different
  have hkept₀ : PoolTasks.kept p₀ ↔ PoolTasks.kept p := by
    rw [PoolTasks.kept, PoolTasks.kept, hworkers]
  refine .free ⟨hs.tidy htidy₀ hw₀ hx, ?_⟩ ((hs.kept hw₀ hx).trans hkept₀) he
  intro t
  have h1 := hs.owed hw₀ hd t
  have h2 := howed t
  rw [hs.accepted, hacc, h.balanced t]
  omega

/-- A worker that is going to read its task starts on it. -/
theorem enter_effect (h : Sane p) (hs : p.step (.enter w) = some p') :
    Effect p p' (.enter w) := by
  obtain ⟨x, hw, hpc, rfl⟩ := step_enter hs
  obtain ⟨y, hy, htask, hqueue⟩ := loopHead_settled p w x
  have hx : gone x.pc = false := by rw [hpc]; rfl
  refine .free ⟨hy.tidy h.tidy hw hx, ?_⟩ (hy.kept hw hx) trivial
  intro t
  have hhas := hy.workers_has hw t
  have hold : has t x = (x.task == some t) := by simp [has, hpc]
  rw [hold, htask] at hhas
  rw [hy.accepted, h.balanced t, owed, owed, hqueue, hy.executed]
  omega

theorem finish_effect (h : Sane p) (hs : p.step (.finish w) = some p') :
    Effect p p' (.finish w) := by
  obtain ⟨x, task, hw, hpc, htask, rfl⟩ := step_finish hs
  have hx : gone x.pc = false := by rw [hpc]; rfl
  have howed : ∀ t, owed { p with executed := p.executed ++ [task] } t =
      owed p t + (has t x).toNat := by
    intro t
    have hold : has t x = (task == t) := by simp [has, hpc, htask]
    rw [hold, ← count_single]
    simp only [owed, List.count_append]
    omega
  simp only [ThreadPool.finish]
  split
  · obtain ⟨y, hy, hnone, hqueue⟩ := afterTasks_settled
      (p := { p with executed := p.executed ++ [task] }) (w := w)
      (x := { x with task := none }) rfl
    exact hy.effect h ⟨rfl, rfl, rfl⟩ hw hx (Or.inl ⟨hnone, hqueue⟩) howed trivial
  · obtain ⟨y, hy, hd⟩ := fetch_settled { p with executed := p.executed ++ [task] } w
      (x := { x with task := none }) rfl
    exact hy.effect h ⟨rfl, rfl, rfl⟩ hw hx hd howed trivial

/-- A worker inside a wait has no task. -/
theorem Tidy.no_task (h : Tidy p) (hw : p.workers[w]? = some x)
    (hpc : (∃ timeout, x.pc = .waiting timeout) ∨ ∃ expired, x.pc = .woken expired) :
    x.task = none := h.idle x (List.mem_of_getElem? hw) hpc

theorem has_none (hx : x.task = none) (t : Task) : (has t x).toNat = 0 := by simp [has, hx]

theorem resume_effect (h : Sane p) (hs : p.step (.resume w) = some p') :
    Effect p p' (.resume w) := by
  obtain ⟨x, expired, hw, hpc, rfl⟩ := step_resume hs
  have hx : gone x.pc = false := by rw [hpc]; rfl
  have hnone := h.tidy.no_task hw (Or.inr ⟨expired, hpc⟩)
  cases expired with
  | true =>
    have hy : Settled { p with
          polThreads := addWord p.polThreads 1, idlThreads := subWord p.idlThreads 1 }
        (p.resume w x true) w { x with pc := .returned } :=
      ⟨rfl, rfl, rfl, by simp, fun _ => hnone, Or.inr ⟨rfl, rfl⟩⟩
    exact hy.effect h ⟨rfl, rfl, rfl⟩ hw hx (Or.inl ⟨hnone, rfl⟩)
      (fun t => by rw [has_none hnone]; rfl) trivial
  | false =>
    obtain ⟨y, hy, hd⟩ := fetch_settled { p with
      polThreads := addWord p.polThreads 1, promised := p.promised - 1 } w hnone
    exact hy.effect h ⟨rfl, rfl, rfl⟩ hw hx hd (fun t => by rw [has_none hnone]; rfl) trivial

/-- Leaving the condition, by a wake-up or by time, moves no task. -/
theorem leave_effect (h : Sane p) (hw : p.workers[w]? = some x) {timeout : Nat}
    (hpc : x.pc = .waiting timeout) (condition : WaitCondition) (expired : Bool) {e : Event}
    (he : reaped p e) :
    Effect p ({ p with taskReady := condition }.put w { x with pc := .woken expired }) e := by
  have hx : gone x.pc = false := by rw [hpc]; rfl
  have hnone := h.tidy.no_task hw (Or.inl ⟨timeout, hpc⟩)
  have hy : Settled { p with taskReady := condition }
      ({ p with taskReady := condition }.put w { x with pc := .woken expired }) w
      { x with pc := .woken expired } :=
    ⟨rfl, rfl, rfl, by simp, fun _ => hnone, Or.inl rfl⟩
  exact hy.effect h ⟨rfl, rfl, rfl⟩ hw hx (Or.inl ⟨hnone, rfl⟩)
    (fun t => by rw [has_none hnone]; rfl) he

/-- Cleaning up after a worker leaves it done, with whatever task it was given. -/
theorem cleanup_effect (h : Sane p) (hs : p.step (.cleanup w) = some p') :
    Effect p p' (.cleanup w) := by
  obtain ⟨x, hw, hpc, rfl⟩ := step_cleanup hs
  have hin : w < p.workers.length := (List.getElem?_eq_some_iff.mp hw).1
  have hspoiled : spoiled { x with running := false, pc := .stopped } = spoiled x := by
    simp [spoiled, hpc, gone]
  refine .free ⟨⟨?_, ?_, h.tidy.different⟩, ?_⟩ ?_ trivial
  · intro z hz hwait
    rcases List.mem_or_eq_of_mem_set hz with hz | rfl
    · exact h.tidy.idle z hz hwait
    · simp at hwait
  · intro v hv
    obtain ⟨z, hz, hgone, hnone⟩ := h.tidy.retired v hv
    by_cases hvw : w = v
    · subst hvw
      rw [hw] at hz
      cases hz
      exact ⟨_, List.getElem?_set_self hin, rfl, hnone⟩
    · exact ⟨z, (List.getElem?_set_ne hvw).trans hz, hgone, hnone⟩
  · intro t
    have hhas : has t { x with running := false, pc := .stopped } = has t x := by
      rw [has, has, hpc]
      rfl
    rw [put_accepted, h.balanced t, owed, owed, put_queue, put_executed, put_workers,
      census_same (has t) hw hhas]
  · rw [kept, kept, put_workers, census_same spoiled hw hspoiled]

/-- Every step keeps the accounts, and loses a task only by restarting a thread
on its way out. -/
theorem step_effect (h : Sane p) {e : Event} (hs : p.step e = some p') : Effect p p' e := by
  cases e with
  | start task priority created =>
    rcases step_start hs with ⟨rfl, rfl⟩ | ⟨t, rfl, hh⟩
    · exact .free h Iff.rfl trivial
    · exact handed_effect h hh Iff.rfl
  | startNow task created =>
    rcases step_startNow hs with ⟨rfl, rfl⟩ | ⟨t, rfl, hh⟩
    · exact .free h Iff.rfl trivial
    · exact handed_effect h hh Iff.rfl
  | startNowChoked task =>
    have hsame := step_startNowChoked hs
    subst hsame
    exact .free h Iff.rfl trivial
  | reserve numThreads created =>
    cases hs
    exact reserve_effect h numThreads created
  | setRetireTimeout timeout =>
    cases hs
    exact .free ⟨⟨h.tidy.idle, h.tidy.retired, h.tidy.different⟩, h.balanced⟩ Iff.rfl trivial
  | enter w => exact enter_effect h hs
  | finish w => exact finish_effect h hs
  | wake w =>
    obtain ⟨x, timeout, hw, hpc, _, rfl⟩ := step_wake hs
    exact leave_effect h hw hpc _ false trivial
  | expire w =>
    obtain ⟨x, timeout, hw, hpc, rfl⟩ := step_expire hs
    exact leave_effect h hw hpc _ true trivial
  | resume w => exact resume_effect h hs
  | cleanup w => exact cleanup_effect h hs

/-- The tasks held are those of the workers that will execute them. -/
def holds (t : Task) (x : Worker) : Bool := live x.pc && x.task == some t

def spoiledBy (t : Task) (x : Worker) : Bool := gone x.pc && x.task == some t

theorem held_count (workers : List Worker) (t : Task) :
    (workers.filterMap fun x => if live x.pc then x.task else none).count t =
      workers.countP (holds t) := by
  induction workers with
  | nil => rfl
  | cons x workers ih =>
    rw [List.countP_cons, ← ih]
    cases hl : live x.pc with
    | false => simp [hl, holds]
    | true =>
      cases ht : x.task with
      | none => simp [hl, ht, holds]
      | some task => simp [hl, ht, holds, List.count_cons]

/-- A worker that has a task is going to execute it, or was given it too late. -/
theorem has_split (h : Tidy p) (t : Task) :
    p.workers.countP (has t) = p.workers.countP (holds t) + p.workers.countP (spoiledBy t) := by
  have hdisjoint : ∀ x, ¬ (holds t x = true ∧ spoiledBy t x = true) := by
    intro x
    cases hpc : x.pc <;> simp [holds, spoiledBy, hpc, live, gone]
  rw [census_disjoint hdisjoint]
  apply List.countP_congr
  intro x hx
  have hidle := h.idle x hx
  cases hpc : x.pc with
  | waiting timeout =>
    have hnone := hidle (Or.inl ⟨timeout, hpc⟩)
    simp [has, holds, spoiledBy, hnone]
  | woken expired =>
    have hnone := hidle (Or.inr ⟨expired, hpc⟩)
    simp [has, holds, spoiledBy, hnone]
  | unborn | starting | executing | returned | stopped =>
    simp [has, holds, spoiledBy, hpc, live, gone]

theorem kept_iff : kept p ↔ ∀ t, p.workers.countP (spoiledBy t) = 0 := by
  simp only [kept, List.countP_eq_zero]
  constructor
  · intro h t x hx hs
    apply h x hx
    cases ht : x.task <;> simp_all [spoiled, spoiledBy]
  · intro h x hx hs
    cases ht : x.task with
    | none => simp [spoiled, ht] at hs
    | some t =>
      apply h t x hx
      simp_all [spoiled, spoiledBy]

/-- The accepted tasks are all in their places just when none was given to a
worker that is done. -/
theorem Sane.accounted_iff (h : Sane p) : accounted p ↔ kept p := by
  rw [accounted, List.perm_iff_count, kept_iff]
  apply forall_congr'
  intro t
  rw [h.balanced t, owed, has_split h.tidy t, List.count_append, List.count_append, held,
    held_count]
  omega

theorem run_kept {past : List (ThreadPool × Event)} (h : system.Run past p) :
    Sane p ∧ (kept p ↔ ∀ q ∈ past, reaped q.1 q.2) := by
  induction h with
  | start h =>
    obtain ⟨count, rfl⟩ := h
    exact ⟨create_sane count, fun _ q hq => absurd hq (List.not_mem_nil), fun _ => rfl⟩
  | next before hs ih =>
    have heffect := step_effect ih.1 hs
    refine ⟨heffect.sane, ?_⟩
    rw [heffect.kept, ih.2, List.forall_mem_append, List.forall_mem_singleton]

/-- After any run every accepted task is in exactly one place just when no step
of the run restarted a thread before its cleanup. -/
theorem accounted_run_iff {past : List (ThreadPool × Event)} (h : system.Run past p) :
    accounted p ↔ ∀ q ∈ past, reaped q.1 q.2 :=
  (run_kept h).1.accounted_iff.trans (run_kept h).2

/-- A second task handed to the worker that the first has left idle. -/
theorem accounted_run_iff_idle :
    ∃ past p, system.Run past p ∧ p.accepted = [1, 2] ∧
      (accounted p ↔ ∀ q ∈ past, reaped q.1 q.2) := by
  have hidle : ((follow step [] (create 1) [.start (some 1) 0 true, .enter 0, .finish 0,
      .start (some 2) 0 true, .wake 0, .resume 0]).map fun r => r.2.accepted) =
      some [1, 2] := by decide +kernel
  obtain ⟨⟨past, p⟩, hfollow, hacc⟩ := Option.map_eq_some_iff.mp hidle
  have hstart : system.Run [] (create 1) := .start ⟨1, rfl⟩
  have hrun : system.Run past p := hstart.follow hfollow
  exact ⟨past, p, hrun, hacc, accounted_run_iff hrun⟩

/-- A task handed to a thread that has retired but not been cleaned up is
nowhere afterwards. -/
theorem early_restart_drops_task :
    ∃ past p, system.Run past p ∧ p.accepted = [1, 2] ∧ p.queue = [] ∧ held p = [] ∧
      p.executed = [1] ∧ ¬ accounted p := by
  have hdrop : ((follow step [] (create 1) [.start (some 1) 0 true, .enter 0, .finish 0,
      .expire 0, .resume 0, .start (some 2) 0 true, .cleanup 0]).map
      fun r => (r.2.accepted, r.2.queue, held r.2, r.2.executed)) =
      some ([1, 2], [], [], [1]) := by decide +kernel
  obtain ⟨⟨past, p⟩, hfollow, hplaces⟩ := Option.map_eq_some_iff.mp hdrop
  simp only [Prod.mk.injEq] at hplaces
  obtain ⟨hacc, hqueue, hheld, hexec⟩ := hplaces
  have hstart : system.Run [] (create 1) := .start ⟨1, rfl⟩
  have hrun : system.Run past p := hstart.follow hfollow
  refine ⟨past, p, hrun, hacc, hqueue, hheld, hexec, ?_⟩
  intro h
  have hlength := h.length_eq
  rw [hacc, hqueue, hheld, hexec] at hlength
  cases hlength

end
end CkCore.Proofs.PoolTasks
