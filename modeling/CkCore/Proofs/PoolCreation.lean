import CkCore.Proofs.PoolForce
import CkCore.Proofs.PoolFreed

namespace CkCore.Proofs.PoolCreation
open Lib ThreadPool PoolTasks PoolCount PoolForce PoolFreed

/-- The call of try_start in a step: the pool it is made on, the task, and
whether a thread can be created. -/
def tries (p : ThreadPool) : Event → Option (ThreadPool × Task × Bool)
  | .start (some task) _ created | .startNow (some task) created => some (p, task, created)
  | .reserve numThreads created =>
    if numThreads < p.resThreads then
      (top p.queue).map fun entry => ((p.setReserved numThreads).pop entry, entry.1, created)
    else none
  | _ => none

/-- try_start gets as far as creating a thread, a new one or that of a retired
worker that has been cleaned up. -/
def Creating (p : ThreadPool) : Prop :=
  p.activeThreads < p.maxThreads ∧ p.idlThreads = 0 ∧
    ∀ w rest x, p.retThreads = w :: rest → p.workers[w]? = some x → x.running = false

/-- The step tries to create a thread and cannot. -/
def Fails (p : ThreadPool) (e : Event) : Prop :=
  ∃ q task, tries p e = some (q, task, false) ∧ Creating q

/-- The workers whose thread runs and that are not idle. -/
def employed (p : ThreadPool) : Nat :=
  (p.workers.countP fun x => x.pc != .unborn && place x.pc != .done) - PoolCount.idle p

def Accurate (p : ThreadPool) : Prop := p.activeThreads = p.resThreads + employed p

/-- A failure to create a thread leaves no trace: try_start returns false and
the pool as it was, no worker gets to know the task, which start queues, and
active_threads counts what it did. -/
structure Untouched (p q : ThreadPool) (e : Event) (task : Task) : Prop where
  refused : (q.tryStart task false).1 = false
  pool : (q.tryStart task false).2 = q
  workers : ∀ p', p.step e = some p' → p'.workers = p.workers
  queued : ∀ p' priority, e = .start (some task) priority false → p.step e = some p' →
    p'.queue = p.queue ++ [(task, priority)]
  accurate : Accurate q → Accurate (q.tryStart task false).2

def Atomic (p : ThreadPool) (e : Event) : Prop :=
  ∀ q task, tries p e = some (q, task, false) → Creating q → Untouched p q e task

section
variable {p q : ThreadPool} {e : Event}

/-- try_start never leaves the pool as it was when it gets that far. -/
theorem creation_touches (h : Creating q) (task : Task) : (q.tryStart task false).2 ≠ q := by
  obtain ⟨hroom, hidle, _⟩ := h
  rcases tryStart_cases q task false with ⟨hfull, _⟩ | ⟨_, hsome, _⟩ |
    ⟨_, _, w, rest, hret, hs⟩ | ⟨_, _, _, hs⟩
  · omega
  · omega
  · rw [hs]
    intro (hsame : q.restart w rest task false = q)
    have hrest := (restart_counts q w rest task false).2.2.1
    rw [hsame, hret] at hrest
    exact List.cons_ne_self w rest hrest
  · rw [hs, spawn_eq]
    intro hsame
    have hlen := congrArg (fun r => r.workers.length) hsame
    simp at hlen

theorem atomic_iff : Atomic p e ↔ ¬ Fails p e := by
  constructor
  · rintro h ⟨q, task, htries, hcreating⟩
    exact creation_touches hcreating task (h q task htries hcreating).pool
  · intro h q task htries hcreating
    exact absurd ⟨q, task, htries, hcreating⟩ h

theorem not_fails (h : steady p e) : ¬ Fails p e := by
  rintro ⟨q, task, htries, _⟩
  have hcreates := h.2.2
  unfold tries at htries
  split at htries
  · cases htries
    cases hcreates
  · cases htries
    cases hcreates
  · split at htries
    · obtain ⟨entry, _, hq⟩ := Option.map_eq_some_iff.mp htries
      cases hq
      cases hcreates
    · cases htries
  · cases htries

/-- Where the counters fit the workers active_threads counts the reserved threads
and the workers at work. -/
theorem attended_accurate (hl : Linked p) (h : Manned p) : Accurate p := by
  have hborn : p.workers.countP (fun x => x.pc != .unborn && place x.pc != .done) =
      p.workers.countP (fun x => place x.pc != .done) := by
    apply List.countP_congr
    intro x hx
    simp [h.born x hx]
  have hrest : p.workers.countP (fun x => place x.pc != .done) + tally p .done =
      p.workers.length := by
    simp only [tally]
    induction p.workers with
    | nil => rfl
    | cons x workers ih =>
      simp only [List.countP_cons, List.length_cons]
      cases place x.pc <;> simp <;> omega
  have hall := tally_all p
  have hidle := hl.idle_eq
  have hcount := hl.idle
  have hactive := active_eq hl h
  unfold Accurate employed
  rw [hborn, hidle, hactive]
  unfold force
  omega

/-- What a failed creation leaves behind: active_threads counts one thread more,
and no more workers are at work. -/
theorem creation_leaks (hc : Consistent q) (ht : Tidy q) (h : Creating q) (task : Task) :
    (q.tryStart task false).2.activeThreads = q.activeThreads + 1 ∧
    employed (q.tryStart task false).2 = employed q := by
  obtain ⟨hroom, hidle, _⟩ := h
  refine ⟨(tryStart_active hc hroom task false).1, ?_⟩
  rcases tryStart_cases q task false with ⟨hfull, _⟩ | ⟨_, hsome, _⟩ |
    ⟨_, _, w, rest, hret, hs⟩ | ⟨_, _, _, hs⟩
  · omega
  · omega
  · obtain ⟨x, hw, _, _⟩ := ht.head hret
    have hsame : (({ x with task := some task } : Worker).start false).2 =
        { x with task := some task } := by
      unfold Worker.start
      split <;> rfl
    rw [hs, restart_eq hw, hsame]
    unfold employed PoolCount.idle inside
    have hcount : ∀ f : WorkerPc → Bool,
        (q.workers.set w { x with task := some task }).countP (fun y => f y.pc) =
          q.workers.countP (fun y => f y.pc) := fun f => census_same _ hw rfl
    rw [hcount fun pc => pc != .unborn && place pc != .done,
      hcount fun pc => place pc == .waiting || place pc == .roused || place pc == .expired]
  · rw [hs, spawn_eq]
    unfold employed PoolCount.idle inside
    rw [census_append, census_append]
    rfl

theorem tries_tidy (h : Tidy p) {task : Task} {created : Bool}
    (ht : tries p e = some (q, task, created)) : Tidy q := by
  unfold tries at ht
  split at ht
  · cases ht
    exact h
  · cases ht
    exact h
  · split at ht
    · obtain ⟨entry, _, hq⟩ := Option.map_eq_some_iff.mp ht
      cases hq
      exact h.reserved _ entry
    · cases ht
  · cases ht

/-- Whatever the order of the steps, all are atomic just when no creation of a
thread fails. If besides the idle count and the wake-ups stay together and no
retired thread is restarted too early, active_threads is accurate; a failure
makes it count one thread more than are at work from then on. -/
theorem failed_creation_iff {past : List (ThreadPool × Event)} (h : system.Run past p) :
    ((∀ s ∈ past, Atomic s.1 s.2) ↔ ∀ s ∈ past, ¬ Fails s.1 s.2) ∧
    ((∀ s ∈ past, steady s.1 s.2) → 2 * p.maxThreads < word → Accurate p) ∧
    ∀ s ∈ past, ∀ q task, tries s.1 s.2 = some (q, task, false) → Creating q → Consistent q →
      (q.tryStart task false).2.activeThreads = q.activeThreads + 1 ∧
      employed (q.tryStart task false).2 = employed q := by
  refine ⟨forall₂_congr fun _ _ => atomic_iff, ?_, ?_⟩
  · intro hsteady hsmall
    obtain ⟨hl, ha⟩ := reached_attended (h.reached hsteady) hsmall
    exact attended_accurate hl ha.toManned
  · intro s hs q task htries hcreating hconsistent
    have hsane : Sane s.1 := by
      refine h.invariant_past (I := Sane) ?_
        (fun p e p' hsane hs => (step_effect hsane hs).sane) s hs
      rintro p ⟨count, rfl⟩
      exact create_sane count
    exact creation_leaks hconsistent (tries_tidy hsane.tidy htries) hcreating task

/-- Two tasks, of which the second is handed to the worker of the first. -/
theorem failed_creation_iff_idle : ∃ past p, system.Run past p ∧ p.accepted = [1, 2] ∧
    (∀ s ∈ past, Atomic s.1 s.2) ∧ Accurate p := by
  have hidle : ((follow step [] (create 1) [.start (some 1) 0 true, .enter 0, .finish 0,
      .start (some 2) 0 true, .wake 0]).map fun r =>
      (r.2.maxThreads, r.2.accepted, decide (∀ q ∈ r.1, steady q.1 q.2))) =
      some (1, [1, 2], true) := by decide +kernel
  obtain ⟨⟨past, p⟩, hfollow, hfinal⟩ := Option.map_eq_some_iff.mp hidle
  simp only [Prod.mk.injEq, decide_eq_true_eq] at hfinal
  obtain ⟨hmax, hacc, hsteady⟩ := hfinal
  have hstart : system.Run [] (create 1) := .start ⟨1, rfl⟩
  have hrun : system.Run past p := hstart.follow hfollow
  have hsmall : 2 * p.maxThreads < word := by rw [hmax]; decide
  obtain ⟨hatomic, haccurate, _⟩ := failed_creation_iff hrun
  refine ⟨past, p, hrun, hacc, hatomic.mpr ?_, haccurate hsteady hsmall⟩
  intro s hs hfails
  exact not_fails (hsteady s hs) hfails

/-- No thread can be created for the first task: the task is queued, and the
worker made for it counts as active for ever. -/
theorem unborn_worker_counts : ∃ past p, system.Run past p ∧ p.maxThreads = 1 ∧
    p.queue = [(1, 0)] ∧ p.allThreads = [0] ∧ p.activeThreads = 1 ∧ employed p = 0 ∧
    ¬ Accurate p ∧ ¬ ∀ s ∈ past, Atomic s.1 s.2 := by
  have hfail : ∃ p, follow step [] (create 1) [.start (some 1) 0 false] =
      some ([(create 1, .start (some 1) 0 false)], p) ∧ p.maxThreads = 1 ∧ p.queue = [(1, 0)] ∧
      p.allThreads = [0] ∧ p.activeThreads = 1 ∧ p.resThreads = 0 ∧ employed p = 0 :=
    ⟨_, rfl, rfl, rfl, rfl, rfl, rfl, rfl⟩
  obtain ⟨p, hfollow, hmax, hqueue, hall, hactive, hres, hnone⟩ := hfail
  have hstart : system.Run [] (create 1) := .start ⟨1, rfl⟩
  refine ⟨_, p, hstart.follow hfollow, hmax, hqueue, hall, hactive, hnone, ?_, ?_⟩
  · unfold Accurate
    omega
  · intro h
    have hfree : Creating (create 1) := ⟨by decide, rfl, fun _ _ _ hret => nomatch hret⟩
    have hfails : Fails (create 1) (.start (some 1) 0 false) := ⟨create 1, 1, rfl, hfree⟩
    exact atomic_iff.mp (h _ List.mem_cons_self) hfails

end

end CkCore.Proofs.PoolCreation
