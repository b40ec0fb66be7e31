import CkCore.Proofs.PoolTurns

namespace CkCore.Proofs.PoolForce
open Lib ThreadPool PoolTasks PoolCount PoolTurns

/-- Tasks are queued and threads are to spare, but every worker is over or waits
without a wake-up. -/
def stranded (p : ThreadPool) : Prop :=
  p.queue ≠ [] ∧ working p + p.resThreads < p.maxThreads ∧
    ∀ x ∈ p.workers, gone x.pc = true ∨ x.pc = .unborn ∨
      ((∃ timeout, x.pc = .waiting timeout) ∧ p.taskReady.wakeups = 0)

/-- Every thread the pool makes is created. -/
def creates : Event → Prop
  | .start _ _ created | .startNow _ created | .reserve _ created => created = true
  | _ => True

/-- As paired; without reserved threads a start is only refused when every
waiter has its wake-up. -/
def kindled (p : ThreadPool) : Event → Prop
  | .start (some _) _ _ => served p ∧
    (0 < p.resThreads → p.activeThreads ≥ p.maxThreads → ¬ unpromised p)
  | e => paired p e

/-- The steps that keep the counters and lose no worker. -/
def steady (p : ThreadPool) (e : Event) : Prop := kindled p e ∧ reaped p e ∧ creates e

instance : DecidablePred creates
  | .start _ _ _ | .startNow _ _ | .reserve _ _ => inferInstanceAs (Decidable (_ = true))
  | .startNowChoked _ | .setRetireTimeout _ | .enter _ | .finish _ | .wake _ | .expire _
  | .resume _ | .cleanup _ => isTrue trivial

instance (p : ThreadPool) : DecidablePred (kindled p)
  | .start (some _) _ _ => inferInstanceAs (Decidable (served p ∧ (_ → _ → ¬ unpromised p)))
  | .start none _ _ => isTrue trivial
  | .startNow task created => inferInstanceAs (Decidable (paired p (.startNow task created)))
  | .reserve num created => inferInstanceAs (Decidable (paired p (.reserve num created)))
  | .expire _ => inferInstanceAs (Decidable (unpromised p))
  | .startNowChoked _ | .setRetireTimeout _ | .enter _ | .finish _ | .wake _ | .resume _
  | .cleanup _ => isTrue trivial

instance (p : ThreadPool) (e : Event) : Decidable (steady p e) :=
  inferInstanceAs (Decidable (_ ∧ _ ∧ _))

/-- The workers that look at the queue before they wait or retire, and the
wake-ups that will send more of them there. -/
def force (p : ThreadPool) : Nat := tally p .busy + tally p .roused + p.taskReady.wakeups

/-- Every thread whose run is over is a retired one, and every other has begun,
with a task. -/
structure Manned (p : ThreadPool) : Prop where
  exact : p.retThreads.length = tally p .done
  born : ∀ x ∈ p.workers, x.pc ≠ .unborn
  tasked : ∀ x ∈ p.workers, x.pc = .starting → x.task ≠ none

/-- A queued task has a worker to take it, unless all threads are reserved. -/
structure Attended (p : ThreadPool) : Prop extends Manned p where
  served : p.queue = [] ∨ p.maxThreads ≤ p.resThreads ∨ 0 < force p

section
variable {p p' : ThreadPool} {w : Nat} {x y : Worker} {task : Task} {e : Event}

/-- Every worker is counted in one place. -/
theorem tally_all (p : ThreadPool) : tally p .busy + tally p .waiting + tally p .roused +
    tally p .expired + tally p .done = p.workers.length := by
  simp only [tally]
  induction p.workers with
  | nil => rfl
  | cons x workers ih =>
    simp only [List.countP_cons, List.length_cons]
    cases place x.pc <;> simp <;> omega

/-- The active threads are the reserved ones and the force. -/
theorem active_eq (h : Linked p) (hm : Manned p) :
    p.activeThreads = p.resThreads + force p := by
  have hactive := h.active
  have hall := h.all
  have hidle := h.idle
  have hrecorded := h.recorded
  have hwaiters := h.waiters
  have hexact := hm.exact
  have htotal := tally_all p
  unfold force
  omega

theorem Manned.turn (h : Manned p) (hm : Moved p p' w y) (hw : p.workers[w]? = some x)
    (hret : p'.retThreads.length + (place x.pc == .done).toNat =
      p.retThreads.length + (place y.pc == .done).toNat)
    (hborn : y.pc ≠ .unborn) (htask : y.pc = .starting → y.task ≠ none) : Manned p' := by
  have htally := hm.tally hw rfl rfl .done
  have hexact := h.exact
  refine ⟨by omega, ?_, ?_⟩
  · intro z hz
    rcases hm.others hz with hz | rfl
    · exact h.born z hz
    · exact hborn
  · intro z hz
    rcases hm.others hz with hz | rfl
    · exact h.tasked z hz
    · exact htask

theorem force_turn (hm : Moved p p' w y) (hw : p.workers[w]? = some x) :
    force p' + p.taskReady.wakeups + (place x.pc == .busy).toNat +
        (place x.pc == .roused).toNat =
      force p + p'.taskReady.wakeups + (place y.pc == .busy).toNat +
        (place y.pc == .roused).toNat := by
  have hbusy := hm.tally hw rfl rfl .busy
  have hroused := hm.tally hw rfl rfl .roused
  unfold force
  omega

/-- A worker that gets a task is part of the force. -/
theorem employed_force (hm : Moved p p' w y) (hw : p.workers[w]? = some x)
    (hy : place y.pc = .busy) : 0 < force p' := by
  have hpos := tally_pos (hm.self hw) hy
  unfold force
  omega

theorem enter_attended (h : Attended p) (hs : p.step (.enter w) = some p') : Attended p' := by
  obtain ⟨x, hw, hpc, rfl⟩ := step_enter hs
  unfold loopHead
  split
  case h_1 task htask =>
    have hm : Moved p (p.put w { x with pc := .executing }) w { x with pc := .executing } :=
      ⟨rfl, rfl, rfl, rfl, rfl⟩
    refine ⟨h.turn hm hw ?_ (fun hn => nomatch hn) (fun hn => nomatch hn),
      Or.inr (Or.inr (employed_force hm hw rfl))⟩
    rw [hpc]
    rfl
  case h_2 htask => exact absurd htask (h.tasked x (List.mem_of_getElem? hw) hpc)

/-- A worker that retires or rests with an empty queue needs nobody. -/
theorem afterTasks_attended (h : Manned p) (hcalm : p.exiting = false) (hempty : p.queue = [])
    (hw : p.workers[w]? = some x) (hx : place x.pc ≠ .done) : Attended (p.afterTasks w x) := by
  have hnot : (place x.pc == .done) = false := beq_false_of_ne hx
  rcases afterTasks_turn hcalm w x with ⟨_, hs⟩ | ⟨_, hs⟩
  · rw [hs]
    refine ⟨h.turn (y := { x with pc := .returned }) ⟨rfl, rfl, rfl, rfl, rfl⟩ hw ?_
      (fun hn => nomatch hn) (fun hn => nomatch hn), Or.inl hempty⟩
    rw [hnot]
    rfl
  · rw [hs]
    refine ⟨h.turn (y := { x with pc := .waiting p.retTimeout }) ⟨rfl, rfl, rfl, rfl, rfl⟩ hw ?_
      (fun hn => nomatch hn) (fun hn => nomatch hn), Or.inl hempty⟩
    rw [hnot]
    rfl

theorem employ_attended (h : Manned p) (entry : Task × Nat) (hw : p.workers[w]? = some x)
    (hx : place x.pc ≠ .done) (y : Worker) : Attended (employ p entry w y) := by
  have hnot : (place x.pc == .done) = false := beq_false_of_ne hx
  have hm : Moved p (employ p entry w y) w { y with task := some entry.1, pc := .executing } :=
    ⟨rfl, rfl, rfl, rfl, rfl⟩
  refine ⟨h.turn hm hw ?_ (fun hn => nomatch hn) (fun hn => nomatch hn),
    Or.inr (Or.inr (employed_force hm hw rfl))⟩
  rw [hnot]
  rfl

/-- Retiring an overworking worker leaves another one, or only reserved threads. -/
theorem finish_attended (hl : Linked p) (h : Attended p) (hs : p.step (.finish w) = some p') :
    Attended p' := by
  obtain ⟨x, task, hw, hpc, _, rfl⟩ := step_finish hs
  have hx : place x.pc = .busy := by rw [hpc]; rfl
  have hdone : place x.pc ≠ .done := by rw [hx]; decide
  have hrecord : Manned { p with executed := p.executed ++ [task] } :=
    ⟨h.exact, h.born, h.tasked⟩
  rcases finish_turn hl.calm w x task with ⟨hover, hf⟩ | ⟨_, entry, _, hf⟩ | ⟨_, hempty, hf⟩
  · rw [hf]
    have hm : Moved p ({ p with executed := p.executed ++ [task] }.retire w
        { x with task := none }) w { x with task := none, pc := .returned } :=
      ⟨rfl, rfl, rfl, rfl, rfl⟩
    have hforce := force_turn hm hw
    rw [hx] at hforce
    have hmany : p.maxThreads < p.activeThreads := of_decide_eq_true hover
    rw [active_eq hl h.toManned] at hmany
    refine ⟨h.turn hm hw ?_ (fun hn => nomatch hn) (fun hn => nomatch hn), Or.inr ?_⟩
    · rw [hx]
      rfl
    · change p.maxThreads ≤ p.resThreads ∨ _
      change _ + p.taskReady.wakeups + 1 + 0 = force p + p.taskReady.wakeups + 0 + 0 at hforce
      omega
  · rw [hf]
    exact employ_attended hrecord entry hw hdone _
  · rw [hf]
    refine ⟨h.turn (y := { x with task := none, pc := .waiting p.retTimeout })
      ⟨rfl, rfl, rfl, rfl, rfl⟩ hw ?_ (fun hn => nomatch hn) (fun hn => nomatch hn),
      Or.inl hempty⟩
    rw [hx]
    rfl

/-- A step that leaves the queue and the force alone. -/
theorem Attended.turn (h : Attended p) (hm : Moved p p' w y) (hw : p.workers[w]? = some x)
    (hmanned : Manned p') (hqueue : p'.queue = p.queue)
    (hforce : p'.taskReady.wakeups + (place y.pc == .busy).toNat +
        (place y.pc == .roused).toNat =
      p.taskReady.wakeups + (place x.pc == .busy).toNat + (place x.pc == .roused).toNat) :
    Attended p' := by
  have hturn := force_turn hm hw
  have hsame : force p' = force p := by omega
  refine ⟨hmanned, ?_⟩
  rw [hqueue, hm.maxThreads, hm.resThreads, hsame]
  exact h.served

/-- A worker that leaves the wait takes a wake-up with it, or keeps them all. -/
theorem leave_attended (h : Attended p) (hw : p.workers[w]? = some x) {timeout : Nat}
    (hpc : x.pc = .waiting timeout) (condition : WaitCondition) (expired : Bool)
    (hkeep : condition.wakeups + (!expired).toNat = p.taskReady.wakeups) :
    Attended ({ p with taskReady := condition }.put w { x with pc := .woken expired }) := by
  have hx : place x.pc = .waiting := by rw [hpc]; rfl
  have hm : Moved p ({ p with taskReady := condition }.put w { x with pc := .woken expired }) w
      { x with pc := .woken expired } := ⟨rfl, rfl, rfl, rfl, rfl⟩
  have hret : p.retThreads.length + (place x.pc == .done).toNat =
      p.retThreads.length + (place (.woken expired) == .done).toNat := by
    rw [hx]
    cases expired <;> rfl
  refine h.turn hm hw (h.toManned.turn hm hw hret (fun hn => nomatch hn)
    (fun hn => nomatch hn)) rfl ?_
  rw [hx, ← hkeep]
  cases expired <;> rfl

theorem wake_attended (hl : Linked p) (h : Attended p) (hs : p.step (.wake w) = some p') :
    Attended p' := by
  obtain ⟨x, timeout, hw, hpc, hwake, rfl⟩ := step_wake hs
  obtain ⟨_, _, hroom⟩ := hl.room
  have hspend : subWord p.taskReady.wakeups 1 = p.taskReady.wakeups - 1 :=
    subWord_eq (by omega) (by omega)
  have hkeep : p.taskReady.wake.wakeups + 1 = p.taskReady.wakeups := by
    simp only [WaitCondition.wake]
    omega
  exact leave_attended h hw hpc _ false hkeep

theorem expire_attended (h : Attended p) (hs : p.step (.expire w) = some p') :
    Attended p' := by
  obtain ⟨x, timeout, hw, hpc, rfl⟩ := step_expire hs
  exact leave_attended h hw hpc _ true ((Nat.add_zero _).trans p.taskReady.expire_wakeups)

theorem cleanup_attended (h : Attended p) (hs : p.step (.cleanup w) = some p') :
    Attended p' := by
  obtain ⟨x, hw, hpc, rfl⟩ := step_cleanup hs
  have hx : place x.pc = .done := by rw [hpc]; rfl
  have hm : Moved p (p.put w { x with running := false, pc := .stopped }) w
      { x with running := false, pc := .stopped } := ⟨rfl, rfl, rfl, rfl, rfl⟩
  have hmanned := h.toManned.turn hm hw (by rw [hx]; rfl) (fun hn => nomatch hn)
    (fun hn => nomatch hn)
  refine h.turn hm hw hmanned rfl ?_
  rw [hx]
  rfl

theorem resume_attended (hl : Linked p) (htidy : Tidy p) (h : Attended p)
    (hs : p.step (.resume w) = some p') : Attended p' := by
  obtain ⟨x, expired, hw, hpc, rfl⟩ := step_resume hs
  cases expired with
  | true =>
    have hx : place x.pc = .expired := by rw [hpc]; rfl
    have hm : Moved p (p.resume w x true) w { x with pc := .returned } :=
      ⟨rfl, rfl, rfl, rfl, rfl⟩
    have hmanned := h.toManned.turn hm hw (by rw [hx]; rfl) (fun hn => nomatch hn)
      (fun hn => nomatch hn)
    refine h.turn hm hw hmanned rfl ?_
    rw [hx]
    rfl
  | false =>
    have hx : place x.pc ≠ .done := by rw [hpc]; decide
    have hnone := htidy.no_task hw (Or.inr ⟨false, hpc⟩)
    have hback : Manned { p with
        polThreads := addWord p.polThreads 1, promised := p.promised - 1 } :=
      ⟨h.exact, h.born, h.tasked⟩
    rcases resume_turn (p := p) hnone w with ⟨entry, _, hr⟩ | ⟨hempty, hr⟩
    · rw [hr]
      exact employ_attended hback entry hw hx x
    · rw [hr]
      exact afterTasks_attended hback hl.calm hempty hw hx

theorem kindled_paired (hl : Linked p) (hk : kindled p e) : paired p e := by
  unfold kindled at hk
  split at hk
  case h_1 task priority created =>
    refine ⟨hk.1, fun hfull => ?_⟩
    by_cases hres : 0 < p.resThreads
    · exact hk.2 hres hfull
    · have hactive := hl.active
      have hall := hl.all
      have hfew := hl.few
      have hsum := hl.sum
      exact hl.all_promised (by omega)
  case h_2 => exact hk

/-- A retired thread that has been cleaned up takes its new task up. -/
theorem restart_attended (h : Manned p) (htidy : Tidy p) {rest : List Nat}
    (hret : p.retThreads = w :: rest) (hrun : ∀ x, p.workers[w]? = some x → x.running = false)
    (task : Task) : Attended (p.restart w rest task true) := by
  obtain ⟨x, hw, hgone, _⟩ := htidy.head hret
  have hx := gone_done hgone
  have hless : rest.length + 1 = p.retThreads.length + 0 := by rw [hret]; rfl
  have hstarted : (({ x with task := some task } : Worker).start true).2 =
      { x with task := some task, running := true, pc := .starting } := by
    rcases start_cases { x with task := some task } true with ⟨_, _, hy⟩ | ⟨hn, _⟩
    · exact hy
    · exact absurd ⟨hrun x hw, rfl⟩ hn
  rw [restart_eq hw, hstarted]
  have hm : Moved p { p with
      retThreads := rest
      polThreads := addWord p.polThreads 1
      workers := p.workers.set w
        { x with task := some task, running := true, pc := .starting } } w
      { x with task := some task, running := true, pc := .starting } :=
    ⟨rfl, rfl, rfl, rfl, rfl⟩
  refine ⟨h.turn hm hw ?_ (fun hn => nomatch hn) (fun _ hn => nomatch hn),
    Or.inr (Or.inr (employed_force hm hw rfl))⟩
  rw [hx]
  exact hless

theorem spawn_attended (h : Manned p) (task : Task) : Attended (p.spawn task true).2 := by
  have hdone := census_append (fun x : Worker => place x.pc == .done) p.workers
    (newborn task true)
  have hbusy := census_append (fun x : Worker => place x.pc == .busy) p.workers
    (newborn task true)
  rw [spawn_eq]
  refine ⟨⟨h.exact.trans hdone.symm, ?_, ?_⟩, Or.inr (Or.inr ?_)⟩
  · intro z hz
    rcases spawn_others hz with hz | rfl
    · exact h.born z hz
    · exact fun hn => nomatch hn
  · intro z hz
    rcases spawn_others hz with hz | rfl
    · exact h.tasked z hz
    · exact fun _ hn => nomatch hn
  · change 0 < (p.workers ++ [newborn task true]).countP (fun x => place x.pc == .busy) +
      _ + p.taskReady.wakeups
    rw [hbusy]
    change 0 < _ + 1 + _ + p.taskReady.wakeups
    omega

/-- The task handed to an idle worker has a wake-up of its own. -/
theorem handOver_attended (hl : Linked p) (h : Manned p) (hfree : unpromised p) (task : Task) :
    Attended ({ p with
      idlThreads := subWord p.idlThreads 1, promised := p.promised + 1 }.enqueue task 0) := by
  have hsignal : p.taskReady.signalOne.wakeups = p.taskReady.wakeups + 1 := by
    rw [signal_eq hl]
    exact Nat.min_eq_left hfree
  refine ⟨⟨h.exact, h.born, h.tasked⟩, Or.inr (Or.inr ?_)⟩
  change 0 < tally p .busy + tally p .roused + p.taskReady.signalOne.wakeups
  omega

/-- A task try_start accepts has a worker to take it; one it refuses would be
one thread too much. -/
theorem tryStart_attended (hl : Linked p) (h : Manned p) (htidy : Tidy p) (hserved : served p)
    (hready : restartable p true) (task : Task) :
    p.activeThreads ≥ p.maxThreads ∧ p.tryStart task true = (false, p) ∨
    ∃ p', p.tryStart task true = (true, p') ∧ Attended p' := by
  rcases tryStart_cases p task true with ⟨hfull, hs⟩ | ⟨hroom, hidle, hs⟩ |
    ⟨hroom, hidle, w, rest, hret, hs⟩ | ⟨_, _, hret, hs⟩
  · exact Or.inl ⟨hfull, hs⟩
  · exact Or.inr ⟨_, hs, handOver_attended hl h (hserved hroom hidle) task⟩
  · have hrun : ∀ x, p.workers[w]? = some x → x.running = false := fun x hw =>
      (hready hroom hidle w rest x hret hw).1
    exact Or.inr ⟨_, hs, restart_attended h htidy hret hrun task⟩
  · have hspawn := spawn_attended h task
    rw [spawn_eq] at hs hspawn
    exact Or.inr ⟨_, hs, hspawn⟩

/-- Behind a refusal the force is there, or all threads are reserved. -/
theorem full_served (hl : Linked p) (h : Manned p) (hfull : p.activeThreads ≥ p.maxThreads) :
    p.maxThreads ≤ p.resThreads ∨ 0 < force p := by
  rw [active_eq hl h] at hfull
  omega

theorem enqueue_attended (hl : Linked p) (h : Manned p)
    (hfull : p.activeThreads ≥ p.maxThreads) (task : Task) (priority : Nat) :
    Attended (p.enqueue task priority) := by
  have hrecorded := hl.recorded
  have hsignal : p.taskReady.wakeups ≤ p.taskReady.signalOne.wakeups := by
    rw [signal_eq hl]
    exact Nat.le_min.mpr ⟨Nat.le_succ _, hrecorded⟩
  refine ⟨⟨h.exact, h.born, h.tasked⟩, Or.inr ?_⟩
  change p.maxThreads ≤ p.resThreads ∨
    0 < tally p .busy + tally p .roused + p.taskReady.signalOne.wakeups
  rcases full_served hl h hfull with hres | hforce
  · exact Or.inl hres
  · unfold force at hforce
    exact Or.inr (by omega)

/-- The record of the accepted tasks counts for nothing. -/
theorem Attended.frame (h : Attended p) (accepted : List Task) :
    Attended { p with accepted := accepted } :=
  ⟨⟨h.exact, h.born, h.tasked⟩, h.served⟩

theorem start_attended (hl : Linked p) (htidy : Tidy p) (h : Attended p) {task : Option Task}
    {priority : Nat} {created : Bool} (hok : steady p (.start task priority created)) :
    Attended (p.start task priority created).2 := by
  obtain ⟨hk, hr, rfl⟩ := hok
  cases task with
  | none => exact h
  | some task =>
    simp only [start]
    rcases tryStart_attended hl h.toManned htidy hk.1 hr task with ⟨hfull, hs⟩ | ⟨p₁, hs, ha⟩
    · rw [hs]
      exact (enqueue_attended hl h.toManned hfull task priority).frame _
    · rw [hs]
      exact ha.frame _

theorem startNow_attended (hl : Linked p) (htidy : Tidy p) (h : Attended p)
    {task : Option Task} {created : Bool} (hok : steady p (.startNow task created)) :
    Attended (p.startNow task created).2 := by
  obtain ⟨hk, hr, rfl⟩ := hok
  cases task with
  | none => exact h
  | some task =>
    simp only [startNow]
    rcases tryStart_attended hl h.toManned htidy hk hr task with ⟨_, hs⟩ | ⟨p₁, hs, ha⟩
    · rw [hs]
      exact h
    · rw [hs]
      exact ha.frame _

/-- A reservation given back starts a blocked task, or leaves it to the others. -/
theorem reserve_attended (hl : Linked p) (htidy : Tidy p) (h : Attended p) {numThreads : Nat}
    {created : Bool} (hok : steady p (.reserve numThreads created)) :
    Attended (p.reserve numThreads created) := by
  obtain ⟨hk, hr, rfl⟩ := hok
  have hmanned : Manned (p.setReserved numThreads) := ⟨h.exact, h.born, h.tasked⟩
  rcases reserve_cases p numThreads true with ⟨hnot, hs⟩ |
    ⟨hless, entry, accepted, p₁, htop, htry, hs⟩
  · rw [hs]
    refine ⟨hmanned, ?_⟩
    by_cases hqueue : p.queue = []
    · exact Or.inl hqueue
    · rcases h.served with hempty | hres | hforce
      · exact Or.inl hempty
      · have hmore : p.resThreads ≤ numThreads := Nat.le_of_not_lt fun hn => hnot ⟨hn, hqueue⟩
        refine Or.inr (Or.inl ?_)
        simp only [setReserved]
        split <;> omega
      · exact Or.inr (Or.inr hforce)
  · have hqueue : p.queue ≠ [] := top_ne_nil htop
    have hpop := popReserved_linked hl numThreads entry
    have htidy' := htidy.reserved numThreads entry
    have hmanned' : Manned ((p.setReserved numThreads).pop entry) :=
      ⟨h.exact, h.born, h.tasked⟩
    rcases tryStart_attended hpop hmanned' htidy' (hk hless hqueue) (hr hless hqueue) entry.1 with
      ⟨hfull, hc⟩ | ⟨p₂, hc, ha⟩
    · rw [hc] at htry
      cases htry
      have hserved := full_served hpop hmanned' hfull
      rw [hs]
      exact ⟨⟨h.exact, h.born, h.tasked⟩, Or.inr hserved⟩
    · rw [hc] at htry
      cases htry
      rw [hs]
      exact ha

theorem step_attended (hl : Linked p) (htidy : Tidy p) (h : Attended p) (hok : steady p e)
    (hs : p.step e = some p') : Attended p' := by
  cases e with
  | start task priority created =>
    cases hs
    exact start_attended hl htidy h hok
  | startNow task created =>
    cases hs
    exact startNow_attended hl htidy h hok
  | startNowChoked task =>
    have hsame := step_startNowChoked hs
    subst hsame
    exact h
  | reserve numThreads created =>
    cases hs
    exact reserve_attended hl htidy h hok
  | setRetireTimeout timeout =>
    cases hs
    exact ⟨⟨h.exact, h.born, h.tasked⟩, h.served⟩
  | enter w => exact enter_attended h hs
  | finish w => exact finish_attended hl h hs
  | wake w => exact wake_attended hl h hs
  | expire w => exact expire_attended h hs
  | resume w => exact resume_attended hl htidy h hs
  | cleanup w => exact cleanup_attended h hs

theorem create_attended (count : Nat) : Attended (create count) :=
  ⟨⟨rfl, (fun _ hx => nomatch hx), (fun _ hx => nomatch hx)⟩, Or.inl rfl⟩

/-- A pool whose queued tasks are attended to is not stranded. -/
theorem Attended.not_stranded (h : Attended p) (hl : Linked p) : ¬ stranded p := by
  rintro ⟨hqueue, hroom, hall⟩
  rcases h.served with hempty | hres | hforce
  · exact hqueue hempty
  · omega
  · have hnone : ∀ k, k = .busy ∨ k = .roused ∨ (k = .waiting ∧ p.taskReady.wakeups ≠ 0) →
        tally p k = 0 := by
      intro k hk
      rw [tally, List.countP_eq_zero]
      intro x hx hplace
      have hborn := h.born x hx
      rcases hall x hx with hgone | hunborn | ⟨⟨timeout, hpc⟩, hasleep⟩
      · cases hpc : x.pc <;> rw [hpc] at hgone hplace <;> cases hgone <;>
          rcases hk with rfl | rfl | ⟨rfl, _⟩ <;> cases hplace
      · exact hborn hunborn
      · rw [hpc] at hplace
        rcases hk with rfl | rfl | ⟨_, hwake⟩
        · cases hplace
        · cases hplace
        · exact hwake hasleep
    have hbusy := hnone .busy (Or.inl rfl)
    have hroused := hnone .roused (Or.inr (Or.inl rfl))
    have hrecorded := hl.recorded
    have hwaiters := hl.waiters
    unfold force at hforce
    have hwaiting := hnone .waiting (Or.inr (Or.inr ⟨rfl, by omega⟩))
    omega

/-- In a run of such steps the counters fit the workers, and queued tasks are
attended to. -/
theorem reached_attended (h : system.Reached steady p) (hsmall : 2 * p.maxThreads < word) :
    Linked p ∧ Attended p := by
  have hrun : Sane p ∧ (2 * p.maxThreads < word → Linked p ∧ Attended p) := by
    refine h.invariant
      (P := fun q => Sane q ∧ (2 * q.maxThreads < word → Linked q ∧ Attended q)) ?_ ?_
    · rintro p ⟨count, rfl⟩
      exact ⟨create_sane count, fun hsmall => ⟨create_linked hsmall, create_attended count⟩⟩
    · intro p e p' ⟨hsane, hall⟩ hok hs
      refine ⟨(step_effect hsane hs).sane, ?_⟩
      rw [step_maxThreads hs]
      intro hsmall
      obtain ⟨hl, ha⟩ := hall hsmall
      exact ⟨step_linked hl hsane.tidy (kindled_paired hl hok.1) hs,
        step_attended hl hsane.tidy ha hok hs⟩
  exact hrun.2 hsmall

/-- In a run of such steps no queued task is left to workers that are retired or
wait without a wake-up. -/
theorem never_stranded (h : system.Reached steady p) (hsmall : 2 * p.maxThreads < word) :
    ¬ stranded p := by
  obtain ⟨hl, ha⟩ := reached_attended h hsmall
  exact ha.not_stranded hl

/-- A task handed to an idle worker that has not left the wait yet. -/
theorem never_stranded_idle : ∃ p, system.Reached steady p ∧ 2 * p.maxThreads < word ∧
    p.queue = [(2, 0)] ∧ working p = 0 ∧ ¬ stranded p := by
  have hidle : ((follow step [] (create 1) [.start (some 1) 0 true, .enter 0, .finish 0,
      .start (some 2) 0 true]).map fun r => (r.2.maxThreads, r.2.queue, working r.2,
      decide (∀ q ∈ r.1, steady q.1 q.2))) = some (1, [(2, 0)], 0, true) := by decide +kernel
  obtain ⟨⟨past, p⟩, hfollow, hfinal⟩ := Option.map_eq_some_iff.mp hidle
  simp only [Prod.mk.injEq, decide_eq_true_eq] at hfinal
  obtain ⟨hmax, hqueue, hnone, hsteady⟩ := hfinal
  have hstart : system.Run [] (create 1) := .start ⟨1, rfl⟩
  have hreached : system.Reached steady p := (hstart.follow hfollow).reached hsteady
  have hsmall : 2 * p.maxThreads < word := by rw [hmax]; decide
  exact ⟨p, hreached, hsmall, hqueue, hnone, never_stranded hreached hsmall⟩

/-- The only idle worker has timed out but not locked the pool yet when a task is
handed to it: the worker retires, and nobody takes the task. -/
theorem late_hand_over_strands : ∃ past p, system.Run past p ∧ p.maxThreads = 1 ∧
    p.resThreads = 0 ∧ p.queue = [(2, 0)] ∧ stranded p := by
  have hlate : ((follow step [] (create 1) [.start (some 1) 0 true, .enter 0, .finish 0,
      .expire 0, .start (some 2) 0 true, .resume 0]).map fun r =>
      (r.2.maxThreads, r.2.resThreads, r.2.queue, working r.2,
        decide (∀ x ∈ r.2.workers, gone x.pc = true))) =
      some (1, 0, [(2, 0)], 0, true) := by decide +kernel
  obtain ⟨⟨past, p⟩, hfollow, hfinal⟩ := Option.map_eq_some_iff.mp hlate
  simp only [Prod.mk.injEq, decide_eq_true_eq] at hfinal
  obtain ⟨hmax, hres, hqueue, hnone, hgone⟩ := hfinal
  have hstart : system.Run [] (create 1) := .start ⟨1, rfl⟩
  refine ⟨past, p, hstart.follow hfollow, hmax, hres, hqueue, ?_, ?_, ?_⟩
  · rw [hqueue]
    exact List.cons_ne_nil _ _
  · rw [hnone, hres, hmax]
    decide
  · exact fun x hx => Or.inl (hgone x hx)

end
end CkCore.Proofs.PoolForce
