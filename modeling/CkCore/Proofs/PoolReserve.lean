import CkCore.Proofs.PoolForce

namespace CkCore.Proofs.PoolReserve
open Lib ThreadPool PoolTasks PoolCount PoolTurns PoolForce

/-- The workers that are executing a task. -/
def executing (p : ThreadPool) : Nat := p.workers.countP fun x => x.pc == .executing

/-- The workers whose thread has been given a task it is yet to begin. -/
def pending (p : ThreadPool) : Nat := p.workers.countP fun x => x.pc == .starting

/-- The runs of a pool that go on from a reserve. -/
def after (q : ThreadPool) (numThreads : Nat) (created : Bool) : System ThreadPool Event :=
  .machine (· = q.reserve numThreads created) step

/-- The steps without another reserve in which a woken worker finds no task, or
not too many threads. -/
def heedful (p : ThreadPool) : Event → Prop
  | .reserve _ _ => False
  | .resume w => ∀ x ∈ p.workers[w]?, x.pc = .woken false → p.queue = [] ∨ p.overworking = false
  | e => kindled p e

instance (p : ThreadPool) : DecidablePred (heedful p)
  | .reserve _ _ => isFalse id
  | .resume w => inferInstanceAs (Decidable (∀ x ∈ p.workers[w]?, _ → _))
  | .start task priority created =>
    inferInstanceAs (Decidable (kindled p (.start task priority created)))
  | .startNow task created => inferInstanceAs (Decidable (kindled p (.startNow task created)))
  | .expire w => inferInstanceAs (Decidable (kindled p (.expire w)))
  | .startNowChoked _ | .setRetireTimeout _ | .enter _ | .finish _ | .wake _
  | .cleanup _ => isTrue trivial

/-- So many threads are reserved, and the others are enough for the workers that
have a task. -/
def fits (n : Nat) (p : ThreadPool) : Prop :=
  p.resThreads = n ∧ n + working p ≤ p.maxThreads

section
variable {p p' q : ThreadPool} {w n : Nat} {x y : Worker} {e : Event} {created : Bool}

theorem working_eq (p : ThreadPool) : working p = executing p + pending p := by
  have hdisjoint : ∀ x : Worker, ¬ ((x.pc == .executing) = true ∧ (x.pc == .starting) = true) := by
    intro x
    cases hpc : x.pc <;> simp
  rw [executing, pending, census_disjoint hdisjoint, working]
  apply List.countP_congr
  intro x _
  cases hpc : x.pc <;> simp [live]

/-- Whoever has a task or was woken is active, beside the reserved threads. -/
theorem active_room (h : Linked p) :
    p.resThreads + working p + tally p .roused ≤ p.activeThreads := by
  have hbusy : working p ≤ tally p .busy := by
    apply List.countP_mono_left
    intro x _ hx
    cases hpc : x.pc <;> rw [hpc] at hx <;> first | rfl | cases hx
  have htotal := tally_all p
  have hactive := h.active
  have hall := h.all
  have hidle := h.idle
  have hrecorded := h.recorded
  have hwaiters := h.waiters
  have hretired := h.retired
  omega

/-- A worker gets a task when it had one, or when there is room for one. -/
theorem fits_turn (h : fits n p) (hm : Moved p p' w y) (hw : p.workers[w]? = some x)
    (hroom : live y.pc = true → live x.pc = true ∨ n + working p < p.maxThreads) :
    fits n p' := by
  have hcensus : working p' + (live x.pc).toNat = working p + (live y.pc).toNat :=
    hm.census hw fun x => live x.pc
  obtain ⟨hres, hfew⟩ := h
  refine ⟨hm.resThreads.trans hres, ?_⟩
  rw [hm.maxThreads]
  cases hy : live y.pc with
  | false =>
    rw [hy, Bool.toNat_false] at hcensus
    omega
  | true =>
    rw [hy, Bool.toNat_true] at hcensus
    rcases hroom hy with hx | hless
    · rw [hx, Bool.toNat_true] at hcensus
      omega
    · omega

theorem enter_fits (h : fits n p) (hs : p.step (.enter w) = some p') : fits n p' := by
  obtain ⟨x, hw, hpc, rfl⟩ := step_enter hs
  obtain ⟨y, hm, _⟩ := loopHead_moved p w x
  refine fits_turn h hm hw fun _ => Or.inl ?_
  rw [hpc]
  rfl

/-- The next task takes the place of the last one. -/
theorem finish_fits (h : fits n p) (hs : p.step (.finish w) = some p') : fits n p' := by
  obtain ⟨x, task, hw, hpc, _, rfl⟩ := step_finish hs
  have hx : live x.pc = true := by rw [hpc]; rfl
  simp only [ThreadPool.finish]
  split
  · obtain ⟨y, hm, _⟩ := afterTasks_moved { p with executed := p.executed ++ [task] } w
      { x with task := none }
    exact fits_turn h (hm.frame rfl rfl rfl rfl rfl) hw fun _ => Or.inl hx
  · obtain ⟨y, hm, _⟩ := fetch_moved { p with executed := p.executed ++ [task] } w
      { x with task := none }
    exact fits_turn h (hm.frame rfl rfl rfl rfl rfl) hw fun _ => Or.inl hx

/-- A woken worker was active already, so there is room for its task unless there
are too many threads. -/
theorem resume_fits (hl : Linked p) (htidy : Tidy p) (h : fits n p)
    (hok : heedful p (.resume w)) (hs : p.step (.resume w) = some p') : fits n p' := by
  obtain ⟨x, expired, hw, hpc, rfl⟩ := step_resume hs
  cases expired with
  | true =>
    have hm : Moved p (p.resume w x true) w { x with pc := .returned } :=
      ⟨rfl, rfl, rfl, rfl, rfl⟩
    exact fits_turn h hm hw fun hn => nomatch hn
  | false =>
    have hnone := htidy.no_task hw (Or.inr ⟨false, hpc⟩)
    rcases resume_turn (p := p) hnone w with ⟨entry, htop, hr⟩ | ⟨_, hr⟩
    · have hroused : 0 < tally p .roused := tally_pos hw (by rw [hpc]; rfl)
      have hactive := active_room hl
      have hfew : p.activeThreads ≤ p.maxThreads := by
        rcases hok x hw hpc with hempty | hover
        · exact absurd hempty (top_ne_nil htop)
        · exact Nat.le_of_not_lt (of_decide_eq_false hover)
      have hm : Moved p (employ { p with
          polThreads := addWord p.polThreads 1, promised := p.promised - 1 } entry w x) w
          { x with task := some entry.1, pc := .executing } := ⟨rfl, rfl, rfl, rfl, rfl⟩
      rw [hr]
      refine fits_turn h hm hw fun _ => Or.inr ?_
      rw [← h.1]
      omega
    · obtain ⟨y, hm, _, hy⟩ := afterTasks_moved { p with
        polThreads := addWord p.polThreads 1, promised := p.promised - 1 } w x
      rw [hr]
      refine fits_turn h (hm.frame rfl rfl rfl rfl rfl) hw fun hn => ?_
      rw [hy] at hn
      cases hn

theorem leave_fits (h : fits n p) (hw : p.workers[w]? = some x) (condition : WaitCondition)
    (expired : Bool) :
    fits n ({ p with taskReady := condition }.put w { x with pc := .woken expired }) :=
  fits_turn h (y := { x with pc := .woken expired }) ⟨rfl, rfl, rfl, rfl, rfl⟩ hw
    fun hn => nomatch hn

/-- try_start gives a task to a thread of its own only when there is room. -/
theorem tryStart_fits (hl : Linked p) (htidy : Tidy p) (h : fits n p) (task : Task)
    (created : Bool) : fits n (p.tryStart task created).2 := by
  have hactive := active_room hl
  rcases tryStart_cases p task created with ⟨_, hs⟩ | ⟨_, _, hs⟩ | ⟨hroom, _, w, rest, hret, hs⟩ |
    ⟨hroom, _, _, hs⟩
  · rw [hs]
    exact h
  · rw [hs]
    exact h
  · obtain ⟨x, hw, _⟩ := htidy.head hret
    rw [hs, restart_eq hw]
    refine fits_turn h (y := (({ x with task := some task } : Worker).start created).2)
      ⟨rfl, rfl, rfl, rfl, rfl⟩ hw fun _ => Or.inr ?_
    rw [← h.1]
    omega
  · have hcensus := census_append (fun x : Worker => live x.pc) p.workers (newborn task created)
    have hone := Bool.toNat_le (live (newborn task created).pc)
    rw [hs, spawn_eq]
    refine ⟨h.1, ?_⟩
    change n + (p.workers ++ [newborn task created]).countP (fun x => live x.pc) ≤ p.maxThreads
    rw [hcensus, ← h.1]
    change p.resThreads + (working p + _) ≤ p.maxThreads
    omega

theorem handed_fits (hl : Linked p) (htidy : Tidy p) (h : fits n p) {task : Task}
    {created : Bool} (hh : Handed p task created p') : fits n p' := by
  have htry := tryStart_fits hl htidy h task created
  cases hh with
  | taken tried after =>
    rw [tried] at htry
    rw [after]
    exact htry
  | queued tried after =>
    rw [tried] at htry
    rw [after]
    exact htry
  | refused tried =>
    rw [tried] at htry
    exact htry

theorem step_fits (hl : Linked p) (htidy : Tidy p) (h : fits n p) (hok : heedful p e)
    (hs : p.step e = some p') : fits n p' := by
  cases e with
  | start task priority created =>
    rcases step_start hs with ⟨_, rfl⟩ | ⟨t, _, hh⟩
    · exact h
    · exact handed_fits hl htidy h hh
  | startNow task created =>
    rcases step_startNow hs with ⟨_, rfl⟩ | ⟨t, _, hh⟩
    · exact h
    · exact handed_fits hl htidy h hh
  | startNowChoked task =>
    have hsame := step_startNowChoked hs
    subst hsame
    exact h
  | reserve numThreads created => exact hok.elim
  | setRetireTimeout timeout =>
    cases hs
    exact h
  | enter w => exact enter_fits h hs
  | finish w => exact finish_fits h hs
  | wake w =>
    obtain ⟨x, timeout, hw, _, _, rfl⟩ := step_wake hs
    exact leave_fits h hw _ false
  | expire w =>
    obtain ⟨x, timeout, hw, _, rfl⟩ := step_expire hs
    exact leave_fits h hw _ true
  | resume w => exact resume_fits hl htidy h hok hs
  | cleanup w =>
    obtain ⟨x, hw, _, rfl⟩ := step_cleanup hs
    exact fits_turn h (y := { x with running := false, pc := .stopped })
      ⟨rfl, rfl, rfl, rfl, rfl⟩ hw fun hn => nomatch hn

/-- With no task queued a reserve does nothing but reserve. -/
theorem reserve_quiet (hqueue : q.queue = []) (numThreads : Nat) (created : Bool) :
    q.reserve numThreads created = q.setReserved numThreads := by
  rcases reserve_cases q numThreads created with ⟨_, hs⟩ | ⟨_, entry, _, _, htop, _⟩
  · exact hs
  · rw [hqueue] at htop
    cases htop

/-- A pool in which no worker executes and no task is queued keeps to what is
reserved next: in a run of such steps there is a thread for every reservation. -/
theorem reservation_respected {numThreads : Nat} (hq : system.Reached kindled q)
    (hsmall : 2 * q.maxThreads < word) (hidle : executing q = 0) (hqueue : q.queue = [])
    (hfit : pending q + min numThreads q.maxThreads ≤ q.maxThreads)
    (h : (after q numThreads created).Reached heedful p) :
    executing p + min numThreads q.maxThreads ≤ q.maxThreads := by
  obtain ⟨hsane, hl⟩ := reached_linked (fun _ _ => kindled_paired) hq hsmall
  have hreserved : (q.setReserved numThreads).resThreads = min numThreads q.maxThreads := by
    simp only [setReserved]
    split <;> omega
  have hrun : Sane p ∧ Linked p ∧ p.maxThreads = q.maxThreads ∧
      fits (min numThreads q.maxThreads) p := by
    refine h.invariant (P := fun p => Sane p ∧ Linked p ∧ p.maxThreads = q.maxThreads ∧
      fits (min numThreads q.maxThreads) p) ?_ ?_
    · rintro p rfl
      rw [reserve_quiet hqueue]
      refine ⟨⟨⟨hsane.tidy.idle, hsane.tidy.retired, hsane.tidy.different⟩, hsane.balanced⟩,
        setReserved_linked hl numThreads, rfl, hreserved, ?_⟩
      change _ + working q ≤ q.maxThreads
      rw [working_eq, hidle]
      omega
    · rintro p e p' ⟨hsane, hl, hmax, hfits⟩ hok hs
      have hk : kindled p e := by
        cases e with
        | reserve num created => exact hok.elim
        | resume w => exact trivial
        | _ => exact hok
      exact ⟨(step_effect hsane hs).sane, step_linked hl hsane.tidy (kindled_paired hl hk) hs,
        (step_maxThreads hs).trans hmax, step_fits hl hsane.tidy hfits hok hs⟩
  obtain ⟨_, _, hmax, _, hroom⟩ := hrun
  rw [working_eq, hmax] at hroom
  omega

/-- With one of two threads reserved the idle worker still gets a task. -/
theorem reservation_respected_one : ∃ q p, system.Reached kindled q ∧
    (after q 1 true).Reached heedful p ∧ executing p = 1 ∧
    executing p + min 1 q.maxThreads ≤ q.maxThreads := by
  have hidle : ((follow step [] (create 2) [.start (some 1) 0 true, .enter 0, .finish 0]).bind
      fun r => (follow step [] (r.2.reserve 1 true)
        [.start (some 2) 0 true, .wake 0, .resume 0]).map fun r' =>
          decide (r.2.maxThreads = 2 ∧ r.2.queue = [] ∧ executing r.2 = 0 ∧ pending r.2 = 0 ∧
            executing r'.2 = 1 ∧ (∀ q ∈ r.1, kindled q.1 q.2) ∧ ∀ q ∈ r'.1, heedful q.1 q.2)) =
      some true := by decide +kernel
  obtain ⟨⟨past, q⟩, hfirst, hidle⟩ := Option.bind_eq_some_iff.mp hidle
  obtain ⟨⟨past', p⟩, hsecond, hfinal⟩ := Option.map_eq_some_iff.mp hidle
  obtain ⟨hmax, hqueue, hnone, hpending, hone, hkindled, hheedful⟩ := of_decide_eq_true hfinal
  have hstart : system.Run [] (create 2) := .start ⟨2, rfl⟩
  have hq : system.Reached kindled q := (hstart.follow hfirst).reached hkindled
  have hnext : (after q 1 true).Run [] (q.reserve 1 true) := .start rfl
  have hp : (after q 1 true).Reached heedful p := (hnext.follow hsecond).reached hheedful
  have hsmall : 2 * q.maxThreads < word := by rw [hmax]; decide
  have hfit : pending q + min 1 q.maxThreads ≤ q.maxThreads := by
    rw [hpending, hmax]
    decide
  exact ⟨q, p, hq, hp, hone, reservation_respected hq hsmall hnone hqueue hfit hp⟩

/-- A start is refused because the only thread is reserved, but its signal wakes the
idle worker, which executes the task. -/
theorem idle_worker_takes_reserved : ∃ past q past' p, system.Run past q ∧
    executing q = 0 ∧ q.queue = [] ∧ (after q 1 true).Run past' p ∧
    past'.map Prod.snd = [.start (some 2) 0 true, .wake 0, .resume 0] ∧
    ¬ executing p + min 1 q.maxThreads ≤ q.maxThreads := by
  have htaken : ((follow step [] (create 1) [.start (some 1) 0 true, .enter 0, .finish 0]).bind
      fun r => (follow step [] (r.2.reserve 1 true)
        [.start (some 2) 0 true, .wake 0, .resume 0]).map fun r' =>
          decide (r.2.maxThreads = 1 ∧ executing r.2 = 0 ∧ r.2.queue = [] ∧
            executing r'.2 = 1)) = some true := by decide +kernel
  obtain ⟨⟨past, q⟩, hfirst, htaken⟩ := Option.bind_eq_some_iff.mp htaken
  obtain ⟨⟨past', p⟩, hsecond, hfinal⟩ := Option.map_eq_some_iff.mp htaken
  obtain ⟨hmax, hnone, hqueue, hone⟩ := of_decide_eq_true hfinal
  have hstart : system.Run [] (create 1) := .start ⟨1, rfl⟩
  have hnext : (after q 1 true).Run [] (q.reserve 1 true) := .start rfl
  refine ⟨past, q, past', p, hstart.follow hfirst, hnone, hqueue, hnext.follow hsecond,
    follow_events hsecond, ?_⟩
  rw [hone, hmax]
  decide

end
end CkCore.Proofs.PoolReserve
