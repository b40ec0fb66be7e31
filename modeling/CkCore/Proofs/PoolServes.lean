import CkCore.Proofs.PoolForce
import CkCore.Proofs.PoolToil

namespace CkCore.Proofs.PoolServes
open Lib ThreadPool PoolTasks PoolCount PoolTurns PoolForce PoolToil

/-- Nothing is queued and every accepted task has been executed. -/
def cleared (p : ThreadPool) : Prop := p.queue = [] ∧ p.accepted.Perm p.executed

/-- The steps of the workers in which no worker gives up while a wake-up is
recorded for each of those that wait. -/
def diligent (p : ThreadPool) (e : Event) : Prop := labour e ∧ steady p e

/-- What holds of a pool whose accepted tasks all get executed. -/
structure Serving (p : ThreadPool) : Prop where
  linked : Linked p
  sane : Sane p
  kept : kept p
  attended : Attended p
  alive : ∀ x ∈ p.workers, Alive x
  free : p.resThreads < p.maxThreads

section
variable {p p' : ThreadPool} {w : Nat} {x : Worker} {e : Event}

theorem step_serving (h : Serving p) (hok : diligent p e) (hs : p.step e = some p') :
    Serving p' := by
  obtain ⟨hown, hsteady⟩ := hok
  obtain ⟨w, x, y, hlabours⟩ := labour_cases hown hs
  have heffect := step_effect h.sane hs
  refine ⟨step_linked h.linked h.sane.tidy (kindled_paired h.linked hsteady.1) hs, heffect.sane,
    heffect.kept.mpr ⟨h.kept, hsteady.2.1⟩,
    step_attended h.linked h.sane.tidy h.attended hsteady hs, step_alive h.alive hs, ?_⟩
  rw [hlabours.resThreads, hlabours.maxThreads]
  exact h.free

/-- The run of the worker is over, or nobody will wake it. -/
def still (p : ThreadPool) (x : Worker) : Prop :=
  gone x.pc = true ∨ ((∃ timeout, x.pc = .waiting timeout) ∧ p.taskReady.wakeups = 0)

theorem still.idle (h : still p x) : live x.pc = false := by
  rcases h with hgone | ⟨⟨timeout, hpc⟩, _⟩
  · cases hpc : x.pc <;> rw [hpc] at hgone <;> cases hgone <;> rfl
  · rw [hpc]
    rfl

/-- Workers that all stand still have left no task. -/
theorem Serving.rests (h : Serving p) (hall : ∀ x ∈ p.workers, still p x) : cleared p := by
  have hnone : working p = 0 := by
    rw [working, List.countP_eq_zero]
    intro x hx hlive
    rw [(hall x hx).idle] at hlive
    cases hlive
  have hheld : held p = [] := by
    rw [held, List.filterMap_eq_nil_iff]
    intro x hx
    rw [(hall x hx).idle]
    rfl
  have hqueue : p.queue = [] := by
    refine Classical.byContradiction fun hqueue => ?_
    refine h.attended.not_stranded h.linked ⟨hqueue, ?_, fun x hx => ?_⟩
    · rw [hnone, Nat.zero_add]
      exact h.free
    · rcases hall x hx with hgone | hasleep
      · exact Or.inl hgone
      · exact Or.inr (Or.inr hasleep)
  have hperm := h.sane.accounted_iff.mpr h.kept
  rw [accounted, hqueue, hheld] at hperm
  exact ⟨hqueue, hperm⟩

/-- A worker that does not stand still goes on without its time being over. -/
theorem alive_goes (h : Alive x) (hw : p.workers[w]? = some x) (hborn : x.pc ≠ .unborn)
    (hmoving : ¬ still p x) : ∃ e p', diligent p e ∧ p.step e = some p' := by
  by_cases hlast : ended x.pc = true
  · exfalso
    apply hmoving
    cases hpc : x.pc <;> rw [hpc] at hlast <;> cases hlast
    · exact absurd hpc hborn
    · exact Or.inl (by rw [hpc]; rfl)
  · rcases h.moves hw (Bool.eq_false_iff.mpr hlast) with ⟨e, p', hown, htime, hs⟩ | hasleep
    · refine ⟨e, p', ⟨hown, ?_⟩, hs⟩
      cases e with
      | expire v =>
        obtain ⟨hwaiting, hnone⟩ := htime v rfl
        exfalso
        apply hmoving
        cases hpc : x.pc with
        | waiting timeout => exact Or.inr ⟨⟨timeout, hpc⟩, hnone⟩
        | woken expired =>
          rw [hpc] at hwaiting
          cases expired <;> cases hwaiting
        | unborn | starting | executing | returned | stopped =>
          rw [hpc] at hwaiting
          cases hwaiting
      | enter | finish | wake | resume | cleanup => exact ⟨trivial, trivial, trivial⟩
      | start | startNow | startNowChoked | reserve | setRetireTimeout => exact hown.elim
    · exact absurd (Or.inr ⟨⟨unlimited, hasleep.1⟩, hasleep.2⟩) hmoving

theorem Serving.moves (h : Serving p) (hopen : ¬ cleared p) :
    ∃ e p', diligent p e ∧ p.step e = some p' := by
  refine Classical.byContradiction fun hstuck => ?_
  refine hopen (h.rests fun x hx => ?_)
  refine Classical.byContradiction fun hmoving => ?_
  obtain ⟨w, hw⟩ := List.getElem?_of_mem hx
  exact hstuck (alive_goes (h.alive x hx) hw (h.attended.born x hx) hmoving)

theorem reached_serving (h : system.Reached steady p) (hsmall : 2 * p.maxThreads < word)
    (hfree : p.resThreads < p.maxThreads) : Serving p := by
  obtain ⟨hl, ha⟩ := reached_attended h hsmall
  have hrest : Sane p ∧ kept p ∧ ∀ x ∈ p.workers, Alive x := by
    refine h.invariant (P := fun q => Sane q ∧ kept q ∧ ∀ x ∈ q.workers, Alive x) ?_ ?_
    · rintro p ⟨count, rfl⟩
      exact ⟨create_sane count, rfl, fun x hx => nomatch hx⟩
    · intro p e p' ⟨hsane, hkept, halive⟩ hok hs
      have heffect := step_effect hsane hs
      exact ⟨heffect.sane, heffect.kept.mpr ⟨hkept, hok.2.1⟩, step_alive halive hs⟩
  exact ⟨hl, hrest.1, hrest.2.1, ha, hrest.2.2, hfree⟩

/-- In a run of such steps every accepted task gets executed: whatever the
workers do in whatever order, they come to a state without any left to do. -/
theorem tasks_run (h : system.Reached steady p) (hsmall : 2 * p.maxThreads < word)
    (hfree : p.resThreads < p.maxThreads) : (system.under diligent).Comes cleared p := by
  refine System.comes (I := Serving) effort ?_ ?_ (reached_serving h hsmall hfree)
  · intro s e s' hi ⟨hok, hs⟩
    exact ⟨step_serving hi hok hs, labour_less hok.1 hs⟩
  · intro s hi hopen
    obtain ⟨e, s', hok, hs⟩ := hi.moves hopen
    exact ⟨e, s', hok, hs⟩

/-- Two workers, one of them idle, and two tasks queued behind those they have. -/
theorem tasks_run_two : ∃ p, system.Reached steady p ∧ 2 * p.maxThreads < word ∧
    p.resThreads < p.maxThreads ∧ p.accepted = [1, 2, 3, 4] ∧ p.executed = [1] ∧
    (system.under diligent).Comes cleared p := by
  have htwo : ((follow step [] (create 2) [.start (some 1) 0 true, .start (some 2) 0 true,
      .enter 0, .enter 1, .finish 0, .start (some 3) 0 true, .start (some 4) 0 true]).map fun r =>
      (r.2.maxThreads, r.2.resThreads, r.2.accepted, r.2.executed,
        decide (∀ q ∈ r.1, steady q.1 q.2))) =
      some (2, 0, [1, 2, 3, 4], [1], true) := by decide +kernel
  obtain ⟨⟨past, p⟩, hfollow, hfinal⟩ := Option.map_eq_some_iff.mp htwo
  simp only [Prod.mk.injEq, decide_eq_true_eq] at hfinal
  obtain ⟨hmax, hres, hacc, hexec, hsteady⟩ := hfinal
  have hstart : system.Run [] (create 2) := .start ⟨2, rfl⟩
  have hreached : system.Reached steady p := (hstart.follow hfollow).reached hsteady
  have hsmall : 2 * p.maxThreads < word := by rw [hmax]; decide
  have hfree : p.resThreads < p.maxThreads := by rw [hres, hmax]; decide
  exact ⟨p, hreached, hsmall, hfree, hacc, hexec, tasks_run hreached hsmall hfree⟩

end
end CkCore.Proofs.PoolServes
