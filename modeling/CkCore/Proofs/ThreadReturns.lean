import CkCore.Lib.System
import CkCore.Proofs.ThreadWakeups

namespace CkCore.Proofs.ThreadReturns
open Lib Thread ThreadAlone ThreadWakeups

def inside (s : Thread) : Nat := s.calls.countP (·.inside)

/-- The steps that need no new call: threads return from run, and calls go on or
run out of time. -/
def finishing : ThreadEvent → Prop
  | .cleanup _ | .wake _ | .expire _ | .resume _ => True
  | _ => False

/-- A cancelled thread of the object comes to a cancellation point: in run, or in
thread_done_.wait, when it kills itself or was killed before. -/
def fatal (s : Thread) : ThreadEvent → Prop
  | .kill (some n) true => s.running = true ∧ (s.thread = some n ∨ s.cancelled n = true)
  | .wait (some n) _ => s.running = true ∧ s.thread ≠ some n ∧ s.cancelled n = true
  | .abort _ => True
  | _ => False

/-- The waiters are counted, and there is a wake-up for each of them unless the
thread started last is still to end. Threads of the object wait for later ones. -/
structure Waited (s : Thread) : Prop where
  small : s.threadDone.waiters < word
  counted : s.threadDone.waiters = inside s
  fits : s.threadDone.wakeups < word
  newer : s.aborted = false → ∀ c ∈ s.calls, ∀ n, c.caller = some n → n < c.target
  ready : (∃ n, s.thread = some n ∧ s.alive n = true) ∨
    s.threadDone.waiters ≤ s.threadDone.wakeups

variable {s s' : Thread}

theorem cancel_cancelled (s : Thread) (n m : Nat) :
    (s.cancel n).cancelled m = true ↔
      s.cancelled m = true ∨ n = m ∧ m < s.natives.length := by
  simp only [cancelled, cancel, List.getElem?_modify]
  by_cases hn : n = m
  · subst hn
    by_cases hm : n < s.natives.length
    · simp [hm]
    · simp [hm]
  · cases s.natives[m]? <;> simp [hn]

theorem leave_aborted (call : Nat) (c : ThreadCall) (res : Bool) (cond : WaitCondition) :
    (s.leave call c res cond).aborted = s.aborted := rfl

/-- The process is aborted just by the steps in which a cancelled thread comes to a
cancellation point. -/
theorem aborted_moved (ho : Ordered s) (hl : s.aborted = false) {e : ThreadEvent}
    (hm : Moved s e s') : s'.aborted = true ↔ fatal s e := by
  have same : s'.aborted = s.aborted → ¬ fatal s e → (s'.aborted = true ↔ fatal s e) := by
    intro hsame hs
    exact iff_of_false (by simp [hsame, hl]) hs
  cases hm with
  | refused => exact same rfl id
  | passed caller timeout idle =>
    refine same rfl ?_
    cases caller with
    | none => exact id
    | some n =>
      rintro ⟨hr, hother, _⟩
      rcases idle with hidle | ⟨_, hself⟩
      · simp [hidle] at hr
      · exact hother hself.symm
  | missed caller found idle =>
    refine same rfl ?_
    cases caller with
    | none => exact id
    | some n =>
      cases found with
      | false => exact id
      | true =>
        rintro ⟨hr, _⟩
        simp [hr] at idle
  | started | ended => exact same rfl id
  | @waits caller n timeout latest running other free =>
    cases caller with
    | none => simp [fatal, enter]
    | some m =>
      have hother : s.thread ≠ some m := by
        rw [latest]
        exact fun h => other h.symm
      simp [fatal, enter, running, hother]
  | @kills caller n latest running free =>
    have hlast := (ho.latest n).mp latest
    cases caller with
    | none => simp [fatal, enter]
    | some m =>
      have hlt : n = m → m < s.natives.length := by omega
      change (s.cancel n).cancelled m = true ↔ _
      simp only [fatal, running, latest, cancel_cancelled, Option.some.injEq, true_and]
      constructor
      · rintro (hcancel | ⟨hn, _⟩)
        · exact Or.inr hcancel
        · exact Or.inl hn
      · rintro (hn | hcancel)
        · exact Or.inr ⟨hn, hlt hn⟩
        · exact Or.inl hcancel
  | @wakes call _ c => exact same (leave_aborted call c true _) id
  | @expires call _ c => exact same (leave_aborted call c false _) id
  | resumes => exact same rfl id
  | aborts => exact iff_of_true rfl trivial

/-- A step that leaves the calls and the wake-ups alone, and the threads as far as
the last one is concerned. -/
theorem Waited.same (h : Waited s) (hl : s.aborted = false) (hcalls : s'.calls = s.calls)
    (hdone : s'.threadDone = s.threadDone)
    (hready : (∃ n, s.thread = some n ∧ s.alive n = true) →
      ∃ n, s'.thread = some n ∧ s'.alive n = true) : Waited s' := by
  have hinside : inside s' = inside s := by rw [inside, inside, hcalls]
  refine ⟨?_, ?_, ?_, ?_, ?_⟩
  · rw [hdone]
    exact h.small
  · rw [hdone, hinside]
    exact h.counted
  · rw [hdone]
    exact h.fits
  · intro _
    rw [hcalls]
    exact h.newer hl
  · rw [hdone]
    exact h.ready.imp hready id

/-- The call that begins to wait is counted, and is on the thread that is still to
end. -/
theorem Waited.enter (h : Waited s) (ho : Ordered s) (hl : s.aborted = false) {n : Nat}
    (hr : s.running = true) (hroom : inside s + 1 < word) {kill : Bool}
    {caller : Option Nat} {timeout : Nat}
    (hcaller : caller.any s.cancelled = false → ∀ m, caller = some m → m < n) :
    Waited (s.enter kill caller n timeout) := by
  have hinside : inside (s.enter kill caller n timeout) = inside s + 1 := census_append _ _ _
  have hwaiters : (s.enter kill caller n timeout).threadDone.waiters = inside s + 1 := by
    have henter : (s.enter kill caller n timeout).threadDone.waiters =
        addWord s.threadDone.waiters 1 := rfl
    rw [henter, h.counted, addWord_eq hroom]
  refine ⟨by rw [hwaiters]; exact hroom, by rw [hwaiters, hinside], h.fits, ?_, ?_⟩
  · intro hgoes c hc m hm
    rcases List.mem_append.mp hc with hc | hc
    · exact h.newer hl c hc m hm
    · simp only [List.mem_singleton] at hc
      subst hc
      exact hcaller hgoes m hm
  · obtain ⟨m, hm, halive⟩ := ho.ran hr
    exact Or.inl ⟨m, hm, halive⟩

/-- A call that leaves takes a waiter along, and a wake-up at most. -/
theorem Waited.leave (h : Waited s) (hl : s.aborted = false) {call : Nat} {c : ThreadCall}
    (hc : s.calls[call]? = some c) (hin : c.inside = true) {res : Bool} {cond : WaitCondition}
    (hwaiters : cond.waiters = subWord s.threadDone.waiters 1)
    (hfits : cond.wakeups ≤ s.threadDone.wakeups)
    (hwakeups : s.threadDone.wakeups ≤ cond.wakeups + 1) : Waited (s.leave call c res cond) := by
  have hcensus := census_set (fun c : ThreadCall => c.inside) hc { c with place := .left res }
  have hleft : ({ c with place := .left res } : ThreadCall).inside = false := rfl
  simp only [hin, hleft, Bool.toNat_true, Bool.toNat_false] at hcensus
  have hnow : inside (s.leave call c res cond) + 1 = inside s := hcensus
  have hcounted := h.counted
  have hless : cond.waiters = s.threadDone.waiters - 1 :=
    hwaiters.trans (subWord_eq h.small (by omega))
  have hsmall := h.small
  refine ⟨?_, ?_, Nat.lt_of_le_of_lt hfits h.fits, ?_, ?_⟩
  · exact Nat.lt_of_le_of_lt (Nat.le_of_eq hless) (by omega)
  · exact hless.trans (by omega)
  · intro _ x hx n hn
    rcases set_calls hx with hx | rfl
    · exact h.newer hl x hx n hn
    · exact h.newer hl c (List.mem_of_getElem? hc) n hn
  · refine h.ready.imp id fun hready => ?_
    have hcond : (s.leave call c res cond).threadDone = cond := rfl
    rw [hcond]
    omega

theorem Waited.moved (ho : Ordered s) (h : Waited s) (hl : s.aborted = false) {e : ThreadEvent}
    (hroom : enters s e → inside s + 1 < word) (hm : Moved s e s') : Waited s' := by
  cases hm with
  | refused | passed | missed => exact h
  | started idle =>
    refine h.same hl rfl rfl fun _ => ⟨_, rfl, ?_⟩
    rw [started_alive]
    simp
  | @ended n free =>
    have hinside : inside (s.cleanup n) = inside s := rfl
    have hwaiters : (s.cleanup n).threadDone.waiters = s.threadDone.waiters := rfl
    have hwakeups : (s.cleanup n).threadDone.wakeups = s.threadDone.waiters := rfl
    refine ⟨hwaiters ▸ h.small, ?_, hwakeups ▸ h.small, fun _ => h.newer hl, Or.inr ?_⟩
    · rw [hwaiters, hinside]
      exact h.counted
    · exact Nat.le_of_eq (hwaiters.trans hwakeups.symm)
  | @waits caller n timeout latest running other free =>
    have hother : ¬ (caller.isSome ∧ caller = s.thread) := by
      rw [latest]
      exact fun h => other h.2
    refine h.enter ho hl running (hroom ⟨running, hother⟩) ?_
    intro _ m hm
    have hfree := hm ▸ free
    have hlt := alive_lt (Bool.and_eq_true_iff.mp hfree).1
    have hlast := (ho.latest n).mp latest
    have hne : m ≠ n := by
      rintro rfl
      exact other hm
    omega
  | @kills caller n latest running free =>
    have hcancelled : Ordered (s.cancel n) :=
      ho.same rfl (List.length_modify _ _ _) (cancel_alive s n) id ho.targets
    have hsame : Waited (s.cancel n) := h.same hl rfl rfl fun ⟨m, hm, halive⟩ =>
      ⟨m, hm, (cancel_alive s n m).trans halive⟩
    refine hsame.enter hcancelled hl running (hroom ⟨running, rfl⟩) ?_
    intro hgoes m hm
    have hfree := hm ▸ free
    have hlt := alive_lt (Bool.and_eq_true_iff.mp hfree).1
    have hlast := (ho.latest n).mp latest
    have hne : m ≠ n := by
      rintro rfl
      have hself : (s.cancel m).cancelled m = true :=
        (cancel_cancelled s m m).mpr (Or.inr ⟨rfl, hlt⟩)
      rw [hm, Option.any_some, hself] at hgoes
      cases hgoes
    omega
  | @wakes call timeout c called inside signalled =>
    have hin : c.inside = true := by simp [ThreadCall.inside, inside]
    have hone : s.threadDone.wake.wakeups = s.threadDone.wakeups - 1 :=
      subWord_eq h.fits (by omega)
    exact h.leave hl called hin rfl (by omega) (by omega)
  | @expires call timeout c called inside limited =>
    have hin : c.inside = true := by simp [ThreadCall.inside, inside]
    have hsame := WaitCondition.expire_wakeups s.threadDone
    exact h.leave hl called hin rfl (Nat.le_of_eq hsame) (by omega)
  | @resumes call c res called left =>
    have hout : c.inside = false := by simp [ThreadCall.inside, left]
    have hinside : inside (s.resume call c res) = inside s := census_same _ called hout.symm
    refine ⟨h.small, hinside ▸ h.counted, h.fits, ?_, h.ready⟩
    intro _ x hx n hn
    rcases set_calls hx with hx | rfl
    · exact h.newer hl x hx n hn
    · exact h.newer hl c (List.mem_of_getElem? called) n hn
  | aborts =>
    refine ⟨h.small, h.counted, h.fits, ?_, h.ready⟩
    intro hgoes
    cases hgoes

/-- What is left to do for a call. -/
def due (c : ThreadCall) : Nat :=
  match c.place with
  | .inside _ => 2
  | .left _ => 1
  | .returned _ => 0

/-- What is left to do for all calls, the ends of threads included. -/
def work (s : Thread) : Nat := weight due s.calls + s.natives.countP (·.alive)

/-- The thread started last can end: it waits for no other. -/
theorem last_free (ho : Ordered s) (h : Waited s) (hl : s.aborted = false) {n : Nat}
    (hn : s.thread = some n) (halive : s.alive n = true) : s.free n = true := by
  have hlast := (ho.latest n).mp hn
  have hbusy : s.busy n = false := by
    rw [← Bool.not_eq_true]
    intro hb
    obtain ⟨c, hc, hcall⟩ := List.any_eq_true.mp hb
    have hcaller : c.caller = some n := by simpa using (Bool.and_eq_true_iff.mp hcall).1
    have hnewer := h.newer hl c hc n hcaller
    have htarget := ho.targets c hc
    omega
  simp [free, halive, hbusy]

/-- A thread that ends is one less that is alive. -/
theorem cleanup_work {n : Nat} (halive : s.alive n = true) : work (s.cleanup n) < work s := by
  obtain ⟨x, hx, hxa⟩ : ∃ x, s.natives[n]? = some x ∧ x.alive = true := by
    cases hx : s.natives[n]? with
    | none => simp [alive, hx] at halive
    | some x => exact ⟨x, rfl, by simpa [alive, hx] using halive⟩
  have hset : (s.cleanup n).natives = s.natives.set n { x with alive := false } := by
    apply List.ext_getElem?
    intro m
    obtain ⟨hlt, hget⟩ := List.getElem?_eq_some_iff.mp hx
    by_cases hm : n = m
    · subst hm
      simp [cleanup, hlt, hget]
    · simp [cleanup, hm]
  have hcensus := census_set (fun t : NativeThread => t.alive) hx { x with alive := false }
  have hcalls : (s.cleanup n).calls = s.calls := rfl
  rw [work, work, hset, hcalls]
  simp only [hxa, Bool.toNat_true, Bool.toNat_false] at hcensus
  omega

/-- The sum gets less with a call that gets on. -/
theorem work_set {call : Nat} {c : ThreadCall} (hc : s.calls[call]? = some c) {place : CallPlace}
    (hcalls : s'.calls = s.calls.set call { c with place := place })
    (hdue : due { c with place := place } < due c) (hnatives : s'.natives = s.natives) :
    work s' < work s := by
  have hweight := weight_set due hc { c with place := place }
  rw [work, work, hcalls, hnatives]
  omega

theorem leave_work {call timeout : Nat} {c : ThreadCall} (hc : s.calls[call]? = some c)
    (hp : c.place = .inside timeout) (res : Bool) (cond : WaitCondition) :
    work (s.leave call c res cond) < work s :=
  work_set hc rfl (by simp [due, hp]) rfl

theorem finishing_less {e : ThreadEvent} (he : finishing e) (hm : Moved s e s') :
    work s' < work s := by
  cases hm with
  | ended free => exact cleanup_work (Bool.and_eq_true_iff.mp free).1
  | wakes called inside => exact leave_work called inside true _
  | expires called inside => exact leave_work called inside false _
  | resumes called left => exact work_set called rfl (by simp [due, left]) rfl
  | refused | started | passed | waits | missed | kills | aborts => cases he

/-- As long as not all calls have returned, the thread started last can end, or a
call can be woken or return. -/
theorem progress (ho : Ordered s) (h : Waited s) (hl : s.aborted = false) {c : ThreadCall}
    (hc : c ∈ s.calls) (hopen : c.returned = false) :
    ∃ e s', finishing e ∧ s.step e = some s' := by
  by_cases hlast : ∃ n, s.thread = some n ∧ s.alive n = true
  · obtain ⟨n, hn, halive⟩ := hlast
    have hfree := last_free ho h hl hn halive
    exact ⟨.cleanup n, s.cleanup n, trivial, by simp [step, hl, act, hfree]⟩
  · have hready := h.ready.resolve_left hlast
    obtain ⟨call, hcall⟩ := List.mem_iff_getElem?.mp hc
    cases hp : c.place with
    | inside timeout =>
      have hin : c.inside = true := by simp [ThreadCall.inside, hp]
      have hpos : 0 < inside s := census_pos hcall hin
      have hcounted := h.counted
      have hwakeups : s.threadDone.wakeups ≠ 0 := by omega
      exact ⟨.wake call, s.leave call c true s.threadDone.wake, trivial,
        by simp [step, hl, act, waiting, hcall, hp, hwakeups]⟩
    | left res =>
      exact ⟨.resume call, s.resume call c res, trivial, by simp [step, hl, act, hcall, hp]⟩
    | returned res => simp [ThreadCall.returned, hp] at hopen

theorem finishing_quiet {e : ThreadEvent} (he : finishing e) : ¬ enters s e ∧ ¬ fatal s e := by
  cases e with
  | start | wait | kill | abort => cases he
  | cleanup | wake | expire | resume => exact ⟨id, id⟩

/-- What holds in every state of a process that is not aborted. -/
structure Open (s : Thread) : Prop where
  ordered : Ordered s
  waited : Waited s
  goes : s.aborted = false

theorem Open.step (h : Open s) {e : ThreadEvent} (he : finishing e)
    (hs : s.step e = some s') : Open s' ∧ work s' < work s := by
  obtain ⟨henters, hfatal⟩ := finishing_quiet (s := s) he
  have hm := (step_moved h.ordered hs).2
  have hgoes : s'.aborted = false := by
    rw [← Bool.not_eq_true, aborted_moved h.ordered h.goes hm]
    exact hfatal
  have hwaited := h.waited.moved h.ordered h.goes (fun hin => absurd hin henters) hm
  exact ⟨⟨h.ordered.moved hm, hwaited, hgoes⟩, finishing_less he hm⟩

/-- All calls have returned, and the process is still there. -/
def allReturned (s : Thread) : Prop :=
  s.aborted = false ∧ ∀ c ∈ s.calls, c.returned = true

/-- From any state of a process that is not aborted the calls return, all of them,
in whatever order threads end and calls go on. -/
theorem Open.returns (h : Open s) : (system.only finishing).Comes allReturned s := by
  refine System.comes (I := Open) work ?_ ?_ h
  · rintro s e s' h ⟨hfin, hs⟩
    exact h.step hfin hs
  · intro s h hopen
    obtain ⟨c, hc, hnot⟩ : ∃ c ∈ s.calls, c.returned = false := by
      refine Classical.byContradiction fun hall => hopen ⟨h.goes, fun c hc => ?_⟩
      rw [← Bool.not_eq_false]
      exact fun hnot => hall ⟨c, hc, hnot⟩
    obtain ⟨e, s', hfin, hs⟩ := progress h.ordered h.waited h.goes hc hnot
    exact ⟨e, s', hfin, hs⟩

theorem create_waited : Waited create := by
  refine ⟨?_, rfl, ?_, nofun, Or.inr (Nat.le_refl _)⟩ <;> decide

/-- In every run with fewer than 2^32 calls at a time, whatever wake-ups were taken
by others: threads that return from run and calls that go on, in whatever order, end
all calls of wait and kill, if and only if no cancelled thread has come to a
cancellation point, which aborts the process. -/
theorem calls_return_iff {past : List (Thread × ThreadEvent)} (h : system.Run past s)
    (hroom : ∀ x ∈ past, inside x.1 + 1 < word) :
    (system.only finishing).Comes allReturned s ↔ ∀ x ∈ past, ¬ fatal x.1 x.2 := by
  have hall : (Ordered s ∧ Waited s) ∧ (s.aborted = false ↔ ∀ x ∈ past, ¬ fatal x.1 x.2) := by
    induction h with
    | start h =>
      cases h
      exact ⟨⟨create_ordered, create_waited⟩, iff_of_true rfl nofun⟩
    | @next s s' e past before hs ih =>
      simp only [List.forall_mem_append, List.forall_mem_singleton] at hroom ⊢
      obtain ⟨⟨ho, h⟩, hiff⟩ := ih hroom.1
      obtain ⟨hl, hm⟩ := step_moved ho hs
      refine ⟨⟨ho.moved hm, h.moved ho hl (fun _ => hroom.2) hm⟩, ?_⟩
      rw [← Bool.not_eq_true, aborted_moved ho hl hm]
      exact (and_iff_right (hiff.mp hl)).symm
  obtain ⟨⟨ho, h⟩, hiff⟩ := hall
  rw [← hiff]
  constructor
  · intro hcomes
    cases hcomes with
    | here hreturned => exact hreturned.1
    | next hmoves =>
      obtain ⟨e, s', _, hs⟩ := hmoves
      exact (step_moved ho hs).1
  · intro hl
    exact Open.returns ⟨ho, h, hl⟩

/-- A thread is killed while a wait with a time-out is on it: the calls return when
it returns from run, and never if it comes to a cancellation point before. -/
theorem calls_return_iff_killed : ∃ past s s', system.Run past s ∧ s.cancelled 0 = true ∧
    s.calls.map ThreadCall.place = [.inside 5, .inside ThreadPool.unlimited] ∧
    (system.only finishing).Comes allReturned s ∧ s.step (.abort 0) = some s' ∧
    ¬ (system.only finishing).Comes allReturned s' := by
  obtain ⟨past, s, hf⟩ : ∃ past s, follow step [] create [.start true, .wait none 5,
      .kill none true] = some (past, s) := ⟨_, _, rfl⟩
  have hstart : system.Run [] create := .start rfl
  have hrun := hstart.follow hf
  obtain ⟨s', hs⟩ : ∃ s', s.step (.abort 0) = some s' := by
    cases hf
    exact ⟨_, rfl⟩
  have hroom : ∀ x ∈ past ++ [(s, .abort 0)], inside x.1 + 1 < word := by cases hf; decide
  have hquiet : ∀ x ∈ past, ¬ fatal x.1 x.2 := by
    cases hf
    intro x hx
    simp only [List.nil_append, List.cons_append, List.mem_cons, List.not_mem_nil,
      or_false] at hx
    rcases hx with rfl | rfl | rfl <;> exact id
  have hplaces : s.cancelled 0 = true ∧
      s.calls.map ThreadCall.place = [.inside 5, .inside ThreadPool.unlimited] := by
    cases hf
    decide
  refine ⟨past, s, s', hrun, hplaces.1, hplaces.2, ?_, hs, ?_⟩
  · rw [calls_return_iff hrun fun x hx => hroom x (List.mem_append_left _ hx)]
    exact hquiet
  · rw [calls_return_iff (hrun.next hs) hroom]
    exact fun hall => hall _ (List.mem_append_right _ (List.mem_singleton_self _)) trivial

end CkCore.Proofs.ThreadReturns
