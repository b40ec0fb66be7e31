import CkCore.Lib.Census
import CkCore.Model.Thread

namespace CkCore.Proofs.ThreadAlone
open Lib Thread

/-- One thread at most has not been cleaned up, the one started last, and running_
tells whether there is one. -/
def Alone (s : Thread) : Prop :=
  ∀ n, s.alive n = true ↔ s.running = true ∧ s.thread = some n

/-- A kill goes on while running_ is set: the thread has been started again, or a
wake-up left over from another one has reached the kill. -/
def late (s : Thread) : ThreadEvent → Prop
  | .resume call => s.running = true ∧ ∃ c, s.calls[call]? = some c ∧ c.kill = true
  | _ => False

/-- What a step does. -/
inductive Moved (s : Thread) : ThreadEvent → Thread → Prop where
  | refused (created : Bool) : Moved s (.start created) s
  | started (idle : s.running = false) : Moved s (.start true)
      { s with
        thread := some s.natives.length
        running := true
        natives := s.natives ++ [⟨true, false⟩] }
  | ended {n : Nat} (free : s.free n = true) : Moved s (.cleanup n) (s.cleanup n)
  | passed (caller : Option Nat) (timeout : Nat)
      (idle : s.running = false ∨ caller.isSome ∧ caller = s.thread) :
      Moved s (.wait caller timeout) s
  | waits {caller : Option Nat} {n timeout : Nat} (latest : s.thread = some n)
      (running : s.running = true) (other : caller ≠ some n) (free : caller.all s.free = true) :
      Moved s (.wait caller timeout) (s.enter false caller n timeout)
  | missed (caller : Option Nat) (found : Bool) (idle : s.running = false ∨ found = false) :
      Moved s (.kill caller found) s
  | kills {caller : Option Nat} {n : Nat} (latest : s.thread = some n)
      (running : s.running = true) (free : caller.all s.free = true) :
      Moved s (.kill caller true) ((s.cancel n).enter true caller n ThreadPool.unlimited)
  | wakes {call timeout : Nat} {c : ThreadCall} (called : s.calls[call]? = some c)
      (inside : c.place = .inside timeout) (signalled : s.threadDone.wakeups ≠ 0) :
      Moved s (.wake call) (s.leave call c true s.threadDone.wake)
  | expires {call timeout : Nat} {c : ThreadCall} (called : s.calls[call]? = some c)
      (inside : c.place = .inside timeout) (limited : timeout ≠ ThreadPool.unlimited) :
      Moved s (.expire call) (s.leave call c false s.threadDone.expire)
  | resumes {call : Nat} {c : ThreadCall} {res : Bool} (called : s.calls[call]? = some c)
      (left : c.place = .left res) : Moved s (.resume call) (s.resume call c res)
  | aborts {n : Nat} (unwinds : s.unwinds n = true) :
      Moved s (.abort n) { s with aborted := true }

variable {s s' : Thread}

theorem waiting_some {call : Nat} {next : ThreadCall → Nat → Option Thread}
    (h : s.waiting call next = some s') :
    ∃ c timeout, s.calls[call]? = some c ∧ c.place = .inside timeout ∧
      next c timeout = some s' := by
  unfold waiting at h
  split at h
  · cases h
  · rename_i c hc
    split at h
    · rename_i timeout hp
      exact ⟨c, timeout, hc, hp, h⟩
    · cases h

theorem running_latest (hr : s.running = true → ∃ n, s.thread = some n ∧ s.alive n = true)
    (hnone : s.thread = none) : s.running = false := by
  cases hrunning : s.running with
  | false => rfl
  | true =>
    obtain ⟨n, hn, _⟩ := hr hrunning
    rw [hnone] at hn
    cases hn

/-- With running_ set the thread started last is alive, and calls are on threads
that were started. -/
structure Ordered (s : Thread) : Prop where
  latest : ∀ n, s.thread = some n ↔ n + 1 = s.natives.length
  ran : s.running = true → ∃ n, s.thread = some n ∧ s.alive n = true
  targets : ∀ c ∈ s.calls, c.target < s.natives.length

theorem act_moved (h : Ordered s) {e : ThreadEvent} (hs : s.act e = some s') : Moved s e s' := by
  cases e with
  | start created =>
    cases hs
    unfold start
    split
    · exact .refused created
    · rename_i hidle
      split
      · rename_i hcreated
        subst hcreated
        exact .started (Bool.eq_false_iff.mpr hidle)
      · exact .refused created
  | cleanup n =>
    simp only [act, Option.ite_none_right_eq_some, Option.some.injEq] at hs
    obtain ⟨hfree, rfl⟩ := hs
    exact .ended hfree
  | wait caller timeout =>
    simp only [act, Option.ite_none_right_eq_some, Option.some.injEq] at hs
    obtain ⟨hfree, rfl⟩ := hs
    unfold wait
    split
    · rename_i hnone
      exact .passed caller timeout (Or.inl (running_latest h.ran hnone))
    · rename_i n hn
      split
      · rename_i hself
        subst hself
        exact .passed _ timeout (Or.inr ⟨rfl, hn.symm⟩)
      · rename_i hother
        split
        · rename_i hrunning
          exact .waits hn hrunning hother hfree
        · rename_i hidle
          exact .passed caller timeout (Or.inl (Bool.eq_false_iff.mpr hidle))
  | kill caller found =>
    simp only [act, Option.ite_none_right_eq_some, Option.some.injEq] at hs
    obtain ⟨hfree, rfl⟩ := hs
    unfold kill
    split
    · rename_i hnone
      exact .missed caller found (Or.inl (running_latest h.ran hnone))
    · rename_i n hn
      split
      · rename_i hgoes
        obtain ⟨hrunning, rfl⟩ := Bool.and_eq_true_iff.mp hgoes
        exact .kills hn hrunning hfree
      · rename_i hstays
        apply Moved.missed caller found
        cases hrunning : s.running <;> cases hfound : found <;> simp_all
  | wake call =>
    obtain ⟨c, timeout, hc, hp, hs⟩ := waiting_some hs
    simp only [Option.ite_none_left_eq_some, Option.some.injEq] at hs
    obtain ⟨hw, rfl⟩ := hs
    exact .wakes hc hp hw
  | expire call =>
    obtain ⟨c, timeout, hc, hp, hs⟩ := waiting_some hs
    simp only [Option.ite_none_left_eq_some, Option.some.injEq] at hs
    obtain ⟨hw, rfl⟩ := hs
    exact .expires hc hp hw
  | resume call =>
    dsimp only [act] at hs
    split at hs
    · cases hs
    · rename_i c hc
      split at hs
      · rename_i res hp
        cases hs
        exact .resumes hc hp
      · cases hs
  | abort n =>
    simp only [act, Option.ite_none_right_eq_some, Option.some.injEq] at hs
    obtain ⟨hunwinds, rfl⟩ := hs
    exact .aborts hunwinds

theorem step_moved (h : Ordered s) {e : ThreadEvent} (hs : s.step e = some s') :
    s.aborted = false ∧ Moved s e s' := by
  simp only [step, Option.ite_none_left_eq_some, Bool.not_eq_true] at hs
  exact ⟨hs.1, act_moved h hs.2⟩

/-- Only cleanup ends a thread. -/
theorem cleanup_alive (s : Thread) (n m : Nat) :
    (s.cleanup n).alive m = (s.alive m && !decide (n = m)) := by
  simp only [alive, cleanup, List.getElem?_modify]
  by_cases hn : n = m
  · cases s.natives[m]? <;> simp [hn]
  · cases s.natives[m]? <;> simp [hn]

theorem cancel_alive (s : Thread) (n m : Nat) : (s.cancel n).alive m = s.alive m := by
  simp only [alive, cancel, List.getElem?_modify]
  by_cases hn : n = m
  · cases s.natives[m]? <;> simp [hn]
  · cases s.natives[m]? <;> simp [hn]

theorem alive_lt {n : Nat} (h : s.alive n = true) : n < s.natives.length := by
  apply Decidable.byContradiction
  intro hn
  simp [alive, List.getElem?_eq_none (Nat.le_of_not_lt hn)] at h

theorem started_alive (s : Thread) (m : Nat) :
    ({ s with
      thread := some s.natives.length
      running := true
      natives := s.natives ++ [⟨true, false⟩] } : Thread).alive m =
      (s.alive m || decide (m = s.natives.length)) := by
  simp only [alive]
  rcases Nat.lt_trichotomy m s.natives.length with hm | rfl | hm
  · rw [List.getElem?_append_left hm]
    simp [Nat.ne_of_lt hm]
  · simp
  · rw [List.getElem?_eq_none (by simp; omega), List.getElem?_eq_none (Nat.le_of_lt hm)]
    simp [Nat.ne_of_gt hm]

theorem create_ordered : Ordered create := by
  refine ⟨?_, nofun, nofun⟩
  intro n
  simp [create]

/-- A step that leaves the threads alone, and adds no call but on the thread
started last. -/
theorem Ordered.same (h : Ordered s) (hthread : s'.thread = s.thread)
    (hnatives : s'.natives.length = s.natives.length) (halive : ∀ n, s'.alive n = s.alive n)
    (hrunning : s'.running = true → s.running = true)
    (hcalls : ∀ c ∈ s'.calls, c.target < s.natives.length) : Ordered s' := by
  refine ⟨?_, ?_, ?_⟩
  · simpa [hthread, hnatives] using h.latest
  · intro hr
    simpa [hthread, halive] using h.ran (hrunning hr)
  · simpa [hnatives] using hcalls

theorem Ordered.set (h : Ordered s) {call : Nat} {c : ThreadCall} (hc : s.calls[call]? = some c)
    (place : CallPlace) :
    ∀ x ∈ s.calls.set call { c with place := place }, x.target < s.natives.length := by
  intro x hx
  rcases List.mem_or_eq_of_mem_set hx with hx | rfl
  · exact h.targets x hx
  · exact h.targets c (List.mem_of_getElem? hc)

theorem Ordered.enter (h : Ordered s) {n : Nat} (hn : s.thread = some n) (kill : Bool)
    (caller : Option Nat) (timeout : Nat) :
    ∀ x ∈ (s.enter kill caller n timeout).calls, x.target < s.natives.length := by
  have hlast := (h.latest n).mp hn
  intro x hx
  rcases List.mem_append.mp hx with hx | hx
  · exact h.targets x hx
  · simp only [List.mem_singleton] at hx
    subst hx
    dsimp only
    omega

theorem Ordered.leave (h : Ordered s) {call : Nat} {c : ThreadCall} (hc : s.calls[call]? = some c)
    (res : Bool) (cond : WaitCondition) : Ordered (s.leave call c res cond) :=
  h.same rfl rfl (fun _ => rfl) id (h.set hc _)

theorem Ordered.moved (h : Ordered s) {e : ThreadEvent} (hm : Moved s e s') : Ordered s' := by
  cases hm with
  | refused | passed | missed => exact h
  | started idle =>
    refine ⟨?_, ?_, ?_⟩
    · intro n
      simp only [Option.some.injEq, List.length_append, List.length_singleton]
      omega
    · intro _
      exact ⟨_, rfl, by simp [started_alive]⟩
    · intro c hc
      have := h.targets c hc
      simp only [List.length_append, List.length_singleton]
      omega
  | ended free =>
    refine ⟨?_, nofun, ?_⟩
    · simpa [cleanup] using h.latest
    · simpa [cleanup] using h.targets
  | waits latest running other free =>
    exact h.same rfl rfl (fun _ => rfl) id (h.enter latest _ _ _)
  | kills latest running free =>
    exact h.same rfl (List.length_modify _ _ _) (cancel_alive s _) id (h.enter latest _ _ _)
  | wakes called inside signalled => exact h.leave called _ _
  | expires called inside limited => exact h.leave called _ _
  | resumes called left =>
    refine h.same rfl rfl (fun _ => rfl) ?_ (h.set called _)
    intro hr
    simp only [resume, Bool.if_false_left, Bool.and_eq_true] at hr
    exact hr.2
  | aborts => exact h.same rfl rfl (fun _ => rfl) id h.targets

theorem ordered_step {e : ThreadEvent} (h : Ordered s) (hs : s.step e = some s') : Ordered s' :=
  h.moved (step_moved h hs).2

theorem create_alone : Alone create := by
  intro n
  simp [create, alive]

theorem leave_alive (s : Thread) (call : Nat) (c : ThreadCall) (res : Bool) (cond : WaitCondition)
    (n : Nat) : (s.leave call c res cond).alive n = s.alive n := rfl

theorem leave_alone (h : Alone s) (call : Nat) (c : ThreadCall) (res : Bool)
    (cond : WaitCondition) : Alone (s.leave call c res cond) := h

/-- From a state with one thread at most, a step leads to one just when it is no
kill that goes on too late. -/
theorem alone_moved (ho : Ordered s) (h : Alone s) {e : ThreadEvent} (hm : Moved s e s') :
    Alone s' ↔ ¬ late s e := by
  cases hm with
  | refused | passed | missed | waits | aborts => exact iff_of_true h id
  | @wakes call _ c => exact iff_of_true (leave_alone h call c true _) id
  | @expires call _ c => exact iff_of_true (leave_alone h call c false _) id
  | started idle =>
    refine iff_of_true ?_ id
    intro n
    have hn := h n
    simp only [started_alive, Bool.or_eq_true, decide_eq_true_eq, hn, idle, Option.some.injEq]
    simp [eq_comm]
  | @ended n free =>
    refine iff_of_true ?_ id
    intro m
    have hthread := ((h n).mp (Bool.and_eq_true_iff.mp free).1).2
    simp only [cleanup_alive, Bool.and_eq_true, h m, hthread]
    simp [cleanup]
  | kills latest running free =>
    refine iff_of_true ?_ id
    intro n
    exact (Bool.eq_iff_iff.mp (cancel_alive s _ n)).trans (h n)
  | @resumes call c res called left =>
    cases hk : c.kill with
    | false =>
      refine iff_of_true ?_ ?_
      · intro n
        have hrunning : (s.resume call c res).running = s.running := by simp [resume, hk]
        rw [hrunning]
        exact h n
      · rintro ⟨_, c', hc', hkill⟩
        rw [called] at hc'
        cases hc'
        simp [hk] at hkill
    | true =>
      have hlate : late s (.resume call) ↔ s.running = true := by simp [late, called, hk]
      have halive : ∀ n, (s.resume call c res).alive n = s.alive n := fun _ => rfl
      rw [hlate]
      constructor
      · intro ha hr
        obtain ⟨n, _, hn⟩ := ho.ran hr
        have := (ha n).mp (halive n ▸ hn)
        simp [resume, hk] at this
      · intro hidle n
        rw [halive, h n]
        simp [resume, hk, hidle]

/-- Along every run at most one thread of the object is alive, and running_ says
whether there is one, if and only if no kill goes on while running_ is set. -/
theorem alone_iff {past : List (Thread × ThreadEvent)} (h : system.Run past s) :
    ((∀ x ∈ past, Alone x.1) ∧ Alone s) ↔ ∀ x ∈ past, ¬ late x.1 x.2 := by
  have init : ∀ s, system.init s → Ordered s ∧ Alone s := by
    intro s hs
    cases hs
    exact ⟨create_ordered, create_alone⟩
  exact h.all_iff_of init (fun _ _ _ ho hs => ordered_step ho hs)
    fun _ _ _ ho ha hs => alone_moved ho ha (step_moved ho hs).2

/-- The thread is killed, and started again before kill goes on: a third start
would find running_ cleared. -/
theorem alone_iff_restarted : ∃ past s, system.Run past s ∧
    ¬ ((∀ x ∈ past, Alone x.1) ∧ Alone s) ∧ s.alive 1 = true ∧ s.running = false := by
  obtain ⟨past, s, hf⟩ : ∃ past s, follow step [] create [.start true, .kill none true,
      .cleanup 0, .wake 0, .start true, .resume 0] = some (past, s) := ⟨_, _, rfl⟩
  have hstart : system.Run [] create := .start rfl
  have hrun := hstart.follow hf
  refine ⟨past, s, hrun, ?_⟩
  rw [alone_iff hrun]
  cases hf
  refine ⟨?_, rfl, rfl⟩
  intro hall
  apply hall _ (.tail _ (.tail _ (.tail _ (.tail _ (.tail _ (.head _))))))
  exact ⟨rfl, _, rfl, rfl⟩

end CkCore.Proofs.ThreadAlone
