import CkCore.Proofs.ThreadAlone

namespace CkCore.Proofs.ThreadWakeups
open Lib Thread ThreadAlone

/-- A recorded wake-up is for calls on threads that have ended only. -/
def Truthful (s : Thread) : Prop :=
  ∀ c ∈ s.calls, c.inside = true → s.threadDone.wakeups ≠ 0 → s.alive c.target = false

/-- One thread at most is alive, and no call can be woken while its own is. -/
def Sound (s : Thread) : Prop := Alone s ∧ Truthful s

/-- The event is a call that begins to wait. -/
def enters (s : Thread) : ThreadEvent → Prop
  | .wait caller _ => s.running = true ∧ ¬ (caller.isSome ∧ caller = s.thread)
  | .kill _ found => s.running = true ∧ found = true
  | _ => False

/-- A call begins to wait before all the wake-ups recorded are taken. -/
def early (s : Thread) (e : ThreadEvent) : Prop := enters s e ∧ s.threadDone.wakeups ≠ 0

variable {s s' : Thread}

/-- The call was woken, not left by its time-out. A kill that has returned counts
as woken. -/
def heard (c : ThreadCall) : Prop := c.place = .left true ∨ c.place = .returned true

/-- Only cells whose place changes are new. -/
theorem set_calls {call : Nat} {c x : ThreadCall} {place : CallPlace}
    (h : x ∈ s.calls.set call { c with place := place }) :
    x ∈ s.calls ∨ x = { c with place := place } := List.mem_or_eq_of_mem_set h

/-- Leaving takes a call away from those inside, and adds no wake-up. -/
theorem leave_truthful (h : Truthful s) {call : Nat} {c : ThreadCall} {res : Bool}
    {cond : WaitCondition} (hcond : cond.wakeups ≠ 0 → s.threadDone.wakeups ≠ 0) :
    Truthful (s.leave call c res cond) := by
  intro x hx hin hw
  rcases set_calls hx with hx | rfl
  · exact h x hx hin (hcond hw)
  · cases hin

theorem resume_truthful (h : Truthful s) (call : Nat) (c : ThreadCall) (res : Bool) :
    Truthful (s.resume call c res) := by
  intro x hx hin hw
  rcases set_calls hx with hx | rfl
  · exact h x hx hin hw
  · cases hin

/-- The call that begins to wait is on a thread that is alive. -/
theorem enter_truthful (ho : Ordered s) {n : Nat} (hn : s.thread = some n)
    (hr : s.running = true) (kill : Bool) (caller : Option Nat) (timeout : Nat) :
    Truthful (s.enter kill caller n timeout) ↔ s.threadDone.wakeups = 0 := by
  constructor
  · intro ht
    apply Decidable.byContradiction
    intro hw
    obtain ⟨m, hm, halive⟩ := ho.ran hr
    rw [hn] at hm
    cases hm
    have hdead := ht ⟨kill, caller, n, .inside timeout⟩ (by simp [enter]) rfl hw
    have hsame : s.alive n = false := hdead
    simp [hsame] at halive
  · intro hnone x hx hin hw
    exact absurd hnone hw

/-- From a sound state a step leads to a sound one just when no kill goes on too
late and no call begins too early. -/
theorem sound_moved (ho : Ordered s) (h : Sound s) {e : ThreadEvent} (hm : Moved s e s') :
    Sound s' ↔ ¬ late s e ∧ ¬ early s e := by
  obtain ⟨ha, ht⟩ := h
  have halone := alone_moved ho ha hm
  suffices htruthful : Alone s' → (Truthful s' ↔ ¬ early s e) by
    rw [Sound, halone]
    exact and_congr_right fun hl => htruthful (halone.mpr hl)
  intro _
  cases hm with
  | refused => exact iff_of_true ht fun h => h.1
  | passed caller timeout idle =>
    refine iff_of_true ht ?_
    rintro ⟨⟨hr, hself⟩, _⟩
    rcases idle with hidle | hown
    · simp [hidle] at hr
    · exact hself hown
  | missed caller found idle =>
    refine iff_of_true ht ?_
    rintro ⟨⟨hr, hfound⟩, _⟩
    rcases idle with hidle | hidle
    · simp [hidle] at hr
    · simp [hidle] at hfound
  | started idle =>
    refine iff_of_true ?_ fun h => h.1
    intro x hx hin hw
    have hnew : x.target ≠ s.natives.length := Nat.ne_of_lt (ho.targets x hx)
    rw [started_alive, ht x hx hin hw]
    simp [hnew]
  | @ended n free =>
    refine iff_of_true ?_ fun h => h.1
    intro x _ _ _
    have hlast := ((ha n).mp (Bool.and_eq_true_iff.mp free).1).2
    rw [cleanup_alive]
    cases halive : s.alive x.target with
    | false => rfl
    | true =>
      have hthread := ((ha x.target).mp halive).2
      rw [hlast] at hthread
      cases hthread
      simp
  | @waits caller n timeout latest running other free =>
    rw [enter_truthful ho latest running]
    have henters : enters s (.wait caller timeout) := by
      refine ⟨running, ?_⟩
      rw [latest]
      exact fun h => other h.2
    simp [early, henters]
  | @kills caller n latest running free =>
    have hcancelled : Ordered (s.cancel n) :=
      ho.same rfl (List.length_modify _ _ _) (cancel_alive s n) id ho.targets
    have henter := enter_truthful hcancelled latest running true caller ThreadPool.unlimited
    rw [henter]
    have henters : enters s (.kill caller true) := ⟨running, rfl⟩
    simp [early, henters, cancel]
  | wakes called inside signalled =>
    exact iff_of_true (leave_truthful ht fun _ => signalled) fun h => h.1
  | expires called inside limited =>
    refine iff_of_true (leave_truthful ht fun h => ?_) fun h => h.1
    rwa [WaitCondition.expire_wakeups] at h
  | resumes called left => exact iff_of_true (resume_truthful ht _ _ _) fun h => h.1
  | aborts => exact iff_of_true ht fun h => h.1

/-- The thread of every call that was woken has ended. -/
def Heard (s : Thread) : Prop := ∀ c ∈ s.calls, heard c → s.alive c.target = false

/-- Threads that have ended stay so. -/
theorem ended_moved (ho : Ordered s) {e : ThreadEvent} (hm : Moved s e s') {c : ThreadCall}
    (hc : c ∈ s.calls) (h : s.alive c.target = false) : s'.alive c.target = false := by
  cases hm with
  | refused | passed | missed | waits | aborts => exact h
  | wakes | expires => rw [leave_alive, h]
  | resumes => exact h
  | kills => exact (cancel_alive s _ _).trans h
  | ended free => rw [cleanup_alive, h, Bool.false_and]
  | started idle =>
    have hnew : c.target ≠ s.natives.length := Nat.ne_of_lt (ho.targets c hc)
    rw [started_alive, h]
    simp [hnew]

theorem heard_moved (ho : Ordered s) (h : Sound s) (hh : Heard s) {e : ThreadEvent}
    (hm : Moved s e s') (h' : Sound s') : Heard s' := by
  have hold : ∀ c ∈ s.calls, heard c → s'.alive c.target = false :=
    fun c hc hw => ended_moved ho hm hc (hh c hc hw)
  intro x hx hw
  cases hm with
  | refused | passed | missed | started | ended | aborts => exact hold x hx hw
  | waits | kills =>
    rcases List.mem_append.mp hx with hx | hx
    · exact hold x hx hw
    · simp only [List.mem_singleton] at hx
      subst hx
      rcases hw with hw | hw <;> cases hw
  | @wakes call timeout c called inside signalled =>
    rcases set_calls hx with hx | rfl
    · exact hold x hx hw
    · have hin : c.inside = true := by simp [ThreadCall.inside, inside]
      exact (leave_alive s _ _ _ _ _).trans (h.2 c (List.mem_of_getElem? called) hin signalled)
  | expires called inside limited =>
    rcases set_calls hx with hx | rfl
    · exact hold x hx hw
    · rcases hw with hw | hw <;> cases hw
  | @resumes call c res called left =>
    rcases set_calls hx with hx | rfl
    · exact hold x hx hw
    · cases hk : c.kill with
      | false =>
        have hres : res = true := by
          rcases hw with hw | hw
          · cases hw
          · simpa [hk] using hw
        exact hold c (List.mem_of_getElem? called) (Or.inl (hres ▸ left))
      | true =>
        -- running_ is clear, so that no thread is alive in a sound state
        cases halive : (s.resume call c res).alive c.target with
        | false => rfl
        | true =>
          have := ((h'.1 _).mp halive).1
          simp [resume, hk] at this

/-- Along every run one thread at most is alive and wake-ups are at hand only for
calls whose thread has ended, if and only if no kill goes on while running_ is set
and no call begins while wake-ups are left. Then a wait that returns true, and a
kill that does so, are right: the thread has ended. -/
theorem woken_right_iff {past : List (Thread × ThreadEvent)} (h : system.Run past s) :
    (((∀ x ∈ past, Sound x.1) ∧ Sound s) ↔ ∀ x ∈ past, ¬ late x.1 x.2 ∧ ¬ early x.1 x.2) ∧
    ((∀ x ∈ past, Sound x.1) ∧ Sound s → ∀ c ∈ s.calls, heard c → s.alive c.target = false) := by
  have hcreate : Sound create := ⟨create_alone, nofun⟩
  have init : ∀ s, system.init s → Ordered s ∧ Sound s := by
    intro s hs
    cases hs
    exact ⟨create_ordered, hcreate⟩
  have hiff : ((∀ x ∈ past, Sound x.1) ∧ Sound s) ↔
      ∀ x ∈ past, ¬ late x.1 x.2 ∧ ¬ early x.1 x.2 :=
    h.all_iff_of init (fun _ _ _ ho hs => ordered_step ho hs)
      fun _ _ _ ho hx hs => sound_moved ho hx (step_moved ho hs).2
  refine ⟨hiff, ?_⟩
  intro hsound
  have hreached : system.Reached (fun s e => ¬ late s e ∧ ¬ early s e) s :=
    h.reached (hiff.mp hsound)
  have start : ∀ s, system.init s → Ordered s ∧ Sound s ∧ Heard s := by
    intro s hs
    cases hs
    exact ⟨create_ordered, hcreate, nofun⟩
  have hall := hreached.invariant start fun s e s' ⟨ho, hx, hh⟩ hmeets hs => by
    have hm := (step_moved ho hs).2
    have hx' := (sound_moved ho hx hm).mpr hmeets
    exact ⟨ho.moved hm, hx', heard_moved ho hx hh hm hx'⟩
  exact hall.2.2

/-- A wait leaves by its time-out just after the thread has ended, and its wake-up
stays for a call on the next thread. -/
theorem woken_right_expired : ∃ past s, system.Run past s ∧
    ¬ ((∀ x ∈ past, Sound x.1) ∧ Sound s) ∧
    ∃ c ∈ s.calls, c.place = .returned true ∧ s.alive c.target = true := by
  obtain ⟨past, s, hf⟩ : ∃ past s, follow step [] create [.start true, .wait none 5, .cleanup 0,
      .expire 0, .start true, .wait none 5, .wake 1, .resume 1] = some (past, s) := ⟨_, _, rfl⟩
  have hstart : system.Run [] create := .start rfl
  have hrun := hstart.follow hf
  refine ⟨past, s, hrun, ?_⟩
  rw [(woken_right_iff hrun).1]
  cases hf
  refine ⟨?_, _, .tail _ (.head _), rfl, rfl⟩
  intro hall
  apply (hall _ (.tail _ (.tail _ (.tail _ (.tail _ (.tail _ (.head _))))))).2
  exact ⟨⟨rfl, nofun⟩, nofun⟩

end CkCore.Proofs.ThreadWakeups
