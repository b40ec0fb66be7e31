import CkCore.Model.WindowsProcess

namespace CkCore.Proofs.WindowsClose
open Lib CkCore.WindowsProcess

/-- The listener's close has set the start event back. -/
def eventReset : WindowsListenerPc → Bool
  | .resetStop | .store | .leave | .unlock | .notify | .done => true
  | _ => false

/-- The listener's close has set the state. -/
def stateStored : WindowsListenerPc → Bool
  | .leave | .unlock | .notify | .done => true
  | _ => false

/-- A process the listener has closed is stopped, and create is not waiting for a
start event that has come and gone. -/
structure Settled (s : WindowsProcess) : Prop where
  stopped : stateStored s.listener = true → s.state = .stopped
  heard : s.creator = .wait → eventReset s.listener = false

/-- create has passed its wait before the listener sets the start event back. -/
def inTime (s : WindowsProcess) : WindowsEvent → Prop
  | .create _ => s.creator = .run → eventReset s.listener = false
  | .listen => s.listener = .resetStart → s.creator ≠ .wait
  | _ => True

/-- What every run keeps: nobody sets the start event after the listener's
close, and only a create that is still waiting can have started a process that
was closed before. -/
structure Sound (s : WindowsProcess) : Prop where
  event : eventReset s.listener = true → s.startEvent = false
  late : stateStored s.listener = true → s.state = .running → s.creator = .wait

section
variable {s s' : WindowsProcess}

theorem eventReset_stored {l : WindowsListenerPc} (h : stateStored l = true) :
    eventReset l = true := by
  cases l <;> first | rfl | cases h

theorem reset_cases {next : WindowsCreatorPc} (h : s.reset next = some s') :
    s' = { s with
      threadHandle := false, child := .none, startEvent := false, stopEvent := false
      state := .stopped, creator := next } := by
  unfold WindowsProcess.reset at h
  split at h
  · cases h
  · exact (Option.some.inj h).symm

/-- All a step of create can do to what the listener shares with it. -/
inductive Created (s s' : WindowsProcess) : Prop where
  | idle (before : s.creator = .idle) (same : s' = s)
  | moved (before : s.creator ≠ .run) (after : s'.creator ≠ .wait)
      (awake : s.creator = .wait → s.startEvent = true) (listener : s'.listener = s.listener)
      (state : s'.state = s.state) (event : s'.startEvent = s.startEvent)
  | closed (before : s.creator ≠ .run) (after : s'.creator ≠ .wait) (awake : s.creator ≠ .wait)
      (listener : s'.listener = s.listener) (state : s'.state = .stopped)
      (event : s'.startEvent = false)
  | spawned (before : s.creator = .spawn) (after : s'.creator = .handle)
      (listener : s'.listener = .lock)
  | ran (before : s.creator = .run) (after : s'.creator = .wait)
      (listener : s'.listener = s.listener) (state : s'.state = .running)
      (event : s'.startEvent = s.startEvent)

theorem created_reset {next : WindowsCreatorPc} (hr : s.creator ≠ .run) (hw : s.creator ≠ .wait)
    (hn : next ≠ .wait) (h : s.reset next = some s') : Created s s' := by
  rw [reset_cases h]
  exact .closed hr hn hw rfl rfl rfl

theorem created {ok : Bool} (hs : s.createStep ok = some s') : Created s s' := by
  unfold createStep at hs
  split at hs
  case h_1 hc =>
    split at hs
    · cases hs
    · split at hs
      · cases hs
        exact .idle hc rfl
      · cases hs
        exact .moved (by simp [hc]) (by simp) (by simp [hc]) rfl rfl rfl
  case h_2 hc =>
    split at hs
    · cases hs
    · split at hs
      · cases hs
        exact .moved (by simp [hc]) (by simp) (by simp [hc]) rfl rfl rfl
      · exact created_reset (by simp [hc]) (by simp [hc]) (by simp) hs
  case h_3 hc =>
    split at hs
    · exact created_reset (by simp [hc]) (by simp [hc]) (by simp) hs
    · cases hs
  case h_4 hc =>
    split at hs <;> cases hs <;> exact .moved (by simp [hc]) (by simp) (by simp [hc]) rfl rfl rfl
  case h_5 hc =>
    split at hs
    · cases hs
      exact .spawned hc rfl rfl
    · cases hs
      exact .moved (by simp [hc]) (by simp) (by simp [hc]) rfl rfl rfl
  case h_6 hc =>
    split at hs
    · cases hs
    · exact created_reset (by simp [hc]) (by simp [hc]) (by simp) hs
  case h_7 hc =>
    cases hs
    exact .moved (by simp [hc]) (by simp) (by simp [hc]) rfl rfl rfl
  case h_8 hc =>
    cases hs
    exact .ran hc rfl rfl rfl rfl
  case h_9 hc =>
    obtain ⟨hevent, hs⟩ := Option.ite_none_right_eq_some.mp hs
    cases hs
    exact .moved (by simp [hc]) (by simp) (fun _ => hevent) rfl rfl rfl

/-- All a step of the listener can do to what create shares with it. -/
inductive Listened (s s' : WindowsProcess) : Prop where
  | moved (before : s.listener ≠ .resetStart) (creator : s'.creator = s.creator)
      (state : s'.state = s.state)
      (event : eventReset s.listener = true → s'.startEvent = s.startEvent)
      (reset : eventReset s'.listener = eventReset s.listener)
      (stored : stateStored s'.listener = stateStored s.listener)
  | dropped (before : s.listener = .resetStart) (creator : s'.creator = s.creator)
      (state : s'.state = s.state) (event : s'.startEvent = false)
      (after : s'.listener = .resetStop)
  | stopped (before : s.listener = .store) (creator : s'.creator = s.creator)
      (state : s'.state = .stopped) (event : s'.startEvent = s.startEvent)
      (after : s'.listener = .leave)

theorem listened (hs : s.listenStep = some s') : Listened s s' := by
  unfold listenStep at hs
  split at hs
  case h_7 hl =>
    cases hs
    exact .dropped hl rfl rfl rfl rfl
  case h_9 hl =>
    cases hs
    exact .stopped hl rfl rfl rfl rfl
  case h_1 hl | h_4 hl | h_6 hl =>
    obtain ⟨_, hs⟩ := Option.ite_none_left_eq_some.mp hs
    cases hs
    exact .moved (by simp [hl]) rfl rfl (fun _ => rfl) (by simp [hl, eventReset])
      (by simp [hl, stateStored])
  case h_3 hl =>
    obtain ⟨_, hs⟩ := Option.ite_none_right_eq_some.mp hs
    cases hs
    exact .moved (by simp [hl]) rfl rfl (fun _ => rfl) (by simp [hl, eventReset])
      (by simp [hl, stateStored])
  case h_2 hl =>
    cases hs
    exact .moved (by simp [hl]) rfl rfl (by simp [hl, eventReset]) (by simp [hl, eventReset])
      (by simp [hl, stateStored])
  case h_5 hl | h_8 hl | h_10 hl | h_11 hl | h_12 hl =>
    cases hs
    exact .moved (by simp [hl]) rfl rfl (fun _ => rfl) (by simp [hl, eventReset])
      (by simp [hl, stateStored])
  case h_13 | h_14 => cases hs

/-- A step of the child or of an earlier listener touches none of this. -/
structure Apart (s s' : WindowsProcess) : Prop where
  state : s'.state = s.state
  event : s'.startEvent = s.startEvent
  creator : s'.creator = s.creator
  listener : s'.listener = s.listener

theorem apart {e : WindowsEvent} (hc : ∀ ok, e ≠ .create ok) (hl : e ≠ .listen)
    (hs : s.step e = some s') : Apart s s' := by
  cases e with
  | create ok => exact absurd rfl (hc ok)
  | listen => exact absurd rfl hl
  | childExit | linger =>
    obtain ⟨_, hs⟩ := Option.ite_none_right_eq_some.mp hs
    cases hs
    exact ⟨rfl, rfl, rfl, rfl⟩
  | pipeBreak =>
    obtain ⟨_, hs⟩ := Option.ite_none_left_eq_some.mp hs
    cases hs
    exact ⟨rfl, rfl, rfl, rfl⟩

theorem Sound.create (h : Sound s) (hs : Created s s') : Sound s' := by
  cases hs with
  | idle before same => exact same ▸ h
  | moved before after awake listener state event =>
    refine ⟨?_, ?_⟩
    · rw [listener, event]
      exact h.event
    · rw [listener, state]
      intro hstored hrun
      have hwait := h.late hstored hrun
      have hset := awake hwait
      rw [h.event (eventReset_stored hstored)] at hset
      cases hset
  | closed before after awake listener state event =>
    refine ⟨fun _ => event, ?_⟩
    rw [state]
    intro _ hrun
    cases hrun
  | spawned before after listener =>
    constructor <;> simp [listener, eventReset, stateStored]
  | ran before after listener state event =>
    refine ⟨?_, fun _ _ => after⟩
    rw [listener, event]
    exact h.event

theorem Sound.listen (h : Sound s) (hs : Listened s s') : Sound s' := by
  cases hs with
  | moved before creator state event reset stored =>
    refine ⟨?_, ?_⟩
    · rw [reset]
      exact fun hreset => (event hreset).trans (h.event hreset)
    · rw [stored, state, creator]
      exact h.late
  | dropped before creator state event after =>
    refine ⟨fun _ => event, ?_⟩
    rw [after]
    intro hstored
    cases hstored
  | stopped before creator state event after =>
    refine ⟨?_, ?_⟩
    · rw [event]
      exact fun _ => h.event (by rw [before]; rfl)
    · rw [state]
      intro _ hrun
      cases hrun

theorem Sound.apart (h : Sound s) (hs : Apart s s') : Sound s' := by
  refine ⟨?_, ?_⟩
  · rw [hs.listener, hs.event]
    exact h.event
  · rw [hs.listener, hs.state, hs.creator]
    exact h.late

theorem Sound.step (h : Sound s) {e : WindowsEvent} (hs : s.step e = some s') : Sound s' := by
  cases e with
  | create ok => exact h.create (created hs)
  | listen => exact h.listen (listened hs)
  | childExit | pipeBreak | linger =>
    exact h.apart (WindowsClose.apart (by simp) (by simp) hs)

/-- A step of create unsettles a process just when it stores RUNNING, and goes to
wait, after the listener set the event back. -/
theorem Settled.create (h : Settled s) {ok : Bool} (hs : Created s s') :
    Settled s' ↔ inTime s (.create ok) := by
  cases hs with
  | idle before same =>
    rw [same]
    exact iff_of_true h (by simp [inTime, before])
  | moved before after awake listener state event =>
    refine iff_of_true ⟨?_, fun hw => absurd hw after⟩ fun hrun => absurd hrun before
    rw [listener, state]
    exact h.stopped
  | closed before after awake listener state event =>
    exact iff_of_true ⟨fun _ => state, fun hw => absurd hw after⟩ fun hrun => absurd hrun before
  | spawned before after listener =>
    refine iff_of_true ⟨?_, ?_⟩ ?_
    · simp [listener, stateStored]
    · simp [after]
    · simp [inTime, before]
  | ran before after listener state event =>
    constructor
    · intro hsettled _
      rw [← listener]
      exact hsettled.heard after
    · intro hin
      have hreset := hin before
      refine ⟨?_, ?_⟩
      · rw [listener]
        intro hstored
        rw [eventReset_stored hstored] at hreset
        cases hreset
      · rw [listener]
        exact fun _ => hreset

/-- A step of the listener unsettles a process just when it sets the event back
while create still waits for it. -/
theorem Settled.listen (h : Settled s) (hs : Listened s s') : Settled s' ↔ inTime s .listen := by
  cases hs with
  | moved before creator state event reset stored =>
    refine iff_of_true ⟨?_, ?_⟩ fun hl => absurd hl before
    · rw [stored, state]
      exact h.stopped
    · rw [creator, reset]
      exact h.heard
  | dropped before creator state event after =>
    constructor
    · intro hsettled _ hwait
      have hheard := hsettled.heard (creator.trans hwait)
      rw [after] at hheard
      cases hheard
    · intro hin
      refine ⟨?_, ?_⟩
      · rw [after]
        intro hstored
        cases hstored
      · rw [creator]
        exact fun hwait => absurd hwait (hin before)
  | stopped before creator state event after =>
    refine iff_of_true ⟨fun _ => state, ?_⟩ (by simp [inTime, before])
    rw [creator]
    intro hwait
    have hheard := h.heard hwait
    rw [before] at hheard
    cases hheard

theorem Settled.apart (h : Settled s) (hs : Apart s s') : Settled s' := by
  refine ⟨?_, ?_⟩
  · rw [hs.listener, hs.state]
    exact h.stopped
  · rw [hs.listener, hs.creator]
    exact h.heard

theorem Settled.step (h : Settled s) {e : WindowsEvent} (hs : s.step e = some s') :
    Settled s' ↔ inTime s e := by
  cases e with
  | create ok => exact h.create (created hs)
  | listen => exact h.listen (listened hs)
  | childExit | pipeBreak | linger =>
    exact iff_of_true (h.apart (WindowsClose.apart (by simp) (by simp) hs)) trivial

theorem init_run : system.Run [] init := .start rfl

theorem init_settled : Settled init := by
  constructor <;> simp [init, stateStored]

theorem init_sound : Sound init := by
  constructor <;> simp [init, eventReset, stateStored]

theorem run_sound {past : List (WindowsProcess × WindowsEvent)} (h : system.Run past s) :
    Sound s := by
  refine h.invariant (I := Sound) ?_ fun s e s' hs hstep => hs.step hstep
  intro s hinit
  exact hinit ▸ init_sound

/-- A closed process stays stopped, and create hears of the start, all along a
run just when create is past its wait before the listener sets the event back. -/
theorem stays_stopped_iff {past : List (WindowsProcess × WindowsEvent)} (h : system.Run past s) :
    ((∀ p ∈ past, Settled p.1) ∧ Settled s) ↔ ∀ p ∈ past, inTime p.1 p.2 := by
  refine h.all_iff ?_ fun s e s' hs hstep => hs.step hstep
  intro s hinit
  exact hinit ▸ init_settled

/-- A child that lives until create has heard of the start is closed for good. -/
theorem stays_stopped_long : ∃ past s, system.Run past s ∧ s.listener = .done ∧
    s.state = .stopped ∧ (∀ p ∈ past, Settled p.1) ∧ Settled s := by
  have hevents : ∃ past s, follow step [] init [.create true, .create true, .create true,
      .create true, .create true, .create true, .listen, .listen, .create true, .childExit,
      .listen, .listen, .listen, .listen, .listen, .listen, .listen, .listen, .listen, .listen] =
        some (past, s) ∧ s.listener = .done ∧ s.state = .stopped ∧
      (∀ p ∈ past, inTime p.1 p.2) := by
    refine ⟨_, _, rfl, rfl, rfl, ?_⟩
    simp [inTime, eventReset, init]
  obtain ⟨past, s, hfollow, hdone, hstopped, hin⟩ := hevents
  have hrun : system.Run past s := init_run.follow hfollow
  exact ⟨past, s, hrun, hdone, hstopped, (stays_stopped_iff hrun).mpr hin⟩

/-- create waits for an event that nobody will set again. -/
structure Overtaken (s : WindowsProcess) : Prop where
  waits : s.creator = .wait
  reset : eventReset s.listener = true
  event : s.startEvent = false

/-- In a run that is no longer settled create has been overtaken. -/
theorem Sound.overtaken (h : Sound s) (hn : ¬ Settled s) : Overtaken s := by
  by_cases hwait : s.creator = .wait ∧ eventReset s.listener = true
  · exact ⟨hwait.1, hwait.2, h.event hwait.2⟩
  · refine absurd ⟨?_, ?_⟩ hn
    · intro hstored
      cases hst : s.state with
      | stopped => rfl
      | running => exact absurd ⟨h.late hstored hst, eventReset_stored hstored⟩ hwait
    · intro hw
      exact Bool.eq_false_iff.mpr fun hreset => hwait ⟨hw, hreset⟩

/-- An overtaken create takes no step. -/
theorem Overtaken.stuck (h : Overtaken s) (ok : Bool) : s.createStep ok = none := by
  simp [createStep, h.waits, h.event]

theorem Overtaken.listen (h : Overtaken s) (hs : Listened s s') : Overtaken s' := by
  cases hs with
  | moved before creator state event reset stored =>
    exact ⟨creator.trans h.waits, reset.trans h.reset, (event h.reset).trans h.event⟩
  | dropped before creator state event after =>
    exact ⟨creator.trans h.waits, by rw [after]; rfl, event⟩
  | stopped before creator state event after =>
    exact ⟨creator.trans h.waits, by rw [after]; rfl, event.trans h.event⟩

theorem Overtaken.apart (h : Overtaken s) (hs : Apart s s') : Overtaken s' :=
  ⟨hs.creator.trans h.waits, hs.listener ▸ h.reset, hs.event.trans h.event⟩

theorem Overtaken.step (h : Overtaken s) {e : WindowsEvent} (hs : s.step e = some s') :
    Overtaken s' := by
  cases e with
  | create ok =>
    have hstuck : s.createStep ok = some s' := hs
    rw [h.stuck ok] at hstuck
    cases hstuck
  | listen => exact h.listen (listened hs)
  | childExit | pipeBreak | linger => exact h.apart (WindowsClose.apart (by simp) (by simp) hs)

/-- A process that is over is running, and its create waits. -/
structure Zombie (s : WindowsProcess) : Prop extends Overtaken s where
  running : s.state = .running
  stored : stateStored s.listener = true

theorem Zombie.listen (h : Zombie s) (hs : Listened s s') : Zombie s' := by
  have hovertaken := h.toOvertaken.listen hs
  have hstored := h.stored
  cases hs with
  | moved before creator state event reset stored =>
    exact ⟨hovertaken, state.trans h.running, stored.trans hstored⟩
  | dropped before =>
    rw [before] at hstored
    cases hstored
  | stopped before =>
    rw [before] at hstored
    cases hstored

theorem Zombie.apart (h : Zombie s) (hs : Apart s s') : Zombie s' :=
  ⟨h.toOvertaken.apart hs, hs.state.trans h.running, hs.listener ▸ h.stored⟩

theorem Zombie.step (h : Zombie s) {e : WindowsEvent} (hs : s.step e = some s') : Zombie s' := by
  cases e with
  | create ok =>
    have hstuck : s.createStep ok = some s' := hs
    rw [h.stuck ok] at hstuck
    cases hstuck
  | listen => exact h.listen (listened hs)
  | childExit | pipeBreak | linger => exact h.apart (WindowsClose.apart (by simp) (by simp) hs)

/-- An overtaken create never returns, whatever happens next. -/
theorem Overtaken.keeps (h : Overtaken s) {t : WindowsProcess} (hl : system.Leads s t) :
    Overtaken t :=
  hl.keeps (I := Overtaken) (fun _ _ _ hu hs => hu.step hs) h

/-- A process that is over and running stays so for ever. -/
theorem Zombie.keeps (h : Zombie s) {t : WindowsProcess} (hl : system.Leads s t) : Zombie t :=
  hl.keeps (I := Zombie) (fun _ _ _ hu hs => hu.step hs) h

/-- A child that exits at once is closed before create stores that it runs. -/
theorem short_run : ∃ past s, system.Run past s ∧ s.listener = .done ∧ s.state = .running ∧
    s.creator = .wait ∧ s.startEvent = false := by
  have hevents : ∃ past s, follow step [] init [.create true, .create true, .create true,
      .create true, .listen, .listen, .childExit, .listen, .listen, .listen, .listen, .listen,
      .listen, .listen, .create true, .create true, .listen, .listen, .listen] =
        some (past, s) ∧ s.listener = .done ∧ s.state = .running ∧ s.creator = .wait ∧
      s.startEvent = false := by
    exact ⟨_, _, rfl, rfl, rfl, rfl, rfl⟩
  obtain ⟨past, s, hfollow, hrest⟩ := hevents
  exact ⟨past, s, init_run.follow hfollow, hrest⟩

theorem unsettled (hdone : s.listener = .done) (hwaits : s.creator = .wait) : ¬ Settled s := by
  intro hsettled
  have hheard := hsettled.heard hwaits
  rw [hdone] at hheard
  cases hheard

/-- A child that exits at once runs for ever and create waits for ever. -/
theorem short_child_runs_for_ever : ∃ past s, system.Run past s ∧ s.listener = .done ∧
    s.state = .running ∧ ¬ Settled s ∧
    ∀ t, system.Leads s t → t.running = true ∧ t.creator = .wait := by
  obtain ⟨past, s, hrun, hdone, hrunning, hwaits, hevent⟩ := short_run
  have hzombie : Zombie s := ⟨⟨hwaits, by rw [hdone]; rfl, hevent⟩, hrunning, by rw [hdone]; rfl⟩
  refine ⟨past, s, hrun, hdone, hrunning, unsettled hdone hwaits, ?_⟩
  intro t hleads
  have ht := hzombie.keeps hleads
  exact ⟨decide_eq_true ht.running, ht.waits⟩

/-- Once a run is not settled any more, create waits and never returns, whatever
the child, the listener and earlier listeners do. -/
theorem unsettled_hangs {past : List (WindowsProcess × WindowsEvent)} (h : system.Run past s)
    (hn : ¬ Settled s) {t : WindowsProcess} (hl : system.Leads s t) :
    t.creator = .wait ∧ ∀ ok, t.step (.create ok) = none := by
  have ht : Overtaken t := ((run_sound h).overtaken hn).keeps hl
  exact ⟨ht.waits, ht.stuck⟩

/-- The create of the child that exited at once. -/
theorem unsettled_hangs_short : ∃ past s, system.Run past s ∧ ¬ Settled s ∧
    ∀ t, system.Leads s t → t.creator = .wait ∧ ∀ ok, t.step (.create ok) = none := by
  obtain ⟨past, s, hrun, hdone, _, hwaits, _⟩ := short_run
  have hunsettled := unsettled hdone hwaits
  exact ⟨past, s, hrun, hunsettled, fun t hleads => unsettled_hangs hrun hunsettled hleads⟩

end
end CkCore.Proofs.WindowsClose
