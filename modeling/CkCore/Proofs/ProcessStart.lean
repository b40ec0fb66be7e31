import CkCore.Proofs.ProcessOutput

namespace CkCore.Proofs.ProcessStart
open Lib ProcessRun ProcessSteps ProcessOutput

/-- The listener has signalled the start and not yet closed the process. -/
def announced : ListenerPc → Prop
  | .idle | .clear | .signal | .done => False
  | _ => True

/-- While create waits for the start, it finds it or the listener is still to
signal it. -/
def handshake (s : ProcessRun) : Prop :=
  s.creator = .wait → s.self.startedEvent = true ∨
    s.listener = .idle ∨ s.listener = .clear ∨ s.listener = .signal

/-- The listener closes the process only when create no longer waits. -/
def closesLast (s : ProcessRun) : ProcessEvent → Prop
  | .listen => s.listener = .failed ∨ s.listener = .close → s.creator ≠ .wait
  | _ => True

/-- Some steps of the parties still lead to create's return. -/
def returns (s : ProcessRun) : Prop := ∃ t, system.Leads s t ∧ t.creator = .returned

/-- What started_event_ says in every state. -/
structure Told (s : ProcessRun) : Prop extends Sound s where
  started : announced s.listener → s.self.startedEvent = true
  closed : s.listener = .done → s.self.startedEvent = false
  spawned : s.creator = .wait → s.listener ≠ .idle

variable {s s' : ProcessRun}

theorem announced.not_done {l : ListenerPc} (h : announced l) : l ≠ .done := by
  rintro rfl
  exact h.elim

theorem announced.not_idle {l : ListenerPc} (h : announced l) : l ≠ .idle := by
  rintro rfl
  exact h.elim

theorem forked_told (h : Forked s) : Told s := by
  refine ⟨forked_sound h, ?_, ?_, ?_⟩
  · intro hl
    rw [h.listener] at hl
    exact hl.elim
  · intro _
    exact h.started
  · intro hc
    rw [h.creator] at hc
    cases hc

/-- What a step of another party than the listener does to the handshake. -/
structure Aside (s s' : ProcessRun) : Prop where
  event : s'.self.startedEvent = s.self.startedEvent
  listener : s'.listener = s.listener ∨ (s.listener = .idle ∧ s'.listener = .clear) ∨
    (announced s.listener ∧ announced s'.listener)
  creator : s'.creator = .wait → s.creator = .wait ∨ s'.listener = .clear

theorem Aside.same (event : s'.self.startedEvent = s.self.startedEvent)
    (listener : s'.listener = s.listener) (creator : s'.creator = s.creator) : Aside s s' :=
  ⟨event, Or.inl listener, fun hc => Or.inl (creator ▸ hc)⟩

theorem step_aside {e : ProcessEvent} (h : Sound s) (hs : s.step e = some s') (he : e ≠ .listen) :
    Aside s s' := by
  cases e with
  | childOut bytes | childErr bytes | childExit status | interrupted =>
    obtain ⟨_, hs⟩ := Option.ite_none_right_eq_some.mp hs
    cases hs
    exact .same rfl rfl rfl
  | handler =>
    simp only [ProcessRun.step, sigchldHandler] at hs
    split at hs
    · split at hs <;> cases hs <;> exact .same rfl rfl rfl
    · cases hs
      exact .same rfl rfl rfl
    all_goals cases hs
  | create =>
    simp only [ProcessRun.step, createStep] at hs
    split at hs
    · cases hs
      exact ⟨rfl, Or.inl rfl, by simp⟩
    · next hc =>
      cases hs
      exact ⟨rfl, Or.inr (Or.inl ⟨h.fresh (Or.inr hc), rfl⟩), fun _ => Or.inr rfl⟩
    · obtain ⟨_, hs⟩ := Option.ite_none_right_eq_some.mp hs
      cases hs
      exact ⟨rfl, Or.inl rfl, by simp⟩
    · cases hs
      exact ⟨rfl, Or.inl rfl, by simp⟩
    · cases hs
  | listen => exact absurd rfl he
  | readStdout count =>
    obtain ⟨err, hl, hr, ⟨hb, _⟩ | ⟨blocks, rest, _, rfl⟩⟩ := readOutStep_cases hs
    · exact absurd hb (readable_take hr (h.flagOut err hl))
    · exact ⟨rfl, Or.inr (Or.inr ⟨by rw [hl]; trivial, trivial⟩), Or.inl⟩
  | readStderr count =>
    obtain ⟨hl, hr, ⟨hb, _⟩ | ⟨blocks, rest, _, rfl⟩⟩ := readErrStep_cases hs
    · have hne := h.flagErr (by rw [hl]; exact rfl) (by rw [hl]; simp)
      exact absurd hb (readable_take hr hne)
    · exact ⟨rfl, Or.inr (Or.inr ⟨by rw [hl]; trivial, trivial⟩), Or.inl⟩

/-- What a step of the listener does to it. -/
inductive Listened (s s' : ProcessRun) : Prop where
  | clear (before : s.listener = .clear) (after : s'.listener = .signal)
  | signal (before : s.listener = .signal) (after : announced s'.listener)
      (event : s'.self.startedEvent = true)
  | loop (before : announced s.listener) (after : announced s'.listener)
      (event : s'.self.startedEvent = s.self.startedEvent) (open_ : s.listener ≠ .close)
  | close (before : s.listener = .close) (after : s'.listener = .done)
      (event : s'.self.startedEvent = false)

theorem listened (h : Sound s) (hs : listenStep s = some s') : Listened s s' := by
  unfold listenStep at hs
  split at hs
  case h_1 hl =>
    cases hs
    exact .clear hl rfl
  case h_2 hl =>
    cases hs
    exact .signal hl trivial rfl
  case h_3 hl =>
    cases hs
    refine .loop (by rw [hl]; trivial) ?_ rfl (by rw [hl]; simp)
    dsimp only
    split <;> trivial
  case h_7 hl => exact absurd hl h.sane
  case h_9 hl =>
    cases hs
    exact .close hl rfl rfl
  case h_4 hl | h_5 hl | h_6 hl | h_8 hl =>
    cases hs
    exact .loop (by rw [hl]; trivial) trivial rfl (by rw [hl]; simp)
  all_goals cases hs

theorem Told.aside (h : Told s) (ha : Aside s s') (hsound : Sound s') : Told s' := by
  refine ⟨hsound, ?_, ?_, ?_⟩
  · intro hl
    rw [ha.event]
    rcases ha.listener with hsame | ⟨_, hclear⟩ | ⟨hbefore, _⟩
    · exact h.started (hsame ▸ hl)
    · rw [hclear] at hl
      exact hl.elim
    · exact h.started hbefore
  · intro hl
    rw [ha.event]
    rcases ha.listener with hsame | ⟨_, hclear⟩ | ⟨_, hafter⟩
    · exact h.closed (hsame ▸ hl)
    · rw [hclear] at hl
      cases hl
    · exact absurd hl hafter.not_done
  · intro hc
    rcases ha.listener with hsame | ⟨_, hclear⟩ | ⟨_, hafter⟩
    · rw [hsame]
      rcases ha.creator hc with hwait | hclear
      · exact h.spawned hwait
      · rw [← hsame, hclear]
        simp
    · rw [hclear]
      simp
    · exact hafter.not_idle

theorem Told.listen (h : Told s) (hl : Listened s s') (hsound : Sound s') : Told s' := by
  cases hl with
  | clear before after =>
    exact ⟨hsound, by rw [after]; exact False.elim, by rw [after]; simp, by rw [after]; simp⟩
  | signal before after event =>
    exact ⟨hsound, fun _ => event, fun hd => absurd hd after.not_done, fun _ => after.not_idle⟩
  | loop before after event _ =>
    exact ⟨hsound, fun _ => event.trans (h.started before), fun hd => absurd hd after.not_done,
      fun _ => after.not_idle⟩
  | close before after event =>
    exact ⟨hsound, by rw [after]; exact False.elim, fun _ => event, by rw [after]; simp⟩

theorem Told.step (h : Told s) {e : ProcessEvent} (hs : s.step e = some s') : Told s' := by
  have hsound := h.toSound.step hs
  by_cases he : e = .listen
  · subst he
    exact h.listen (listened h.toSound hs) hsound
  · exact h.aside (step_aside h.toSound hs he) hsound

/-- The handshake fails where create waits for a listener that is done. -/
theorem Told.handshake_iff (h : Told s) :
    handshake s ↔ ¬ (s.creator = .wait ∧ s.listener = .done) := by
  unfold handshake
  constructor
  · rintro hh ⟨hc, hl⟩
    have hfalse := h.closed hl
    rcases hh hc with he | hi | hi | hi
    · rw [hfalse] at he
      cases he
    all_goals
      rw [hl] at hi
      cases hi
  · intro hn hc
    cases hl : s.listener with
    | idle => simp
    | clear => simp
    | signal => simp
    | done => exact absurd ⟨hc, hl⟩ hn
    | test | select | readOut _ _ | readErr _ | failed | finish | close =>
      exact Or.inl (h.started (by rw [hl]; trivial))

/-- A step keeps the handshake unless it closes the process under a waiting create. -/
theorem Told.handshake_step (h : Told s) (hh : handshake s) {e : ProcessEvent}
    (hs : s.step e = some s') : handshake s' ↔ closesLast s e := by
  rw [(h.step hs).handshake_iff]
  rw [h.handshake_iff] at hh
  by_cases he : e = .listen
  · subst he
    rw [(shift hs).creator_same (by simp)]
    cases listened h.toSound hs with
    | clear before after => simp [closesLast, before, after]
    | signal before after event =>
      refine iff_of_true (fun hd => after.not_done hd.2) ?_
      simp [closesLast, before]
    | loop before after event open_ =>
      refine iff_of_true (fun hd => after.not_done hd.2) ?_
      simp [closesLast, h.sane, open_]
    | close before after event =>
      simp [closesLast, before, after]
  · have ha := step_aside h.toSound hs he
    have hmeets : closesLast s e := by
      cases e <;> trivial
    refine iff_of_true ?_ hmeets
    rintro ⟨hc, hl⟩
    rcases ha.listener with hsame | ⟨_, hclear⟩ | ⟨_, hafter⟩
    · rcases ha.creator hc with hc | hclear
      · exact hh ⟨hc, hsame ▸ hl⟩
      · rw [hclear] at hl
        cases hl
    · rw [hclear] at hl
      cases hl
    · exact hafter.not_done hl

/-- Once create waits for a listener that is done no step gets it out. -/
theorem Told.stuck_step (h : Told s) (hc : s.creator = .wait) (hl : s.listener = .done)
    {e : ProcessEvent} (hs : s.step e = some s') : s'.creator = .wait ∧ s'.listener = .done := by
  have hcreate : e ≠ .create := by
    rintro rfl
    simp [ProcessRun.step, createStep, hc, h.closed hl] at hs
  have hlisten : e ≠ .listen := by
    rintro rfl
    simp [ProcessRun.step, listenStep, hl] at hs
  refine ⟨((shift hs).creator_same hcreate).trans hc, ?_⟩
  rcases (step_aside h.toSound hs hlisten).listener with hsame | ⟨hidle, _⟩ | ⟨hbefore, _⟩
  · exact hsame.trans hl
  · rw [hl] at hidle
    cases hidle
  · exact absurd hl hbefore.not_done

theorem Told.stuck (h : Told s) (hc : s.creator = .wait) (hl : s.listener = .done) :
    ¬ returns s := by
  rintro ⟨t, hleads, hreturned⟩
  have hkept : Told t ∧ t.creator = .wait ∧ t.listener = .done := by
    refine hleads.keeps (I := fun s => Told s ∧ s.creator = .wait ∧ s.listener = .done) ?_
      ⟨h, hc, hl⟩
    rintro s e s' ⟨hi, hc, hl⟩ hs
    exact ⟨hi.step hs, hi.stuck_step hc hl hs⟩
  rw [hkept.2.1] at hreturned
  cases hreturned

theorem returns_step {e : ProcessEvent} (hs : s.step e = some s') (h : returns s') : returns s := by
  obtain ⟨t, hleads, hreturned⟩ := h
  exact ⟨t, .head hs hleads, hreturned⟩

theorem returns_reset (hc : s.creator = .reset) : returns s := by
  have hs : s.step .create = some { s with
      self := { s.self with exitCode := 0 }, creator := .returned } := by
    simp only [ProcessRun.step, createStep, hc]
  exact returns_step hs ⟨_, .refl _, rfl⟩

theorem returns_started (hc : s.creator = .wait) (he : s.self.startedEvent = true) :
    returns s := by
  have hs : s.step .create = some { s with creator := .reset } := by
    simp only [ProcessRun.step, createStep, hc, he, if_true]
  exact returns_step hs (returns_reset rfl)

theorem returns_signal (hc : s.creator = .wait) (hl : s.listener = .signal) : returns s := by
  have hs : s.step .listen = some { s with
      self := { s.self with startedEvent := true }, listener := .test } := by
    simp only [ProcessRun.step, listenStep, hl]
  exact returns_step hs (returns_started hc rfl)

theorem returns_clear (hc : s.creator = .wait) (hl : s.listener = .clear) : returns s := by
  have hs : s.step .listen = some { s with
      self := { s.self with blockBufferOut := [], blockBufferErr := [] }
      listener := .signal } := by
    simp only [ProcessRun.step, listenStep, hl]
  exact returns_step hs (returns_signal hc rfl)

theorem returns_spawn (hc : s.creator = .spawn) : returns s := by
  have hs : s.step .create = some { s with listener := .clear, creator := .wait } := by
    simp only [ProcessRun.step, createStep, hc]
  exact returns_step hs (returns_clear rfl rfl)

theorem returns_register (hc : s.creator = .register) : returns s := by
  have hs : s.step .create = some { s with registered := true, creator := .spawn } := by
    simp only [ProcessRun.step, createStep, hc]
  exact returns_step hs (returns_spawn rfl)

/-- Create can still return just when the handshake holds. -/
theorem Told.returns_iff (h : Told s) : returns s ↔ handshake s := by
  constructor
  · intro hreturns
    rw [h.handshake_iff]
    rintro ⟨hc, hl⟩
    exact h.stuck hc hl hreturns
  · intro hh
    cases hc : s.creator with
    | register => exact returns_register hc
    | spawn => exact returns_spawn hc
    | wait =>
      rcases hh hc with he | hidle | hclear | hsignal
      · exact returns_started hc he
      · exact absurd hidle (h.spawned hc)
      · exact returns_clear hc hclear
      · exact returns_signal hc hsignal
    | reset => exact returns_reset hc
    | returned => exact ⟨s, .refl s, hc⟩

/-- In any run create finds the start whenever it waits for it, or the listener
is still to signal it, if and only if the listener always closes the process
when create no longer waits. Otherwise create never returns. -/
theorem start_never_missed_iff {past : List (ProcessRun × ProcessEvent)} (h : system.Run past s) :
    (((∀ p ∈ past, handshake p.1) ∧ handshake s) ↔ ∀ p ∈ past, closesLast p.1 p.2) ∧
      (returns s ↔ handshake s) := by
  have htold : Told s := h.invariant (fun _ => forked_told) (fun _ _ _ hi hs => hi.step hs)
  refine ⟨?_, htold.returns_iff⟩
  refine h.all_iff_of (I := Told) ?_ (fun _ _ _ hi hs => hi.step hs)
    (fun _ _ _ hi hh hs => hi.handshake_step hh hs)
  intro s hf
  refine ⟨forked_told hf, ?_⟩
  intro hc
  rw [hf.creator] at hc
  cases hc

/-- A child that exits once create has found the start. -/
theorem start_never_missed_iff_slow :
    ∃ past s, system.Run past s ∧ s.creator = .returned ∧
      (((∀ p ∈ past, handshake p.1) ∧ handshake s) ↔ ∀ p ∈ past, closesLast p.1 p.2) ∧
      (returns s ↔ handshake s) := by
  have hslow : ∃ past s, follow step [] (forked [10, 13]) [.create, .create, .listen, .listen,
      .create, .create, .childExit (some 0), .handler, .handler, .listen, .listen, .listen] =
      some (past, s) ∧ s.creator = .returned := ⟨_, _, rfl, rfl⟩
  obtain ⟨past, s, hfollow, hreturned⟩ := hslow
  have hrun : system.Run past s := (System.Run.start (forked_forked [10, 13])).follow hfollow
  exact ⟨past, s, hrun, hreturned, start_never_missed_iff hrun⟩

/-- A child that exits before create looks: the listener signals the start and
takes it back. -/
theorem fast_exit_blocks_create :
    ∃ past s, system.Run past s ∧ s.creator = .wait ∧ s.listener = .done ∧
      s.self.startedEvent = false ∧ createStep s = none ∧ ¬ handshake s := by
  have hfast : ∃ past s, follow step [] (forked [10, 13]) [.create, .childExit (some 0), .handler,
      .handler, .create, .listen, .listen, .listen, .listen, .listen] = some (past, s) ∧
      s.creator = .wait ∧ s.listener = .done ∧ s.self.startedEvent = false ∧
      createStep s = none := ⟨_, _, rfl, rfl, rfl, rfl, rfl⟩
  obtain ⟨past, s, hfollow, hc, hl, he, hnone⟩ := hfast
  have hrun : system.Run past s := (System.Run.start (forked_forked [10, 13])).follow hfollow
  refine ⟨past, s, hrun, hc, hl, he, hnone, ?_⟩
  intro hh
  have := hh hc
  simp [hl, he] at this

end CkCore.Proofs.ProcessStart
