import CkCore.Proofs.ProcessSteps

namespace CkCore.Proofs.ProcessOutput
open Lib ProcessRun ProcessSteps

/-- The listener still reads standard output in the pass it is in. -/
def readsOut : ListenerPc → Prop
  | .select => True
  | .readOut out _ => out = true
  | _ => False

def readsErr : ListenerPc → Prop
  | .select => True
  | .readOut _ err => err = true
  | .readErr err => err = true
  | _ => False

/-- No pipe holds bytes the pass under way will not read. -/
def ahead (s : ProcessRun) : Prop :=
  (s.self.pipeStdout = [] ∨ readsOut s.listener) ∧ (s.self.pipeStderr = [] ∨ readsErr s.listener)

/-- The handler stops the process no earlier than in the last pass that is
needed, and the reads of that pass leave nothing behind. -/
def inTime (s : ProcessRun) : ProcessEvent → Prop
  | .handler => (∃ status, s.child = .exited status) → s.registered = true → ahead s
  | .readStdout count => s.self.state = .stopped → s.self.pipeStdout.length ≤ count
  | .readStderr count => s.self.state = .stopped → s.self.pipeStderr.length ≤ count
  | _ => True

/-- Every byte the child wrote has been read. -/
def complete (s : ProcessRun) : Prop := s.gotOut = s.wroteOut ∧ s.gotErr = s.wroteErr

/-- What every run keeps. Once close has discarded them the pipes say nothing
about what was read. -/
structure Sound (s : ProcessRun) : Prop where
  out : s.listener ≠ .done → s.wroteOut = s.gotOut ++ s.self.pipeStdout
  err : s.listener ≠ .done → s.wroteErr = s.gotErr ++ s.self.pipeStderr
  flagOut : ∀ e, s.listener = .readOut true e → s.self.pipeStdout ≠ []
  flagErr : readsErr s.listener → s.listener ≠ .select → s.self.pipeStderr ≠ []
  dead : s.self.state = .stopped → s.child ≠ .alive
  ended : s.listener = .finish ∨ s.listener = .close ∨ s.listener = .done → s.self.state = .stopped
  sane : s.listener ≠ .failed
  fresh : s.creator = .register ∨ s.creator = .spawn → s.listener = .idle

theorem forked_sound {s : ProcessRun} (h : Forked s) : Sound s := by
  obtain ⟨ho, he, hgo, hge, _⟩ := h.record
  refine ⟨?_, ?_, ?_, ?_, ?_, ?_, ?_, fun _ => h.listener⟩
  · intro _
    rw [ho, hgo, h.pipes.1]
    rfl
  · intro _
    rw [he, hge, h.pipes.2]
    rfl
  · intro e hl
    rw [h.listener] at hl
    cases hl
  · intro hr
    rw [h.listener] at hr
    exact hr.elim
  · intro hs
    rw [h.state] at hs
    cases hs
  · intro hl
    rw [h.listener] at hl
    simp at hl
  · rw [h.listener]
    simp

/-- A read of a pipe that holds something returns something. -/
theorem readable_take {pipe : List Byte} {count : Nat} (h : readable pipe count)
    (hp : pipe ≠ []) : pipe.take count ≠ [] := by
  have hc := h.2 hp
  intro ht
  rcases List.take_eq_nil_iff.mp ht with h0 | h0
  · omega
  · exact hp h0

section
variable {s s' : ProcessRun}

theorem Sound.readOut (h : Sound s) {count : Nat} (hs : readOutStep s count = some s') :
    Sound s' := by
  obtain ⟨err, hl, hr, ⟨hb, _⟩ | ⟨blocks, rest, _, rfl⟩⟩ := readOutStep_cases hs
  · exact absurd hb (readable_take hr (h.flagOut err hl))
  · have hopen : s.listener ≠ .done := by rw [hl]; simp
    refine ⟨?_, ?_, ?_, ?_, h.dead, ?_, ?_, ?_⟩
    · intro _
      simpa using h.out hopen
    · intro _
      exact h.err hopen
    · intro e he
      cases he
    · intro he _
      exact h.flagErr (by rw [hl]; exact he) (by rw [hl]; simp)
    · intro he
      simp at he
    · simp
    · intro hc
      have := h.fresh hc
      rw [hl] at this
      cases this

theorem Sound.readErr (h : Sound s) {count : Nat} (hs : readErrStep s count = some s') :
    Sound s' := by
  obtain ⟨hl, hr, ⟨hb, _⟩ | ⟨blocks, rest, _, rfl⟩⟩ := readErrStep_cases hs
  · have hne := h.flagErr (by rw [hl]; exact rfl) (by rw [hl]; simp)
    exact absurd hb (readable_take hr hne)
  · have hopen : s.listener ≠ .done := by rw [hl]; simp
    refine ⟨?_, ?_, ?_, ?_, h.dead, ?_, ?_, ?_⟩
    · intro _
      exact h.out hopen
    · intro _
      simpa using h.err hopen
    · intro e he
      cases he
    · intro he
      exact he.elim
    · intro he
      simp at he
    · simp
    · intro hc
      have := h.fresh hc
      rw [hl] at this
      cases this

theorem Sound.childOut (h : Sound s) (bytes : List Byte) :
    Sound { s with
      self := { s.self with pipeStdout := s.self.pipeStdout ++ bytes }
      wroteOut := s.wroteOut ++ bytes } := by
  refine ⟨?_, h.err, ?_, h.flagErr, h.dead, h.ended, h.sane, h.fresh⟩
  · intro hopen
    simp only [h.out hopen, List.append_assoc]
  · intro e he hnil
    exact h.flagOut e he (List.append_eq_nil_iff.mp hnil).1

theorem Sound.childErr (h : Sound s) (bytes : List Byte) :
    Sound { s with
      self := { s.self with pipeStderr := s.self.pipeStderr ++ bytes }
      wroteErr := s.wroteErr ++ bytes } := by
  refine ⟨h.out, ?_, h.flagOut, ?_, h.dead, h.ended, h.sane, h.fresh⟩
  · intro hopen
    simp only [h.err hopen, List.append_assoc]
  · intro he hsel hnil
    exact h.flagErr he hsel (List.append_eq_nil_iff.mp hnil).1

theorem Sound.handler (h : Sound s) (hs : sigchldHandler s = some s') : Sound s' := by
  unfold sigchldHandler at hs
  split at hs
  · split at hs
    · cases hs
      exact ⟨h.out, h.err, h.flagOut, h.flagErr, by simp, fun _ => rfl, h.sane, h.fresh⟩
    · cases hs
      exact ⟨h.out, h.err, h.flagOut, h.flagErr, by simp, h.ended, h.sane, h.fresh⟩
  · cases hs
    exact ⟨h.out, h.err, h.flagOut, h.flagErr, by simp, h.ended, h.sane, h.fresh⟩
  all_goals cases hs

theorem Sound.create (h : Sound s) (hs : createStep s = some s') : Sound s' := by
  unfold createStep at hs
  split at hs
  · next hc =>
    cases hs
    exact ⟨h.out, h.err, h.flagOut, h.flagErr, h.dead, h.ended, h.sane,
      fun _ => h.fresh (Or.inl hc)⟩
  · next hc =>
    cases hs
    have hidle := h.fresh (Or.inr hc)
    have hopen : s.listener ≠ .done := by rw [hidle]; simp
    refine ⟨fun _ => h.out hopen, fun _ => h.err hopen, ?_, ?_, h.dead, ?_, ?_, ?_⟩
    · intro e he
      cases he
    · intro he
      exact he.elim
    · intro he
      simp at he
    · simp
    · intro he
      simp at he
  · split at hs
    · cases hs
      exact ⟨h.out, h.err, h.flagOut, h.flagErr, h.dead, h.ended, h.sane, by simp⟩
    · cases hs
  · cases hs
    exact ⟨h.out, h.err, h.flagOut, h.flagErr, h.dead, h.ended, h.sane, by simp⟩
  · cases hs

/-- The listener goes on to `l` without touching the pipes. -/
theorem Sound.move (h : Sound s) {l : ListenerPc} {self : Process}
    (hstart : s.listener ≠ .idle) (hopen : s.listener ≠ .done)
    (hself : self.pipeStdout = s.self.pipeStdout ∧ self.pipeStderr = s.self.pipeStderr ∧
      self.state = s.self.state)
    (hout : ∀ e, l = .readOut true e → s.self.pipeStdout ≠ [])
    (herr : readsErr l → l ≠ .select → s.self.pipeStderr ≠ [])
    (hover : l = .finish ∨ l = .close ∨ l = .done → s.self.state = .stopped)
    (hsane : l ≠ .failed) : Sound { s with self := self, listener := l } := by
  obtain ⟨ho, he, hst⟩ := hself
  refine ⟨?_, ?_, ?_, ?_, ?_, ?_, hsane, ?_⟩
  · intro _
    simp only [ho, h.out hopen]
  · intro _
    simp only [he, h.err hopen]
  · simp only [ho]
    exact hout
  · simp only [he]
    exact herr
  · simp only [hst]
    exact h.dead
  · simp only [hst]
    exact hover
  · intro hc
    exact absurd (h.fresh hc) hstart

theorem Sound.listen (h : Sound s) (hs : listenStep s = some s') : Sound s' := by
  unfold listenStep at hs
  split at hs
  · next hl =>
    cases hs
    exact h.move (by simp [hl]) (by simp [hl]) ⟨rfl, rfl, rfl⟩ (by simp) (by simp [readsErr])
      (by simp) (by simp)
  · next hl =>
    cases hs
    exact h.move (by simp [hl]) (by simp [hl]) ⟨rfl, rfl, rfl⟩ (by simp) (by simp [readsErr])
      (by simp) (by simp)
  · next hl =>
    cases hs
    cases hst : s.self.state with
    | running =>
      exact h.move (by simp [hl]) (by simp [hl]) ⟨rfl, rfl, rfl⟩ (by simp) (by simp) (by simp)
        (by simp)
    | stopped =>
      exact h.move (by simp [hl]) (by simp [hl]) ⟨rfl, rfl, rfl⟩ (by simp) (by simp [readsErr])
        (fun _ => hst) (by simp)
  · next hl =>
    cases hs
    have hout : ∀ e, ListenerPc.readOut (s.self.pipeStdout ≠ []) (s.self.pipeStderr ≠ []) =
        .readOut true e → s.self.pipeStdout ≠ [] := by
      intro e he
      injection he with he _
      exact of_decide_eq_true he
    exact h.move (by simp [hl]) (by simp [hl]) ⟨rfl, rfl, rfl⟩ hout (by simp [readsErr])
      (by simp) (by simp)
  · next err hl =>
    cases hs
    have herr : readsErr (.readErr err) → s.self.pipeStderr ≠ [] := by
      intro he
      exact h.flagErr (by rw [hl]; exact he) (by simp [hl])
    exact h.move (by simp [hl]) (by simp [hl]) ⟨rfl, rfl, rfl⟩ (by simp) (fun he _ => herr he)
      (by simp) (by simp)
  · next hl =>
    cases hs
    exact h.move (by simp [hl]) (by simp [hl]) ⟨rfl, rfl, rfl⟩ (by simp) (by simp [readsErr])
      (by simp) (by simp)
  · next hl => exact absurd hl h.sane
  · next hl =>
    cases hs
    exact h.move (by simp [hl]) (by simp [hl]) ⟨rfl, rfl, rfl⟩ (by simp) (by simp [readsErr])
      (fun _ => h.ended (Or.inl hl)) (by simp)
  · next hl =>
    cases hs
    have hdead := h.dead (h.ended (Or.inr (Or.inl hl)))
    have hfresh : ¬ (s.creator = .register ∨ s.creator = .spawn) := by
      intro hc
      have := h.fresh hc
      rw [hl] at this
      cases this
    exact ⟨by simp, by simp, by simp, by simp [readsErr], fun _ => hdead, fun _ => rfl, by simp,
      fun hc => absurd hc hfresh⟩
  all_goals cases hs

/-- Every step of every party keeps the invariant. -/
theorem Sound.step (h : Sound s) {e : ProcessEvent} (hs : s.step e = some s') : Sound s' := by
  cases e with
  | childOut bytes =>
    obtain ⟨_, hs⟩ := Option.ite_none_right_eq_some.mp hs
    cases hs
    exact h.childOut bytes
  | childErr bytes =>
    obtain ⟨_, hs⟩ := Option.ite_none_right_eq_some.mp hs
    cases hs
    exact h.childErr bytes
  | childExit status =>
    obtain ⟨_, hs⟩ := Option.ite_none_right_eq_some.mp hs
    cases hs
    exact ⟨h.out, h.err, h.flagOut, h.flagErr, by simp, h.ended, h.sane, h.fresh⟩
  | handler => exact h.handler hs
  | create => exact h.create hs
  | listen => exact h.listen hs
  | interrupted =>
    obtain ⟨_, hs⟩ := Option.ite_none_right_eq_some.mp hs
    cases hs
    exact h
  | readStdout count => exact h.readOut hs
  | readStderr count => exact h.readErr hs

/-- A closed run stays closed. -/
theorem Sound.open_before (h : Sound s) {e : ProcessEvent} (hs : s.step e = some s')
    (hopen : s'.listener ≠ .done) : s.listener ≠ .done := by
  intro hl
  have hkeep : s'.listener = s.listener := by
    cases e with
    | childOut bytes | childErr bytes | childExit status | interrupted =>
      obtain ⟨_, hs⟩ := Option.ite_none_right_eq_some.mp hs
      cases hs
      rfl
    | handler =>
      simp only [ProcessRun.step, sigchldHandler] at hs
      split at hs
      · split at hs <;> cases hs <;> rfl
      · cases hs
        rfl
      all_goals cases hs
    | create =>
      simp only [ProcessRun.step, createStep] at hs
      split at hs
      · cases hs
        rfl
      · next hc =>
        have := h.fresh (Or.inr hc)
        rw [hl] at this
        cases this
      · obtain ⟨_, hs⟩ := Option.ite_none_right_eq_some.mp hs
        cases hs
        rfl
      · cases hs
        rfl
      · cases hs
    | listen => simp [ProcessRun.step, listenStep, hl] at hs
    | readStdout count => simp [ProcessRun.step, readOutStep, hl] at hs
    | readStderr count => simp [ProcessRun.step, readErrStep, hl] at hs
  exact hopen (hkeep.trans hl)

/-- What a step does to the bytes ahead. While the process runs nothing is
decided; the step that stops it decides, and so does each read after it. -/
structure Decided (s s' : ProcessRun) (e : ProcessEvent) : Prop where
  running : s'.self.state = .running → s.self.state = .running ∧ inTime s e
  stopped : s'.self.state = .stopped →
    (ahead s' ↔ (s.self.state = .stopped → ahead s) ∧ inTime s e)

/-- A step that changes neither the state nor what is ahead and may come at any
time. -/
theorem Decided.same {e : ProcessEvent} (hstate : s'.self.state = s.self.state)
    (hahead : s.self.state = .stopped → (ahead s' ↔ ahead s)) (htime : inTime s e) :
    Decided s s' e := by
  refine ⟨fun hr => ⟨hstate.symm.trans hr, htime⟩, ?_⟩
  intro hst
  have hst' : s.self.state = .stopped := hstate.symm.trans hst
  rw [hahead hst']
  exact ⟨fun ha => ⟨fun _ => ha, htime⟩, fun ha => ha.1 hst'⟩

/-- A step that only moves one party between points where no read is pending. -/
theorem ahead_iff {t : ProcessRun} (hout : t.self.pipeStdout = s.self.pipeStdout)
    (herr : t.self.pipeStderr = s.self.pipeStderr)
    (hro : readsOut t.listener ↔ readsOut s.listener)
    (hre : readsErr t.listener ↔ readsErr s.listener) : ahead t ↔ ahead s := by
  unfold ahead
  rw [hout, herr, hro, hre]

theorem decided_handler (hs : sigchldHandler s = some s') : Decided s s' .handler := by
  unfold sigchldHandler at hs
  split at hs
  · next status hc =>
    split at hs
    · next hreg =>
      cases hs
      refine ⟨by simp, ?_⟩
      intro _
      refine (ahead_iff (s := s) rfl rfl Iff.rfl Iff.rfl).trans ?_
      exact ⟨fun ha => ⟨fun _ => ha, fun _ _ => ha⟩, fun ha => ha.2 ⟨status, hc⟩ hreg⟩
    · next hreg =>
      cases hs
      exact .same rfl (fun _ => ahead_iff rfl rfl Iff.rfl Iff.rfl)
        (fun _ hr => absurd hr hreg)
  · next status hc =>
    cases hs
    refine .same rfl (fun _ => ahead_iff rfl rfl Iff.rfl Iff.rfl) ?_
    rintro ⟨_, hc'⟩
    rw [hc] at hc'
    cases hc'
  all_goals cases hs

theorem Sound.decided_create (h : Sound s) (hs : createStep s = some s') :
    Decided s s' .create := by
  unfold createStep at hs
  split at hs
  · cases hs
    exact .same rfl (fun _ => ahead_iff rfl rfl Iff.rfl Iff.rfl) trivial
  · next hc =>
    cases hs
    have hidle := h.fresh (Or.inr hc)
    refine .same rfl (fun _ => ahead_iff rfl rfl ?_ ?_) trivial
    · rw [hidle]
      exact Iff.rfl
    · rw [hidle]
      exact Iff.rfl
  · obtain ⟨_, hs⟩ := Option.ite_none_right_eq_some.mp hs
    cases hs
    exact .same rfl (fun _ => ahead_iff rfl rfl Iff.rfl Iff.rfl) trivial
  · cases hs
    exact .same rfl (fun _ => ahead_iff rfl rfl Iff.rfl Iff.rfl) trivial
  · cases hs

theorem Sound.decided_listen (h : Sound s) (hs : listenStep s = some s')
    (hopen : s'.listener ≠ .done) : Decided s s' .listen := by
  unfold listenStep at hs
  split at hs
  case h_3 hl =>
    cases hs
    refine .same rfl ?_ trivial
    intro hst
    exact ahead_iff rfl rfl (by simp [hl, hst, readsOut]) (by simp [hl, hst, readsErr])
  case h_4 hl =>
    cases hs
    refine .same rfl ?_ trivial
    intro _
    have hbefore : ahead s := by simp [ahead, hl, readsOut, readsErr]
    have hafter : ahead { s with
        listener := .readOut (s.self.pipeStdout ≠ []) (s.self.pipeStderr ≠ []) } := by
      simp only [ahead, readsOut, readsErr, decide_eq_true_eq]
      exact ⟨Classical.em _, Classical.em _⟩
    exact ⟨fun _ => hbefore, fun _ => hafter⟩
  case h_7 hl => exact absurd hl h.sane
  case h_9 hl =>
    cases hs
    exact absurd rfl hopen
  case h_1 hl | h_2 hl | h_5 hl | h_6 hl | h_8 hl =>
    cases hs
    exact .same rfl (fun _ => ahead_iff rfl rfl (by simp [hl, readsOut]) (by simp [hl, readsErr]))
      trivial
  all_goals cases hs

theorem running_inTime (hrun : s.self.state = .running) (count : Nat) :
    inTime s (.readStdout count) ∧ inTime s (.readStderr count) := by
  simp [inTime, hrun]

theorem Sound.decided_readOut (h : Sound s) {count : Nat} (hs : readOutStep s count = some s') :
    Decided s s' (.readStdout count) := by
  obtain ⟨err, hl, hr, ⟨hb, _⟩ | ⟨blocks, rest, _, rfl⟩⟩ := readOutStep_cases hs
  · exact absurd hb (readable_take hr (h.flagOut err hl))
  · constructor
    · intro hrun
      have hbefore : s.self.state = .running := hrun
      exact ⟨hbefore, (running_inTime hbefore count).1⟩
    · intro hst
      have hstop : s.self.state = .stopped := hst
      simp only [ahead, hl, readsOut, readsErr, inTime, hstop, List.drop_eq_nil_iff, forall_const,
        or_false, or_true, true_and]
      exact And.comm

theorem Sound.decided_readErr (h : Sound s) {count : Nat} (hs : readErrStep s count = some s') :
    Decided s s' (.readStderr count) := by
  obtain ⟨hl, hr, ⟨hb, _⟩ | ⟨blocks, rest, _, rfl⟩⟩ := readErrStep_cases hs
  · have hne := h.flagErr (by rw [hl]; exact rfl) (by rw [hl]; simp)
    exact absurd hb (readable_take hr hne)
  · constructor
    · intro hrun
      have hbefore : s.self.state = .running := hrun
      exact ⟨hbefore, (running_inTime hbefore count).2⟩
    · intro hst
      have hstop : s.self.state = .stopped := hst
      simp only [ahead, hl, readsOut, readsErr, inTime, hstop, List.drop_eq_nil_iff, forall_const,
        or_false, or_true, and_true]

theorem Sound.decided (h : Sound s) {e : ProcessEvent} (hs : s.step e = some s')
    (hopen : s'.listener ≠ .done) : Decided s s' e := by
  have hrunning : s.child = .alive → ¬ s.self.state = .stopped := fun hc hst => h.dead hst hc
  cases e with
  | childOut bytes | childErr bytes =>
    obtain ⟨hc, hs⟩ := Option.ite_none_right_eq_some.mp hs
    cases hs
    exact .same rfl (fun hst => absurd hst (hrunning hc)) trivial
  | childExit status =>
    obtain ⟨hc, hs⟩ := Option.ite_none_right_eq_some.mp hs
    cases hs
    exact .same rfl (fun hst => absurd hst (hrunning hc)) trivial
  | handler => exact decided_handler hs
  | create => exact h.decided_create hs
  | listen => exact h.decided_listen hs hopen
  | interrupted =>
    obtain ⟨_, hs⟩ := Option.ite_none_right_eq_some.mp hs
    cases hs
    exact .same rfl (fun _ => Iff.rfl) trivial
  | readStdout count => exact h.decided_readOut hs
  | readStderr count => exact h.decided_readErr hs

/-- What has happened so far, read off the state: while the process runs every
step came in time, and once it is stopped the steps did so just when nothing is
left that will not be read. -/
structure Tracked (past : List (ProcessRun × ProcessEvent)) (s : ProcessRun) : Prop where
  running : s.self.state = .running → ∀ p ∈ past, inTime p.1 p.2
  stopped : s.self.state = .stopped → (ahead s ↔ ∀ p ∈ past, inTime p.1 p.2)

theorem met_append {past : List (ProcessRun × ProcessEvent)} {e : ProcessEvent} :
    (∀ p ∈ past ++ [(s, e)], inTime p.1 p.2) ↔ (∀ p ∈ past, inTime p.1 p.2) ∧ inTime s e := by
  simp only [List.forall_mem_append, List.forall_mem_singleton]

theorem Tracked.next {past : List (ProcessRun × ProcessEvent)} {e : ProcessEvent}
    (h : Tracked past s) (hd : Decided s s' e) : Tracked (past ++ [(s, e)]) s' := by
  constructor
  · intro hrun
    obtain ⟨hr, ht⟩ := hd.running hrun
    exact met_append.mpr ⟨h.running hr, ht⟩
  · intro hst
    rw [hd.stopped hst, met_append]
    cases hs : s.self.state with
    | running => exact ⟨fun ha => ⟨h.running hs, ha.2⟩, fun ha => ⟨by simp, ha.2⟩⟩
    | stopped =>
      rw [h.stopped hs]
      exact ⟨fun ha => ⟨ha.1 rfl, ha.2⟩, fun ha => ⟨fun _ => ha.1, ha.2⟩⟩

theorem run_sound {past : List (ProcessRun × ProcessEvent)} (h : system.Run past s) :
    Sound s ∧ (s.listener ≠ .done → Tracked past s) := by
  induction h with
  | start h =>
    refine ⟨forked_sound h, fun _ => ⟨fun _ p hp => absurd hp (by simp), ?_⟩⟩
    intro hst
    rw [h.state] at hst
    cases hst
  | next before hs ih =>
    refine ⟨ih.1.step hs, ?_⟩
    intro hopen
    exact (ih.2 (ih.1.open_before hs hopen)).next (ih.1.decided hs hopen)

/-- When event_finished is called nothing is ahead just when everything the
child wrote has been read. -/
theorem Sound.complete_iff (h : Sound s) (hf : s.listener = .finish) : complete s ↔ ahead s := by
  have hopen : s.listener ≠ .done := by rw [hf]; simp
  simp only [complete, ahead, h.out hopen, h.err hopen, hf, readsOut, readsErr, or_false,
    List.self_eq_append_right]

/-- In any run, when event_finished is called all output has been read just when
every step of the run came in time. -/
theorem all_read_iff {past : List (ProcessRun × ProcessEvent)} (h : system.Run past s)
    (hf : s.listener = .finish) : complete s ↔ ∀ p ∈ past, inTime p.1 p.2 := by
  obtain ⟨hsound, htracked⟩ := run_sound h
  have hopen : s.listener ≠ .done := by rw [hf]; simp
  rw [hsound.complete_iff hf]
  exact (htracked hopen).stopped (hsound.ended (Or.inl hf))

/-- A child that writes a line and exits while the listener is in select. -/
theorem all_read_iff_line :
    ∃ past s, system.Run past s ∧ s.listener = .finish ∧
      (complete s ↔ ∀ p ∈ past, inTime p.1 p.2) := by
  have hline : ∃ past s, follow step [] (forked [10, 13]) [.create, .create, .listen, .listen,
      .childOut [72, 105, 10], .childExit (some 0), .listen, .handler, .listen, .readStdout 3,
      .listen, .listen] = some (past, s) ∧ s.listener = .finish := ⟨_, _, rfl, rfl⟩
  obtain ⟨past, s, hfollow, hf⟩ := hline
  have hrun : system.Run past s := (System.Run.start (forked_forked [10, 13])).follow hfollow
  exact ⟨past, s, hrun, hf, all_read_iff hrun hf⟩

/-- A child that writes and exits before the listener tests the state is not
read at all. -/
theorem early_exit_loses_output :
    ∃ past s, system.Run past s ∧ s.listener = .finish ∧ s.self.pipeStdout = [72, 105, 10] ∧
      s.wroteOut = [72, 105, 10] ∧ s.gotOut = [] ∧ ¬ complete s := by
  have hexit : ∃ past s, follow step [] (forked [10, 13]) [.create, .create, .listen, .listen,
      .childOut [72, 105, 10], .childExit (some 0), .handler, .listen] = some (past, s) ∧
      s.listener = .finish ∧ s.self.pipeStdout = [72, 105, 10] ∧ s.wroteOut = [72, 105, 10] ∧
      s.gotOut = [] ∧ ¬ s.gotOut = s.wroteOut := ⟨_, _, rfl, rfl, rfl, rfl, rfl, by decide⟩
  obtain ⟨past, s, hfollow, hf, hpipe, hwrote, hgot, hlost⟩ := hexit
  have hrun : system.Run past s := (System.Run.start (forked_forked [10, 13])).follow hfollow
  exact ⟨past, s, hrun, hf, hpipe, hwrote, hgot, fun h => hlost h.1⟩

end
end CkCore.Proofs.ProcessOutput
