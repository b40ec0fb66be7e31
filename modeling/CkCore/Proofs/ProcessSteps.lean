import CkCore.Model.Process

namespace CkCore.Proofs.ProcessSteps
open Lib ProcessRun

/-- All a read of standard output can do: bytes move from the pipe to the
record, or the read fails on an empty pipe. -/
theorem readOutStep_cases {s s' : ProcessRun} {count : Nat} (h : readOutStep s count = some s') :
    ∃ err, s.listener = .readOut true err ∧ readable s.self.pipeStdout count ∧
      ((s.self.pipeStdout.take count = [] ∧ s' = { s with listener := .failed }) ∨
      ∃ blocks rest, (s.self.pipeStdout.take count ≠ [] ∧
          Process.split s.self.blockDelims s.self.blockBufferOut (s.self.pipeStdout.take count) =
            (blocks, rest)) ∧ s' = { s with
        self := { s.self with blockBufferOut := rest, pipeStdout := s.self.pipeStdout.drop count }
        listener := .readErr err
        gotOut := s.gotOut ++ s.self.pipeStdout.take count
        output := s.output ++ s.self.reported blocks }) := by
  unfold readOutStep at h
  split at h
  · next err hl =>
    split at h
    · next hr =>
      refine ⟨err, hl, hr, ?_⟩
      by_cases hb : s.self.pipeStdout.take count = []
      · simp only [Process.readStdout, hb, ↓reduceIte, Option.some.injEq] at h
        exact Or.inl ⟨hb, h.symm⟩
      · simp only [Process.readStdout, hb, ↓reduceIte, Option.some.injEq] at h
        exact Or.inr ⟨_, _, ⟨hb, rfl⟩, h.symm⟩
    · cases h
  · cases h

theorem readErrStep_cases {s s' : ProcessRun} {count : Nat} (h : readErrStep s count = some s') :
    s.listener = .readErr true ∧ readable s.self.pipeStderr count ∧
      ((s.self.pipeStderr.take count = [] ∧ s' = { s with listener := .failed }) ∨
      ∃ blocks rest, (s.self.pipeStderr.take count ≠ [] ∧
          Process.split s.self.blockDelims s.self.blockBufferErr (s.self.pipeStderr.take count) =
            (blocks, rest)) ∧ s' = { s with
        self := { s.self with blockBufferErr := rest, pipeStderr := s.self.pipeStderr.drop count }
        listener := .test
        gotErr := s.gotErr ++ s.self.pipeStderr.take count
        output := s.output ++ s.self.reported blocks }) := by
  unfold readErrStep at h
  split at h
  · next hl =>
    split at h
    · next hr =>
      refine ⟨hl, hr, ?_⟩
      by_cases hb : s.self.pipeStderr.take count = []
      · simp only [Process.readStderr, hb, ↓reduceIte, Option.some.injEq] at h
        exact Or.inl ⟨hb, h.symm⟩
      · simp only [Process.readStderr, hb, ↓reduceIte, Option.some.injEq] at h
        exact Or.inr ⟨_, _, ⟨hb, rfl⟩, h.symm⟩
    · cases h
  · cases h

/-- What a step does to the child, to create and to the exit code. -/
inductive Shift (s s' : ProcessRun) : ProcessEvent → Prop where
  | exit (status : ExitStatus) (before : s.child = .alive) (after : s'.child = .exited status)
      (creator : s'.creator = s.creator) (code : s'.self.exitCode = s.self.exitCode) :
      Shift s s' (.childExit status)
  | stop (status : ExitStatus) (before : s.child = .exited status)
      (after : s'.child = .stopped status ∨ s'.child = .reaped)
      (creator : s'.creator = s.creator) (code : s'.self.exitCode = s.self.exitCode) :
      Shift s s' .handler
  | record (status : ExitStatus) (before : s.child = .stopped status) (after : s'.child = .reaped)
      (creator : s'.creator = s.creator) (code : s'.self.exitCode = status.getD s.self.exitCode) :
      Shift s s' .handler
  | create (busy : s.creator ≠ .returned) (child : s'.child = s.child)
      (clears : s'.creator = .returned → s'.self.exitCode = 0) : Shift s s' .create
  | other (e : ProcessEvent) (noExit : ∀ status, e ≠ .childExit status) (noHandler : e ≠ .handler)
      (child : s'.child = s.child) (creator : s'.creator = s.creator)
      (code : s'.self.exitCode = s.self.exitCode) : Shift s s' e

variable {s s' : ProcessRun}

theorem shift_handler (hs : sigchldHandler s = some s') : Shift s s' .handler := by
  unfold sigchldHandler at hs
  split at hs
  · next status hc =>
    split at hs
    · cases hs
      exact .stop status hc (Or.inl rfl) rfl rfl
    · cases hs
      exact .stop status hc (Or.inr rfl) rfl rfl
  · next status hc =>
    cases hs
    exact .record status hc rfl rfl rfl
  all_goals cases hs

theorem shift_create (hs : createStep s = some s') : Shift s s' .create := by
  unfold createStep at hs
  split at hs
  case h_3 hc =>
    obtain ⟨_, hs⟩ := Option.ite_none_right_eq_some.mp hs
    cases hs
    exact .create (by simp [hc]) rfl (by simp)
  case h_4 hc =>
    cases hs
    exact .create (by simp [hc]) rfl (fun _ => rfl)
  case h_1 hc | h_2 hc =>
    cases hs
    exact .create (by simp [hc]) rfl (by simp)
  case h_5 => cases hs

theorem shift_listen (hs : listenStep s = some s') : Shift s s' .listen := by
  unfold listenStep at hs
  split at hs <;> cases hs <;> exact .other _ (by simp) (by simp) rfl rfl rfl

theorem shift {e : ProcessEvent} (hs : s.step e = some s') : Shift s s' e := by
  cases e with
  | childExit status =>
    obtain ⟨hc, hs⟩ := Option.ite_none_right_eq_some.mp hs
    cases hs
    exact .exit status hc rfl rfl rfl
  | childOut bytes | childErr bytes | interrupted =>
    obtain ⟨_, hs⟩ := Option.ite_none_right_eq_some.mp hs
    cases hs
    exact .other _ (by simp) (by simp) rfl rfl rfl
  | handler => exact shift_handler hs
  | create => exact shift_create hs
  | listen => exact shift_listen hs
  | readStdout count =>
    obtain ⟨_, _, _, ⟨_, rfl⟩ | ⟨_, _, _, rfl⟩⟩ := readOutStep_cases hs <;>
      exact .other _ (by simp) (by simp) rfl rfl rfl
  | readStderr count =>
    obtain ⟨_, _, ⟨_, rfl⟩ | ⟨_, _, _, rfl⟩⟩ := readErrStep_cases hs <;>
      exact .other _ (by simp) (by simp) rfl rfl rfl

theorem Shift.creator_same {e : ProcessEvent} (h : Shift s s' e) (he : e ≠ .create) :
    s'.creator = s.creator := by
  cases h with
  | exit _ _ _ creator _ => exact creator
  | stop _ _ _ creator _ => exact creator
  | record _ _ _ creator _ => exact creator
  | create => exact absurd rfl he
  | other _ _ _ _ creator _ => exact creator

end CkCore.Proofs.ProcessSteps
