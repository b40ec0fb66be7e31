import CkCore.Proofs.ProcessOutput

namespace CkCore.Proofs.ExitCode
open Lib ProcessRun ProcessSteps ProcessOutput

/-- event_finished has been called and create has returned. -/
def finished (s : ProcessRun) : Prop :=
  s.creator = .returned ∧ (s.listener = .close ∨ s.listener = .done)

section
variable (past : List (ProcessRun × ProcessEvent))

/-- The child exited with this status. -/
def exitsWith (status : ExitStatus) : Prop := .childExit status ∈ past.map Prod.snd

/-- The handler recorded this status when create had already returned. -/
def recordsLate (status : Nat) : Prop :=
  ∃ p ∈ past, p.2 = .handler ∧ p.1.child = .stopped (some status) ∧ p.1.creator = .returned

end

variable {s s' : ProcessRun} {past : List (ProcessRun × ProcessEvent)}

theorem exitsWith_append {e : ProcessEvent} {status : ExitStatus} :
    exitsWith (past ++ [(s, e)]) status ↔ exitsWith past status ∨ e = .childExit status := by
  simp [exitsWith, eq_comm]

theorem exitsWith_handler {status : ExitStatus} :
    exitsWith (past ++ [(s, .handler)]) status ↔ exitsWith past status := by
  simp [exitsWith_append]

theorem recordsLate_append {e : ProcessEvent} {status : Nat} :
    recordsLate (past ++ [(s, e)]) status ↔ recordsLate past status ∨
      e = .handler ∧ s.child = .stopped (some status) ∧ s.creator = .returned := by
  simp only [recordsLate, List.mem_append, List.mem_singleton, or_and_right, exists_or,
    exists_eq_left]

/-- What the history of a run says about the child and the exit code. -/
structure Kept (past : List (ProcessRun × ProcessEvent)) (s : ProcessRun) : Prop where
  alive : s.child = .alive → ∀ status, ¬ exitsWith past status
  once : ∀ status, s.child = .exited status ∨ s.child = .stopped status →
    ∀ status', exitsWith past status' → status' = status
  late : ∀ status, recordsLate past status → s.child = .reaped ∧ s.creator = .returned ∧
    s.self.exitCode = status ∧ ∀ status', exitsWith past status' → status' = some status
  cleared : s.creator = .returned → (∀ status, ¬ recordsLate past status) → s.self.exitCode = 0

theorem forked_kept (h : Forked s) : Kept [] s := by
  refine ⟨fun _ _ => List.not_mem_nil, ?_, ?_, ?_⟩
  · intro _ _ _ he
    cases he
  · rintro _ ⟨p, hp, _⟩
    cases hp
  · intro hc
    rw [h.creator] at hc
    cases hc

theorem Kept.no_late (h : Kept past s) (hc : s.child ≠ .reaped) (status : Nat) :
    ¬ recordsLate past status := fun hl => hc (h.late status hl).1

/-- A step that adds nothing to the history that counts here. -/
theorem Kept.same (h : Kept past s) {e : ProcessEvent} (noExit : ∀ status, e ≠ .childExit status)
    (noHandler : e ≠ .handler) (child : s'.child = s.child)
    (late : ∀ status, recordsLate past status →
      s'.creator = s.creator ∧ s'.self.exitCode = s.self.exitCode)
    (cleared : s'.creator = .returned → (∀ status, ¬ recordsLate past status) →
      s'.self.exitCode = 0) : Kept (past ++ [(s, e)]) s' := by
  have hexits : ∀ status, exitsWith (past ++ [(s, e)]) status ↔ exitsWith past status := by
    intro status
    simp [exitsWith_append, noExit]
  have hlate : ∀ status, recordsLate (past ++ [(s, e)]) status ↔ recordsLate past status := by
    intro status
    simp [recordsLate_append, noHandler]
  refine ⟨?_, ?_, ?_, ?_⟩
  · simpa only [hexits, child] using h.alive
  · simpa only [hexits, child] using h.once
  · intro status hl
    obtain ⟨hchild, hcreator, hcode, hstatus⟩ := h.late status ((hlate status).mp hl)
    obtain ⟨hsame, hkept⟩ := late status ((hlate status).mp hl)
    exact ⟨child.trans hchild, hsame.trans hcreator, hkept.trans hcode,
      fun status' he => hstatus status' ((hexits status').mp he)⟩
  · simpa only [hlate] using cleared

theorem Kept.exit (h : Kept past s) {status : ExitStatus} (before : s.child = .alive)
    (after : s'.child = .exited status) (creator : s'.creator = s.creator)
    (code : s'.self.exitCode = s.self.exitCode) :
    Kept (past ++ [(s, .childExit status)]) s' := by
  have hlate : ∀ status', recordsLate (past ++ [(s, .childExit status)]) status' ↔
      recordsLate past status' := by
    intro status'
    simp [recordsLate_append]
  refine ⟨by simp [after], ?_, ?_, ?_⟩
  · intro status' hc status'' he
    have hstatus : status = status' := by simpa [after] using hc
    rcases exitsWith_append.mp he with he | he
    · exact absurd he (h.alive before status'')
    · cases he
      exact hstatus
  · intro status' hl
    exact absurd ((hlate status').mp hl) (h.no_late (by simp [before]) status')
  · simpa only [hlate, creator, code] using h.cleared

theorem Kept.stop (h : Kept past s) {status : ExitStatus} (before : s.child = .exited status)
    (after : s'.child = .stopped status ∨ s'.child = .reaped) (creator : s'.creator = s.creator)
    (code : s'.self.exitCode = s.self.exitCode) : Kept (past ++ [(s, .handler)]) s' := by
  have hlate : ∀ status', recordsLate (past ++ [(s, .handler)]) status' ↔
      recordsLate past status' := by
    intro status'
    simp [recordsLate_append, before]
  refine ⟨?_, ?_, ?_, ?_⟩
  · intro ha
    rw [ha] at after
    simp at after
  · intro status' hc status'' he
    have hstatus : status = status' := by
      rcases after with ha | ha
      · simpa [ha] using hc
      · simp [ha] at hc
    exact hstatus ▸ h.once status (Or.inl before) status'' (exitsWith_handler.mp he)
  · intro status' hl
    exact absurd ((hlate status').mp hl) (h.no_late (by simp [before]) status')
  · simpa only [hlate, creator, code] using h.cleared

theorem Kept.record (h : Kept past s) {status : ExitStatus} (before : s.child = .stopped status)
    (after : s'.child = .reaped) (creator : s'.creator = s.creator)
    (code : s'.self.exitCode = status.getD s.self.exitCode) :
    Kept (past ++ [(s, .handler)]) s' := by
  have hnone := h.no_late (by simp [before])
  refine ⟨by simp [after], by simp [after], ?_, ?_⟩
  · intro status' hl
    rcases recordsLate_append.mp hl with hl | ⟨_, hstopped, hreturned⟩
    · exact absurd hl (hnone status')
    · have hstatus : status = some status' := by simpa [before] using hstopped
      refine ⟨after, creator.trans hreturned, by rw [code, hstatus]; rfl, ?_⟩
      intro status'' he
      exact hstatus ▸ h.once status (Or.inr before) status'' (exitsWith_handler.mp he)
  · intro hreturned hno
    cases status with
    | none => exact code.trans (h.cleared (creator ▸ hreturned) hnone)
    | some status =>
      exact absurd (recordsLate_append.mpr (Or.inr ⟨rfl, before, creator ▸ hreturned⟩)) (hno status)

theorem Kept.next (h : Kept past s) {e : ProcessEvent} (hs : Shift s s' e) :
    Kept (past ++ [(s, e)]) s' := by
  cases hs with
  | exit status before after creator code => exact h.exit before after creator code
  | stop status before after creator code => exact h.stop before after creator code
  | record status before after creator code => exact h.record before after creator code
  | create busy child clears =>
    refine h.same (by simp) (by simp) child ?_ (fun hc _ => clears hc)
    intro status hl
    exact absurd (h.late status hl).2.1 busy
  | other e noExit noHandler child creator code =>
    refine h.same noExit noHandler child (fun _ _ => ⟨creator, code⟩) ?_
    intro hc hnone
    exact code.trans (h.cleared (creator ▸ hc) hnone)

theorem run_kept (h : system.Run past s) : Kept past s := by
  induction h with
  | start h => exact forked_kept h
  | next _ hs ih => exact ih.next (shift hs)

/-- exit_code() after the process has finished: the status if the handler
recorded it late, else the zero create put there. -/
theorem Kept.code_iff (h : Kept past s) (hc : s.creator = .returned) {status : Nat}
    (he : exitsWith past (some status)) :
    s.self.exitCode = status ↔ status = 0 ∨ recordsLate past status := by
  by_cases hl : ∃ status', recordsLate past status'
  · obtain ⟨status', hl⟩ := hl
    obtain ⟨_, _, hcode, hstatus⟩ := h.late status' hl
    have hsame : status = status' := Option.some.inj (hstatus _ he)
    subst hsame
    exact iff_of_true hcode (Or.inr hl)
  · have hnone : ∀ status', ¬ recordsLate past status' := fun status' hl' => hl ⟨status', hl'⟩
    rw [h.cleared hc hnone]
    simp [hnone, eq_comm]

theorem finished_stopped (h : Sound s) (hf : finished s) : s.self.state = .stopped :=
  h.ended (Or.inr hf.2)

/-- In any run, once the process has finished exit_code() yields the status the
child exited with if and only if that is zero or the handler recorded it after
create had returned. -/
theorem exit_code_iff {past : List (ProcessRun × ProcessEvent)} {s : ProcessRun}
    (h : system.Run past s) (hf : finished s) {status : Nat}
    (he : exitsWith past (some status)) :
    s.self.readExitCode = some status ↔ status = 0 ∨ recordsLate past status := by
  have hstopped := finished_stopped (run_sound h).1 hf
  have hread : s.self.readExitCode = some s.self.exitCode := by
    simp [Process.readExitCode, Process.running, hstopped]
  rw [hread, Option.some.injEq]
  exact (run_kept h).code_iff hf.1 he

/-- A slow child: create has returned when it exits. -/
theorem exit_code_iff_slow :
    ∃ past s, system.Run past s ∧ finished s ∧ exitsWith past (some 3) ∧
      (s.self.readExitCode = some 3 ↔ 3 = 0 ∨ recordsLate past 3) := by
  have hslow : ∃ past s, follow step [] (forked [10, 13]) [.create, .create, .listen, .listen,
      .create, .create, .childExit (some 3), .handler, .handler, .listen, .listen] =
      some (past, s) ∧ s.creator = .returned ∧ s.listener = .close ∧
      ProcessEvent.childExit (some 3) ∈ past.map Prod.snd := ⟨_, _, rfl, rfl, rfl, by decide⟩
  obtain ⟨past, s, hfollow, hc, hl, he⟩ := hslow
  have hrun : system.Run past s := (System.Run.start (forked_forked [10, 13])).follow hfollow
  have hf : finished s := ⟨hc, Or.inl hl⟩
  exact ⟨past, s, hrun, hf, he, exit_code_iff hrun hf he⟩

/-- The handler has recorded the status of a fast child when create clears it. -/
theorem fast_exit_clears_code :
    ∃ past s, system.Run past s ∧ finished s ∧ exitsWith past (some 3) ∧
      s.self.readExitCode = some 0 := by
  have hfast : ∃ past s, follow step [] (forked [10, 13]) [.create, .childExit (some 3), .handler,
      .handler, .create, .listen, .listen, .create, .create, .listen, .listen] =
      some (past, s) ∧ s.creator = .returned ∧ s.listener = .close ∧
      ProcessEvent.childExit (some 3) ∈ past.map Prod.snd ∧ s.self.readExitCode = some 0 :=
    ⟨_, _, rfl, rfl, rfl, by decide, rfl⟩
  obtain ⟨past, s, hfollow, hc, hl, he, hcode⟩ := hfast
  have hrun : system.Run past s := (System.Run.start (forked_forked [10, 13])).follow hfollow
  exact ⟨past, s, hrun, ⟨hc, Or.inl hl⟩, he, hcode⟩

end CkCore.Proofs.ExitCode
