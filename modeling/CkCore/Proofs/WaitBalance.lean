import CkCore.Lib.Census
import CkCore.Model.Waiting

namespace CkCore.Proofs.WaitBalance
open Lib Waiting

/-- The calls that are inside wait. -/
def inside (s : Waiting) : Nat := s.calls.countP (·.inside)

/-- The calls inside wait that a signal was issued for. -/
def called (s : Waiting) : Nat := s.calls.countP fun c => c.inside && c.called

/-- waiters_ counts the calls inside, and every wake-up recorded is for one that
was inside when a signal was issued. -/
structure Balanced (s : Waiting) : Prop where
  small : s.cond.waiters < word
  counted : s.cond.waiters = inside s
  bounded : s.cond.wakeups ≤ s.cond.waiters
  addressed : s.cond.wakeups ≤ called s

/-- The time-out of a call that was signalled leaves no wake-up of its own, and
the calls inside fit a word. -/
def timely (s : Waiting) : Event → Prop
  | .wait _ => inside s + 1 < word
  | .expire call => ∀ c, s.calls[call]? = some c → c.called = true → s.cond.wakeups < called s
  | _ => True

variable {s s' : Waiting} {call : Nat} {c : WaitCall}

theorem called_le (s : Waiting) : called s ≤ inside s := by
  refine List.countP_mono_left fun c _ h => ?_
  exact (Bool.and_eq_true_iff.mp h).1

theorem callStep_cases {next : WaitCall → Option Waiting}
    (h : s.callStep call next = some s') :
    ∃ c, s.calls[call]? = some c ∧ c.inside = true ∧ next c = some s' := by
  unfold callStep at h
  split at h
  case h_1 => cases h
  case h_2 c hc =>
    split at h
    case isTrue hin => exact ⟨c, hc, hin, h⟩
    case isFalse => cases h

/-- A call that leaves is counted no longer, nor is it among those signalled. -/
theorem leave_counts (hc : s.calls[call]? = some c) (hin : c.inside = true)
    (cond : WaitCondition) :
    inside (s.leave call c cond) + 1 = inside s ∧
      called (s.leave call c cond) + c.called.toNat = called s := by
  have hinside := census_set (fun c : WaitCall => c.inside) hc { c with inside := false }
  have hcalled := census_set (fun c : WaitCall => c.inside && c.called) hc
    { c with inside := false }
  simp only [hin, Bool.true_and, Bool.false_and, Bool.toNat_true, Bool.toNat_false]
    at hinside hcalled
  exact ⟨hinside, hcalled⟩

/-- A signal is for all calls that are inside. -/
theorem issue_counts (s : Waiting) (cond : WaitCondition) :
    inside (s.issue cond) = inside s ∧ called (s.issue cond) = inside s := by
  unfold inside called issue
  simp only [List.countP_map]
  constructor
  · rfl
  · refine List.countP_congr fun c _ => ?_
    simp

theorem Balanced.bounded_of (hcounted : s.cond.waiters = inside s)
    (h : s.cond.wakeups ≤ called s) : s.cond.wakeups ≤ s.cond.waiters := by
  have := called_le s
  omega

theorem wait_balanced (h : Balanced s) (timeout : Nat) (hs : s.step (.wait timeout) = some s') :
    Balanced s' ↔ inside s + 1 < word := by
  cases hs
  have hsmall := h.small
  have hinside : inside ⟨s.cond.enter, s.calls ++ [⟨timeout, true, false⟩]⟩ = inside s + 1 :=
    census_append _ _ _
  have hcalled : called ⟨s.cond.enter, s.calls ++ [⟨timeout, true, false⟩]⟩ = called s :=
    census_append _ _ _
  have henter : s.cond.enter.waiters = (inside s + 1) % word := by
    rw [← h.counted]
    rfl
  constructor
  · intro h'
    have hcounted := h'.counted
    have hlt := h'.small
    rw [hinside] at hcounted
    rw [hcounted] at hlt
    exact hlt
  · intro hroom
    rw [Nat.mod_eq_of_lt hroom] at henter
    have haddressed : s.cond.wakeups ≤
        called ⟨s.cond.enter, s.calls ++ [⟨timeout, true, false⟩]⟩ := by
      rw [hcalled]
      exact h.addressed
    have hcounted := henter.trans hinside.symm
    exact ⟨by rw [henter]; exact hroom, hcounted, Balanced.bounded_of hcounted haddressed,
      haddressed⟩

/-- Leaving with or without a wake-up takes one off waiters_. -/
theorem leave_balanced (h : Balanced s) (hc : s.calls[call]? = some c) (hin : c.inside = true)
    {cond : WaitCondition} (hwaiters : cond.waiters = subWord s.cond.waiters 1) :
    Balanced (s.leave call c cond) ↔ cond.wakeups + c.called.toNat ≤ called s := by
  obtain ⟨hinside, hcalled⟩ := leave_counts hc hin cond
  have hcounted := h.counted
  have hless : cond.waiters = s.cond.waiters - 1 :=
    hwaiters.trans (subWord_eq h.small (by omega))
  have hnow : (s.leave call c cond).cond = cond := rfl
  constructor
  · intro h'
    have haddressed := h'.addressed
    rw [hnow] at haddressed
    omega
  · intro hroom
    have haddressed : cond.wakeups ≤ called (s.leave call c cond) := by omega
    have hnext : cond.waiters = inside (s.leave call c cond) := by omega
    have hsmall := h.small
    exact ⟨by rw [hnow]; omega, hnext, Balanced.bounded_of hnext haddressed, haddressed⟩

theorem wake_balanced (h : Balanced s) (hs : s.step (.wake call) = some s') : Balanced s' := by
  obtain ⟨c, hc, hin, hs⟩ := callStep_cases hs
  split at hs
  case isTrue => cases hs
  case isFalse hsome =>
    obtain rfl := Option.some.inj hs
    have haddressed := h.addressed
    have hbounded := h.bounded
    have hsmall := h.small
    have hless : s.cond.wake.wakeups = s.cond.wakeups - 1 := subWord_eq (by omega) (by omega)
    have hwaiters : s.cond.wake.waiters = subWord s.cond.waiters 1 := rfl
    rw [leave_balanced h hc hin hwaiters, hless]
    cases c.called
    · exact Nat.le_trans (Nat.sub_le _ 1) haddressed
    · rw [Bool.toNat_true]
      omega

theorem expire_balanced (h : Balanced s) (hs : s.step (.expire call) = some s') :
    Balanced s' ↔ timely s (.expire call) := by
  obtain ⟨c, hc, hin, hs⟩ := callStep_cases hs
  split at hs
  case isTrue => cases hs
  case isFalse =>
    obtain rfl := Option.some.inj hs
    have hwaiters : s.cond.expire.waiters = subWord s.cond.waiters 1 := rfl
    rw [leave_balanced h hc hin hwaiters, WaitCondition.expire_wakeups]
    constructor
    · intro hroom c' hc' hcalled
      rw [hc] at hc'
      cases hc'
      rw [hcalled, Bool.toNat_true] at hroom
      exact hroom
    · intro htimely
      cases hcalled : c.called with
      | false => exact h.addressed
      | true => exact htimely c hc hcalled

/-- A signal records at most one wake-up for each call inside. -/
theorem issue_balanced (h : Balanced s) {cond : WaitCondition}
    (hwaiters : cond.waiters = s.cond.waiters) (hbounded : cond.wakeups ≤ cond.waiters) :
    Balanced (s.issue cond) := by
  obtain ⟨hinside, hcalled⟩ := issue_counts s cond
  have hcounted := h.counted
  have hsmall := h.small
  have hnow : (s.issue cond).cond = cond := rfl
  constructor
  · rw [hnow]
    omega
  · rw [hnow]
    omega
  · exact hbounded
  · rw [hnow]
    omega

/-- A step leaves the counters balanced just when it is timely. -/
theorem step_balanced (h : Balanced s) {e : Event} (hs : s.step e = some s') :
    Balanced s' ↔ timely s e := by
  cases e with
  | wait timeout => exact wait_balanced h timeout hs
  | wake call => exact iff_of_true (wake_balanced h hs) trivial
  | spurious call =>
    obtain ⟨c, hc, hin, hs⟩ := callStep_cases hs
    split at hs
    case isTrue =>
      cases hs
      exact iff_of_true h trivial
    case isFalse => cases hs
  | expire call => exact expire_balanced h hs
  | signalOne =>
    cases hs
    exact iff_of_true (issue_balanced h rfl (Nat.min_le_right _ _)) trivial
  | signalAll =>
    cases hs
    exact iff_of_true (issue_balanced h rfl (Nat.le_refl _)) trivial

theorem create_balanced : Balanced create :=
  ⟨by decide, rfl, Nat.le_refl _, Nat.le_refl _⟩

/-- The counters are balanced in every state of a run just when no call that was
signalled leaves by its time-out together with the last wake-up for such calls. -/
theorem balanced_run_iff {past : List (Waiting × Event)} (h : system.Run past s) :
    ((∀ p ∈ past, Balanced p.1) ∧ Balanced s) ↔ ∀ p ∈ past, timely p.1 p.2 :=
  h.all_iff (fun _ hinit => hinit ▸ create_balanced) (fun _ _ _ hb hs => step_balanced hb hs)

/-- A signalled call leaves with its wake-up, another one by its time-out. -/
theorem balanced_run_iff_two : ∃ past s, system.Run past s ∧
    ((∀ p ∈ past, Balanced p.1) ∧ Balanced s ↔ ∀ p ∈ past, timely p.1 p.2) ∧
    s.cond = ⟨0, 0⟩ := by
  have hstart : system.Run [] create := .start rfl
  have hrun := hstart.follow (show follow step [] create [.wait 5, .signalOne, .wait 5, .wake 0,
    .expire 1] = some (_, _) from rfl)
  exact ⟨_, _, hrun, balanced_run_iff hrun, rfl⟩

/-- A call is signalled and leaves by its time-out: the wake-up stays recorded,
and a call of wait behind it returns without a signal. -/
theorem stale_wakeup : ∃ past s, system.Run past s ∧ ¬ s.cond.wakeups ≤ s.cond.waiters ∧
    (s.step (.wait 5)).bind (·.step (.wake 1)) ≠ none := by
  have hstart : system.Run [] create := .start rfl
  have hrun := hstart.follow (show follow step [] create [.wait 5, .signalOne, .expire 0] =
    some (_, _) from rfl)
  exact ⟨_, _, hrun, by decide, by decide⟩

end CkCore.Proofs.WaitBalance
