import Mathlib.Data.List.Nodup
import CkCore.Lib.Census
import CkCore.Model.ProcessMonitor

namespace CkCore.Proofs.LostExit
open Lib MonitorRun

def zombie (c : ForkedChild) : Bool :=
  match c.life with
  | .zombie _ => true
  | _ => false

def missed (c : ForkedChild) : Bool := c.life = .missed

/-- The children waiting for a handler. -/
def zombies (s : MonitorRun) : Nat := s.children.countP zombie

/-- The handlers in wait or about to run. -/
def signals (s : MonitorRun) : Nat := s.pending.toNat + s.waiting

def misses (s : MonitorRun) : Nat := s.children.countP missed

/-- No SIGCHLD is pending or being handled. -/
def quiet (s : MonitorRun) : Prop :=
  s.pending = false ∧ s.waiting = 0 ∧ ∀ c ∈ s.children, ∀ status, c.life ≠ .reaped status

/-- A child has exited, unrecorded, and its process is still running. -/
def lost (s : MonitorRun) : Prop :=
  ∃ c ∈ s.children, c.life ≠ .alive ∧ c.life ≠ .recorded ∧ (s.processes c.process).running

/-- A child exits when the handler is installed and no SIGCHLD is pending, and
the handler looks it up when it is registered. -/
def heard (s : MonitorRun) : MonitorEvent → Prop
  | .exit _ _ => s.monitor.installed = true ∧ s.pending = false
  | .lookup child => ∀ c, s.children[child]? = some c → s.monitor.pidMap c.pid = some c.process
  | _ => True

/-- There is a handler for every zombie and no child was missed. -/
def balanced (s : MonitorRun) : Prop := zombies s = signals s ∧ misses s = 0

/-- Every handler still to run has a zombie to find. -/
def covered (s : MonitorRun) : Prop := signals s ≤ zombies s

variable {s s' : MonitorRun} {child : Nat} {c : ForkedChild}

theorem childStep_cases {next : ForkedChild → Option MonitorRun}
    (h : s.childStep child next = some s') :
    ∃ c, s.children[child]? = some c ∧ next c = some s' := by
  unfold childStep at h
  split at h
  case h_1 => cases h
  case h_2 c hc => exact ⟨c, hc, h⟩

theorem instance_cases (hs : s.step (.instance_ child) = some s') :
    ∃ c, s.children[child]? = some c ∧ c.registration = .monitor ∧ s' = { s with
      children := s.children.set child { c with registration := .register }
      monitor := s.monitor.instance_ } := by
  obtain ⟨c, hc, hs⟩ := childStep_cases hs
  obtain ⟨hstage, hs⟩ := Option.ite_none_right_eq_some.mp hs
  exact ⟨c, hc, hstage, (Option.some.inj hs).symm⟩

theorem register_cases (hs : s.step (.register child) = some s') :
    ∃ c, s.children[child]? = some c ∧ c.registration = .register ∧ s' = { s with
      children := s.children.set child { c with registration := .registered }
      monitor := s.monitor.registerProcess c.pid c.process } := by
  obtain ⟨c, hc, hs⟩ := childStep_cases hs
  obtain ⟨hstage, hs⟩ := Option.ite_none_right_eq_some.mp hs
  exact ⟨c, hc, hstage, (Option.some.inj hs).symm⟩

theorem exit_cases {status : ExitStatus} (hs : s.step (.exit child status) = some s') :
    ∃ c, s.children[child]? = some c ∧ c.life = .alive ∧ s' = { s with
      children := s.children.set child { c with life := .zombie status }
      pending := s.pending || s.monitor.installed } := by
  obtain ⟨c, hc, hs⟩ := childStep_cases hs
  obtain ⟨hlife, hs⟩ := Option.ite_none_right_eq_some.mp hs
  exact ⟨c, hc, hlife, (Option.some.inj hs).symm⟩

theorem reap_cases (hs : s.step (.reap child) = some s') :
    ∃ c status, s.children[child]? = some c ∧ c.life = .zombie status ∧ 0 < s.waiting ∧
      s' = { s with
        children := s.children.set child { c with life := .reaped status }
        waiting := s.waiting - 1 } := by
  obtain ⟨c, hc, hs⟩ := childStep_cases hs
  split at hs
  case h_1 status hlife =>
    obtain ⟨hwaiting, hs⟩ := Option.ite_none_right_eq_some.mp hs
    exact ⟨c, status, hc, hlife, hwaiting, (Option.some.inj hs).symm⟩
  case h_2 => cases hs

theorem lookup_cases (hs : s.step (.lookup child) = some s') :
    ∃ c status, s.children[child]? = some c ∧ c.life = .reaped status ∧ s' = { s with
      children := s.children.set child { c with life := s.monitor.outcome c }
      processes := s.monitor.sigchldHandler s.processes c.pid status } := by
  obtain ⟨c, hc, hs⟩ := childStep_cases hs
  split at hs
  case h_1 status hlife => exact ⟨c, status, hc, hlife, (Option.some.inj hs).symm⟩
  case h_2 => cases hs

/-- What a step does to the zombies, the handlers and the children missed. -/
inductive Counted (s s' : MonitorRun) (e : MonitorEvent) : Prop where
  | same (zombies : zombies s' = zombies s) (signals : signals s' = signals s)
      (misses : misses s' = misses s) (ok : heard s e)
  | exit (zombies : zombies s' = zombies s + 1) (misses : misses s' = misses s)
      (ok : heard s e → signals s' = signals s + 1)
      (unheard : ¬ heard s e → signals s' = signals s)
  | reap (zombies : zombies s' + 1 = zombies s) (signals : signals s' + 1 = signals s)
      (misses : misses s' = misses s) (ok : heard s e)
  | fails (zombies : zombies s = 0) (signals : 0 < signals s)
  | lookup (zombies : zombies s' = zombies s) (signals : signals s' = signals s)
      (ok : heard s e → misses s' = misses s)
      (unheard : ¬ heard s e → misses s' = misses s + 1)

theorem counted_fork {process pid : Nat} (hs : s.fork process pid = some s') :
    Counted s s' (.fork process pid) := by
  obtain ⟨_, hs⟩ := Option.ite_none_left_eq_some.mp hs
  cases hs
  exact .same (census_append _ _ _) rfl (census_append _ _ _) trivial

/-- Changing a child without touching its life keeps the counts. -/
theorem set_same (hc : s.children[child]? = some c) (c' : ForkedChild) (hlife : c'.life = c.life) :
    (s.children.set child c').countP zombie = zombies s ∧
      (s.children.set child c').countP missed = misses s := by
  have hzombie : zombie c' = zombie c := by simp [zombie, hlife]
  have hmissed : missed c' = missed c := by simp [missed, hlife]
  exact ⟨census_same zombie hc hzombie, census_same missed hc hmissed⟩

theorem counted_instance (hs : s.step (.instance_ child) = some s') :
    Counted s s' (.instance_ child) := by
  obtain ⟨c, hc, _, rfl⟩ := instance_cases hs
  obtain ⟨hzombies, hmisses⟩ := set_same hc { c with registration := .register } rfl
  exact .same hzombies rfl hmisses trivial

theorem counted_register (hs : s.step (.register child) = some s') :
    Counted s s' (.register child) := by
  obtain ⟨c, hc, _, rfl⟩ := register_cases hs
  obtain ⟨hzombies, hmisses⟩ := set_same hc { c with registration := .registered } rfl
  exact .same hzombies rfl hmisses trivial

theorem counted_exit {status : ExitStatus} (hs : s.step (.exit child status) = some s') :
    Counted s s' (.exit child status) := by
  obtain ⟨c, hc, hlife, rfl⟩ := exit_cases hs
  have hzombies := census_set zombie hc { c with life := .zombie status }
  have hmisses := census_set missed hc { c with life := .zombie status }
  simp only [zombie, missed, hlife] at hzombies hmisses
  refine .exit hzombies hmisses ?_ ?_
  · rintro ⟨hinstalled, hpending⟩
    simp only [signals, hinstalled, hpending, Bool.or_true, Bool.toNat_true, Bool.toNat_false]
    omega
  · intro hn
    have hsame : (s.pending || s.monitor.installed) = s.pending := by
      cases hp : s.pending with
      | true => rfl
      | false =>
        cases hi : s.monitor.installed with
        | true => exact absurd ⟨hi, hp⟩ hn
        | false => rfl
    simp only [signals, hsame]

theorem counted_deliver (hs : s.step .deliver = some s') : Counted s s' .deliver := by
  obtain ⟨hpending, hs⟩ := Option.ite_none_right_eq_some.mp hs
  cases hs
  refine .same rfl ?_ rfl trivial
  simp only [signals, hpending, Bool.toNat_true, Bool.toNat_false]
  omega

theorem counted_reap (hs : s.step (.reap child) = some s') : Counted s s' (.reap child) := by
  obtain ⟨c, status, hc, hlife, hwaiting, rfl⟩ := reap_cases hs
  have hzombies := census_set zombie hc { c with life := .reaped status }
  have hmisses := census_set missed hc { c with life := .reaped status }
  simp only [zombie, missed, hlife] at hzombies hmisses
  refine .reap hzombies ?_ hmisses trivial
  simp only [signals]
  omega

/-- wait fails when there are no children, so no zombies. -/
theorem counted_waitFails (hs : s.step .waitFails = some s') : Counted s s' .waitFails := by
  obtain ⟨⟨hwaiting, hnone⟩, _⟩ := Option.ite_none_right_eq_some.mp hs
  refine .fails ?_ ?_
  · have hle : zombies s ≤ s.children.countP unreaped := by
      refine List.countP_mono_left fun c _ hz => ?_
      cases hlife : c.life <;> simp [zombie, unreaped, hlife] at hz ⊢
    exact Nat.le_zero.mp (hnone ▸ hle)
  · exact Nat.lt_of_lt_of_le hwaiting (Nat.le_add_left _ _)

theorem counted_lookup (hs : s.step (.lookup child) = some s') : Counted s s' (.lookup child) := by
  obtain ⟨c, status, hc, hlife, rfl⟩ := lookup_cases hs
  have hheard : heard s (.lookup child) ↔ s.monitor.pidMap c.pid = some c.process := by
    simp [heard, hc]
  have hold : zombie c = false ∧ missed c = false := by simp [zombie, missed, hlife]
  have hnew : zombie { c with life := s.monitor.outcome c } = false := by
    by_cases hm : s.monitor.pidMap c.pid = some c.process <;>
      simp [zombie, ProcessMonitor.outcome, hm]
  have hmisses := census_set missed hc { c with life := s.monitor.outcome c }
  refine .lookup (census_same zombie hc (hnew.trans hold.1.symm)) rfl ?_ ?_
  · intro hh
    refine census_same missed hc ?_
    rw [hold.2]
    simp [missed, ProcessMonitor.outcome, hheard.mp hh]
  · intro hh
    have hmiss : missed { c with life := s.monitor.outcome c } = true := by
      simp [missed, ProcessMonitor.outcome, mt hheard.mpr hh]
    rw [hold.2, hmiss] at hmisses
    exact hmisses

theorem counted {e : MonitorEvent} (hs : s.step e = some s') : Counted s s' e := by
  cases e with
  | fork process pid => exact counted_fork hs
  | instance_ child => exact counted_instance hs
  | register child => exact counted_register hs
  | exit child status => exact counted_exit hs
  | deliver => exact counted_deliver hs
  | reap child => exact counted_reap hs
  | waitFails => exact counted_waitFails hs
  | lookup child => exact counted_lookup hs

theorem initial_balanced (h : Initial s) : balanced s := by
  simp [balanced, zombies, signals, misses, h.children, h.pending, h.waiting]

theorem Counted.keeps_covered {e : MonitorEvent} (hs : Counted s s' e) (h : covered s) :
    covered s' := by
  unfold covered at h ⊢
  cases hs with
  | same hz hg _ _ => omega
  | exit hz _ hok hun =>
    by_cases hh : heard s e
    · have := hok hh
      omega
    · have := hun hh
      omega
  | reap hz hg _ _ => omega
  | fails hz hg => omega
  | lookup hz hg _ _ => omega

/-- The balance is lost with a step nobody hears of and never comes back. -/
theorem Counted.balanced_iff {e : MonitorEvent} (hs : Counted s s' e) (h : covered s) :
    balanced s' ↔ balanced s ∧ heard s e := by
  unfold covered at h
  unfold balanced
  cases hs with
  | same hz hg hm ok =>
    rw [hz, hg, hm]
    exact (and_iff_left ok).symm
  | exit hz hm hok hun =>
    by_cases hh : heard s e
    · have := hok hh
      simp only [hh, and_true, hm]
      omega
    · have := hun hh
      simp only [hh, and_false, iff_false]
      omega
  | reap hz hg hm ok =>
    simp only [ok, and_true, hm]
    omega
  | fails hz hg => omega
  | lookup hz hg hok hun =>
    rw [hz, hg]
    by_cases hh : heard s e
    · rw [hok hh]
      exact (and_iff_left hh).symm
    · simp only [hh, and_false, iff_false, hun hh]
      omega

theorem run_balanced_iff {past : List (MonitorRun × MonitorEvent)} (h : system.Run past s) :
    balanced s ↔ ∀ p ∈ past, heard p.1 p.2 := by
  refine h.iff_of (I := covered) ?_ (fun _ _ _ hi hs => (counted hs).keeps_covered hi)
    (fun _ _ _ hi hs => (counted hs).balanced_iff hi)
  intro s h
  exact ⟨Nat.le_of_eq (initial_balanced h).1.symm, initial_balanced h⟩

/-- What runs that give no pid twice keep: pid_map_ has every pid under its own
process, and a process runs for its one child whose exit is not recorded. -/
structure Owned (s : MonitorRun) : Prop where
  mapped : ∀ pid process, s.monitor.pidMap pid = some process →
    ∃ c ∈ s.children, c.pid = pid ∧ c.process = process
  running : ∀ c ∈ s.children, c.life ≠ .recorded → (s.processes c.process).running
  apart : ∀ c ∈ s.children, ∀ d ∈ s.children, c.life ≠ .recorded → d.life ≠ .recorded →
    c.process = d.process → c.pid = d.pid

/-- No pid was given twice. -/
def distinct (s : MonitorRun) : Prop := (s.children.map (·.pid)).Nodup

theorem initial_owned (h : Initial s) : Owned s := by
  refine ⟨?_, ?_, ?_⟩
  · intro pid process hm
    rw [h.pidMap] at hm
    cases hm
  · simp [h.children]
  · simp [h.children]

/-- A cell of the changed list is the new one or one of another pid. -/
theorem mem_set_cases (hd : distinct s) (hc : s.children[child]? = some c) {c' d : ForkedChild}
    (h : d ∈ s.children.set child c') : d = c' ∨ d ∈ s.children ∧ d.pid ≠ c.pid := by
  obtain ⟨j, hj⟩ := List.mem_iff_getElem?.mp h
  rcases cell_set hc hj with ⟨_, hnew⟩ | ⟨hne, hj⟩
  · exact Or.inl hnew
  · refine Or.inr ⟨List.mem_of_getElem? hj, ?_⟩
    intro hpid
    exact hne (same_cell hd hj hc hpid)

/-- A step that changes one child, keeps what its pid and process are and does
not take back that its exit was recorded. -/
theorem Owned.keep (h : Owned s) (hd : distinct s) (hc : s.children[child]? = some c)
    (c' : ForkedChild) (hpid : c'.pid = c.pid) (hprocess : c'.process = c.process)
    (hlife : c'.life ≠ .recorded → c.life ≠ .recorded)
    (hchildren : s'.children = s.children.set child c')
    (hrunning : ∀ d ∈ s'.children, d.life ≠ .recorded → (s.processes d.process).running →
      (s'.processes d.process).running)
    (hmap : ∀ pid process, s'.monitor.pidMap pid = some process →
      s.monitor.pidMap pid = some process ∨ pid = c.pid ∧ process = c.process) : Owned s' := by
  have hmem : c ∈ s.children := List.mem_of_getElem? hc
  have hnew : c' ∈ s'.children := by
    rw [hchildren]
    exact List.mem_set (List.getElem?_eq_some_iff.mp hc).1 c'
  have hold : ∀ d ∈ s'.children, d.life ≠ .recorded →
      ∃ d' ∈ s.children, d'.life ≠ .recorded ∧ d'.pid = d.pid ∧ d'.process = d.process := by
    intro d hdm hdl
    rw [hchildren] at hdm
    rcases mem_set_cases hd hc hdm with rfl | ⟨hdm, _⟩
    · exact ⟨c, hmem, hlife hdl, hpid.symm, hprocess.symm⟩
    · exact ⟨d, hdm, hdl, rfl, rfl⟩
  refine ⟨?_, ?_, ?_⟩
  · intro pid process hm
    rcases hmap pid process hm with hm | ⟨rfl, rfl⟩
    · obtain ⟨d, hdm, hdp, hdq⟩ := h.mapped pid process hm
      obtain ⟨j, hj⟩ := List.mem_iff_getElem?.mp hdm
      by_cases hjc : j = child
      · subst hjc
        cases hc.symm.trans hj
        exact ⟨c', hnew, hpid.trans hdp, hprocess.trans hdq⟩
      · refine ⟨d, ?_, hdp, hdq⟩
        rw [hchildren]
        refine List.mem_of_getElem? (i := j) ?_
        rw [List.getElem?_set_ne (Ne.symm hjc)]
        exact hj
    · exact ⟨c', hnew, hpid, hprocess⟩
  · intro d hdm hdl
    obtain ⟨d', hdm', hdl', _, hprocess'⟩ := hold d hdm hdl
    exact hrunning d hdm hdl (hprocess' ▸ h.running d' hdm' hdl')
  · intro d hdm e hem hdl hel hsame
    obtain ⟨d', hdm', hdl', hdp, hdq⟩ := hold d hdm hdl
    obtain ⟨e', hem', hel', hep, heq⟩ := hold e hem hel
    exact hdp.symm.trans ((h.apart d' hdm' e' hem' hdl' hel'
      (hdq.trans (hsame.trans heq.symm))).trans hep)

theorem Owned.fork (h : Owned s) {process pid : Nat} (hs : s.fork process pid = some s') :
    Owned s' := by
  obtain ⟨hfree, hs⟩ := Option.ite_none_left_eq_some.mp hs
  cases hs
  have hidle : ∀ c ∈ s.children, c.life ≠ .recorded → c.process ≠ process := by
    rintro c hc hl rfl
    exact hfree (Or.inl (h.running c hc hl))
  refine ⟨?_, ?_, ?_⟩
  · intro pid process hm
    obtain ⟨c, hc, hp, hq⟩ := h.mapped pid process hm
    exact ⟨c, List.mem_append_left _ hc, hp, hq⟩
  · intro c hc hl
    rcases List.mem_append.mp hc with hc | hc
    · simp only [Function.update_of_ne (hidle c hc hl)]
      exact h.running c hc hl
    · cases List.mem_singleton.mp hc
      simp [Process.running]
  · intro c hc d hd hcl hdl hsame
    rcases List.mem_append.mp hc with hc | hc <;> rcases List.mem_append.mp hd with hd | hd
    · exact h.apart c hc d hd hcl hdl hsame
    · cases List.mem_singleton.mp hd
      exact absurd hsame (hidle c hc hcl)
    · cases List.mem_singleton.mp hc
      exact absurd hsame.symm (hidle d hd hdl)
    · cases List.mem_singleton.mp hc
      cases List.mem_singleton.mp hd
      rfl

/-- With distinct pids the handler finds the child's own process or none. -/
theorem Owned.own (h : Owned s) (hd : distinct s) (hc : c ∈ s.children) {process : Nat}
    (hm : s.monitor.pidMap c.pid = some process) : process = c.process := by
  obtain ⟨d, hdm, hp, hq⟩ := h.mapped c.pid process hm
  rw [← hq, List.inj_on_of_nodup_map hd hdm hc hp]

theorem Owned.lookup (h : Owned s) (hd : distinct s) (hs : s.step (.lookup child) = some s') :
    Owned s' := by
  obtain ⟨c, status, hc, hlife, rfl⟩ := lookup_cases hs
  have hmem : c ∈ s.children := List.mem_of_getElem? hc
  refine h.keep hd hc { c with life := s.monitor.outcome c } rfl rfl ?_ rfl ?_
    (fun _ _ hm => Or.inl hm)
  · intro _
    simp [hlife]
  · intro d hdm hdl hrun
    cases hm : s.monitor.pidMap c.pid with
    | none => simpa [ProcessMonitor.sigchldHandler, hm] using hrun
    | some process =>
      have hown := h.own hd hmem hm
      subst hown
      rcases mem_set_cases hd hc hdm with rfl | ⟨hdm, hne⟩
      · simp [ProcessMonitor.outcome, hm] at hdl
      · have hother : d.process ≠ c.process := by
          intro hsame
          exact hne (h.apart d hdm c hmem hdl (by simp [hlife]) hsame)
        simpa [ProcessMonitor.sigchldHandler, hm, Function.update_of_ne hother] using hrun

theorem Owned.step (h : Owned s) (hd : distinct s) {e : MonitorEvent} (hs : s.step e = some s') :
    Owned s' := by
  cases e with
  | fork process pid => exact h.fork hs
  | instance_ child =>
    obtain ⟨c, hc, _, rfl⟩ := instance_cases hs
    exact h.keep hd hc { c with registration := .register } rfl rfl id rfl
      (fun _ _ _ hr => hr) (fun _ _ hm => Or.inl hm)
  | register child =>
    obtain ⟨c, hc, _, rfl⟩ := register_cases hs
    refine h.keep hd hc { c with registration := .registered } rfl rfl id rfl
      (fun _ _ _ hr => hr) ?_
    intro pid process hm
    by_cases hp : pid = c.pid
    · subst hp
      simp only [ProcessMonitor.registerProcess, Function.update_self] at hm
      exact Or.inr ⟨rfl, (Option.some.inj hm).symm⟩
    · simp only [ProcessMonitor.registerProcess, Function.update_of_ne hp] at hm
      exact Or.inl hm
  | exit child status =>
    obtain ⟨c, hc, hlife, rfl⟩ := exit_cases hs
    exact h.keep hd hc { c with life := .zombie status } rfl rfl (by simp [hlife]) rfl
      (fun _ _ _ hr => hr) (fun _ _ hm => Or.inl hm)
  | deliver | waitFails =>
    obtain ⟨_, hs⟩ := Option.ite_none_right_eq_some.mp hs
    cases hs
    exact ⟨h.mapped, h.running, h.apart⟩
  | reap child =>
    obtain ⟨c, status, hc, hlife, _, rfl⟩ := reap_cases hs
    exact h.keep hd hc { c with life := .reaped status } rfl rfl (by simp [hlife]) rfl
      (fun _ _ _ hr => hr) (fun _ _ hm => Or.inl hm)
  | lookup child => exact h.lookup hd hs

theorem set_pids (hc : s.children[child]? = some c) {c' : ForkedChild}
    (hchildren : s'.children = s.children.set child c') (hpid : c'.pid = c.pid) :
    s.children.map (·.pid) <+: s'.children.map (·.pid) := by
  have hkept : s'.children.map (·.pid) = s.children.map (·.pid) :=
    hchildren ▸ map_set_same hc hpid
  exact hkept ▸ List.prefix_rfl

/-- The pids only grow, by those of the forks. -/
theorem step_pids {e : MonitorEvent} (hs : s.step e = some s') :
    s.children.map (·.pid) <+: s'.children.map (·.pid) := by
  cases e with
  | fork process pid =>
    obtain ⟨_, hs⟩ := Option.ite_none_left_eq_some.mp hs
    cases hs
    rw [List.map_append]
    exact List.prefix_append _ _
  | deliver | waitFails =>
    obtain ⟨_, hs⟩ := Option.ite_none_right_eq_some.mp hs
    cases hs
    exact List.prefix_rfl
  | instance_ child =>
    obtain ⟨c, hc, _, rfl⟩ := instance_cases hs
    exact set_pids hc rfl rfl
  | register child =>
    obtain ⟨c, hc, _, rfl⟩ := register_cases hs
    exact set_pids hc rfl rfl
  | exit child status =>
    obtain ⟨c, hc, _, rfl⟩ := exit_cases hs
    exact set_pids hc rfl rfl
  | reap child =>
    obtain ⟨c, _, hc, _, _, rfl⟩ := reap_cases hs
    exact set_pids hc rfl rfl
  | lookup child =>
    obtain ⟨c, _, hc, _, rfl⟩ := lookup_cases hs
    exact set_pids hc rfl rfl

theorem run_owned {past : List (MonitorRun × MonitorEvent)} (h : system.Run past s)
    (hd : distinct s) : Owned s := by
  induction h with
  | start h => exact initial_owned h
  | next before hs ih =>
    have hbefore := List.Nodup.sublist (step_pids hs).sublist hd
    exact (ih hbefore).step hbefore hs

theorem zombie_iff : zombie c = true ↔ ∃ status, c.life = .zombie status := by
  cases hlife : c.life <;> simp [zombie, hlife]

/-- In a quiet balanced state every child is alive or recorded. -/
theorem balanced_not_lost (h : balanced s) (hq : quiet s) : ¬ lost s := by
  rintro ⟨c, hc, halive, hrecorded, _⟩
  obtain ⟨hpending, hwaiting, hreaped⟩ := hq
  have hzombies : zombies s = 0 := by simp [h.1, signals, hpending, hwaiting]
  cases hlife : c.life with
  | alive => exact halive hlife
  | zombie status =>
    exact List.countP_eq_zero.mp hzombies c hc (zombie_iff.mpr ⟨status, hlife⟩)
  | reaped status => exact hreaped c hc status hlife
  | recorded => exact hrecorded hlife
  | missed => exact List.countP_eq_zero.mp h.2 c hc (by simp [missed, hlife])

/-- Once the balance is gone a quiet state has a child whose process waits. -/
theorem Owned.lost_of_unbalanced (h : Owned s) (hq : quiet s) (hn : ¬ balanced s) : lost s := by
  obtain ⟨hpending, hwaiting, _⟩ := hq
  have hsignals : signals s = 0 := by simp [signals, hpending, hwaiting]
  have hsome : 0 < zombies s ∨ 0 < misses s := by
    unfold balanced at hn
    omega
  rcases hsome with hz | hm
  · obtain ⟨c, hc, hz⟩ := List.countP_pos_iff.mp hz
    obtain ⟨status, hlife⟩ := zombie_iff.mp hz
    exact ⟨c, hc, by simp [hlife], by simp [hlife], h.running c hc (by simp [hlife])⟩
  · obtain ⟨c, hc, hm⟩ := List.countP_pos_iff.mp hm
    have hlife : c.life = .missed := of_decide_eq_true hm
    exact ⟨c, hc, by simp [hlife], by simp [hlife], h.running c hc (by simp [hlife])⟩

/-- No run in which every exit is heard ends quiet with an exit lost, and where
no pid is given twice every other run that ends quiet has lost one. -/
theorem no_exit_lost {past : List (MonitorRun × MonitorEvent)} {s : MonitorRun}
    (h : system.Run past s) (hq : quiet s) :
    ((∀ p ∈ past, heard p.1 p.2) → ¬ lost s) ∧
      (distinct s → (¬ lost s ↔ ∀ p ∈ past, heard p.1 p.2)) := by
  have hbalanced := run_balanced_iff h
  refine ⟨fun hh => balanced_not_lost (hbalanced.mpr hh) hq, ?_⟩
  intro hd
  rw [← hbalanced]
  refine ⟨?_, fun hb => balanced_not_lost hb hq⟩
  intro hn
  by_cases hb : balanced s
  · exact hb
  · exact absurd ((run_owned h hd).lost_of_unbalanced hq hb) hn

/-- A child that exits after it was registered. -/
theorem no_exit_lost_registered :
    ∃ past s, system.Run past s ∧ quiet s ∧ distinct s ∧
      ((∀ p ∈ past, heard p.1 p.2) → ¬ lost s) ∧
      (distinct s → (¬ lost s ↔ ∀ p ∈ past, heard p.1 p.2)) := by
  have hrun : ∃ past s, follow step [] idle [.fork 0 100, .instance_ 0, .register 0,
      .exit 0 (some 0), .deliver, .reap 0, .lookup 0] = some (past, s) ∧
      s.pending = false ∧ s.waiting = 0 ∧
      s.children = [⟨100, 0, .recorded, .registered⟩] := ⟨_, _, rfl, rfl, rfl, rfl⟩
  obtain ⟨past, s, hfollow, hpending, hwaiting, hchildren⟩ := hrun
  have hrun : system.Run past s := (System.Run.start idle_initial).follow hfollow
  have hq : quiet s := ⟨hpending, hwaiting, by simp [hchildren]⟩
  exact ⟨past, s, hrun, hq, by simp [distinct, hchildren], no_exit_lost hrun hq⟩

/-- A child that exits before the first registration installs the handler. -/
theorem early_exit_lost : ∃ past s, system.Run past s ∧ quiet s ∧ lost s := by
  have hrun : ∃ past s, follow step [] idle [.fork 0 100, .exit 0 (some 0), .instance_ 0,
      .register 0] = some (past, s) ∧ s.pending = false ∧ s.waiting = 0 ∧
      s.children = [⟨100, 0, .zombie (some 0), .registered⟩] ∧
      (s.processes 0).running = true := ⟨_, _, rfl, rfl, rfl, rfl, rfl⟩
  obtain ⟨past, s, hfollow, hpending, hwaiting, hchildren, hrunning⟩ := hrun
  have hrun : system.Run past s := (System.Run.start idle_initial).follow hfollow
  have hmem : ⟨100, 0, .zombie (some 0), .registered⟩ ∈ s.children := by simp [hchildren]
  exact ⟨past, s, hrun, ⟨hpending, hwaiting, by simp [hchildren]⟩, _, hmem, by simp, by simp,
    hrunning⟩

end CkCore.Proofs.LostExit
