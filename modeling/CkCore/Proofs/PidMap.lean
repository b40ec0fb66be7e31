import CkCore.Model.ProcessLife
import CkCore.Proofs.LostExit

namespace CkCore.Proofs.PidMap
open Lib ProcessLife LostExit

/-- Every entry of pid_map_ is an object. -/
def Sound (s : ProcessLife) : Prop :=
  ∀ pid p, s.run.monitor.pidMap pid = some p → s.alive p = true

/-- The handler writes to an object, if to anything. -/
def WritesAlive (s : ProcessLife) (e : LifeEvent) : Prop :=
  ∀ p, s.writes e = some p → s.alive p = true

/-- The process the last child of the pid was registered for. -/
def latest (s : ProcessLife) (pid : Nat) : Option Nat :=
  (s.registrations.find? (·.1 == pid)).map Prod.snd

/-- No process is destroyed that is the last a pid was registered for. -/
def meets (s : ProcessLife) : LifeEvent → Prop
  | .destroy p => ∀ pid, latest s pid ≠ some p
  | _ => True

theorem latest_registered {s : ProcessLife} {pid p : Nat} (h : latest s pid = some p) :
    (pid, p) ∈ s.registrations := by
  obtain ⟨r, hr, rfl⟩ := Option.map_eq_some_iff.mp h
  obtain rfl : r.1 = pid := by simpa using List.find?_some hr
  exact List.mem_of_find?_eq_some hr

instance (s : ProcessLife) : DecidablePred (meets s)
  | .destroy p => decidable_of_iff (∀ r ∈ s.registrations, latest s r.1 ≠ some p)
    ⟨fun h _ hl => h _ (latest_registered hl) hl, fun h r _ => h r.1⟩
  | .construct _ | .createFails _ _ | .monitor _ | .launch _ _ | .hangUp _ | .finish _ |
      .otherExit | .other _ _ => isTrue trivial

/-- A child that create has yet to register is that of a process in create. -/
def Begun (creating : Nat → Bool) (children : List ForkedChild) : Prop :=
  ∀ c ∈ children, c.registration ≠ .registered → creating c.process = true

/-- What every run keeps: only objects create, and pid_map_ is what the
registrations made of it. -/
structure Ordered (s : ProcessLife) : Prop where
  begun : Begun s.creating s.run.children
  living : ∀ p, s.creating p = true → s.alive p = true
  mapped : ∀ pid, s.run.monitor.pidMap pid = latest s pid

section
variable {s s' : ProcessLife} {creating : Nat → Bool} {children : List ForkedChild}
  {c c' : ForkedChild} {child p : Nat} {e : LifeEvent}

theorem Begun.set (h : Begun creating children) (hc : children[child]? = some c)
    (hprocess : c'.process = c.process)
    (hregistered : c.registration = .registered → c'.registration = .registered) :
    Begun creating (children.set child c') := by
  intro d hd hn
  rcases List.mem_or_eq_of_mem_set hd with hd | rfl
  · exact h d hd hn
  · rw [hprocess]
    exact h c (List.mem_of_getElem? hc) (mt hregistered hn)

theorem Begun.fork (h : Begun creating children) (process pid : Nat) :
    Begun (Function.update creating process true)
      (children ++ [⟨pid, process, .alive, .monitor⟩]) := by
  intro d hd hn
  by_cases hp : d.process = process
  · rw [hp]
    exact Function.update_self ..
  · rw [Function.update_of_ne hp]
    rcases List.mem_append.mp hd with hd | hd
    · exact h d hd hn
    · cases List.mem_singleton.mp hd
      exact absurd rfl hp

theorem alive_update {alive : Nat → Bool} {q : Nat} (h : alive q = true) :
    Function.update alive p true q = true := by
  by_cases hq : q = p
  · rw [hq]
    exact Function.update_self ..
  · rwa [Function.update_of_ne hq]

/-- create returns once the child it forked is registered. -/
theorem Begun.returned (h : Begun creating children) {process : Nat}
    (hall : ∀ c ∈ children, c.process = process → c.registration = .registered) :
    Begun (Function.update creating process false) children := by
  intro d hd hn
  rw [Function.update_of_ne fun hp => hn (hall d hd hp)]
  exact h d hd hn

theorem latest_cons (s : ProcessLife) (pid process : Nat) :
    (fun id => (((pid, process) :: s.registrations).find? (·.1 == id)).map Prod.snd) =
      Function.update (latest s) pid (some process) := by
  funext id
  by_cases hid : pid = id
  · subst hid
    simp
  · simp [hid, Function.update_of_ne (Ne.symm hid), latest]

theorem monitor_cases {e : MonitorEvent} (hs : s.step (.monitor e) = some s') :
    s.permits e ∧ ∃ run, s.run.step e = some run ∧
      s' = { s with run := run, creating := s.begun e, registrations := s.recorded e } := by
  obtain ⟨hpermits, hs⟩ := Option.ite_none_right_eq_some.mp hs
  obtain ⟨run, hrun, rfl⟩ := Option.map_eq_some_iff.mp hs
  exact ⟨hpermits, run, hrun, rfl⟩

theorem fork_cases {run : MonitorRun} {process pid : Nat}
    (hs : s.run.fork process pid = some run) :
    run.children = s.run.children ++ [⟨pid, process, .alive, .monitor⟩] ∧
      run.monitor = s.run.monitor := by
  obtain ⟨_, hs⟩ := Option.ite_none_left_eq_some.mp hs
  cases hs
  exact ⟨rfl, rfl⟩

/-- Of a step of the monitor only a registration changes pid_map_. -/
theorem Ordered.monitor (h : Ordered s) {e : MonitorEvent}
    (hs : s.step (.monitor e) = some s') : Ordered s' := by
  obtain ⟨hpermits, run, hrun, rfl⟩ := monitor_cases hs
  cases e with
  | fork process pid =>
    obtain ⟨hchildren, hmonitor⟩ := fork_cases hrun
    refine ⟨?_, ?_, ?_⟩
    · rw [hchildren]
      exact h.begun.fork process pid
    · intro p hp
      by_cases hsame : p = process
      · rw [hsame]
        exact hpermits.1
      · refine h.living p ?_
        simpa [ProcessLife.begun, Function.update_of_ne hsame] using hp
    · rw [hmonitor]
      exact h.mapped
  | instance_ child =>
    obtain ⟨c, hc, hstage, rfl⟩ := instance_cases hrun
    exact ⟨h.begun.set hc rfl fun hr => by simp [hstage] at hr, h.living, h.mapped⟩
  | register child =>
    obtain ⟨c, hc, _, rfl⟩ := register_cases hrun
    refine ⟨h.begun.set hc rfl fun _ => rfl, h.living, ?_⟩
    intro pid
    have hlatest := congrFun (latest_cons s c.pid c.process) pid
    simp only [latest, recorded, hc, ProcessMonitor.registerProcess]
    rw [hlatest, funext h.mapped]
  | exit child status =>
    obtain ⟨c, hc, _, rfl⟩ := exit_cases hrun
    exact ⟨h.begun.set hc rfl id, h.living, h.mapped⟩
  | deliver =>
    obtain ⟨_, hrun⟩ := Option.ite_none_right_eq_some.mp hrun
    cases hrun
    exact ⟨h.begun, h.living, h.mapped⟩
  | reap child =>
    obtain ⟨c, _, hc, _, _, rfl⟩ := reap_cases hrun
    exact ⟨h.begun.set hc rfl id, h.living, h.mapped⟩
  | waitFails =>
    obtain ⟨_, hrun⟩ := Option.ite_none_right_eq_some.mp hrun
    cases hrun
    exact ⟨h.begun, h.living, h.mapped⟩
  | lookup child =>
    obtain ⟨c, _, hc, _, rfl⟩ := lookup_cases hrun
    exact ⟨h.begun.set hc rfl id, h.living, h.mapped⟩

/-- No object comes or goes, no create begins or ends and no entry changes. -/
structure Same (s s' : ProcessLife) : Prop where
  alive : s'.alive = s.alive
  creating : s'.creating = s.creating
  children : s'.run.children = s.run.children
  pidMap : s'.run.monitor.pidMap = s.run.monitor.pidMap
  registrations : s'.registrations = s.registrations

/-- A create without a child, the listener and the other children. -/
def aside : LifeEvent → Prop
  | .createFails _ _ | .hangUp _ | .finish _ | .otherExit | .other _ _ => True
  | .construct _ | .destroy _ | .monitor _ | .launch _ _ => False

theorem aside_same (hs : s.step e = some s') (he : aside e) : Same s s' := by
  cases e with
  | createFails | hangUp | finish | other =>
    obtain ⟨_, hs⟩ := Option.ite_none_right_eq_some.mp hs
    cases hs
    exact ⟨rfl, rfl, rfl, rfl, rfl⟩
  | otherExit =>
    cases hs
    exact ⟨rfl, rfl, rfl, rfl, rfl⟩
  | construct | destroy | monitor | launch => exact he.elim

theorem Ordered.same (h : Ordered s) (hs : Same s s') : Ordered s' := by
  refine ⟨?_, ?_, ?_⟩
  · rw [hs.creating, hs.children]
    exact h.begun
  · rw [hs.creating, hs.alive]
    exact h.living
  · intro pid
    rw [hs.pidMap, latest, hs.registrations]
    exact h.mapped pid

theorem Sound.same (h : Sound s) (hs : Same s s') : Sound s' := by
  intro pid p hp
  rw [hs.alive]
  exact h pid p (hs.pidMap ▸ hp)

theorem construct_cases (hs : s.step (.construct p) = some s') :
    s' = { s.put p Process.construct with alive := Function.update s.alive p true } := by
  obtain ⟨_, hs⟩ := Option.ite_none_left_eq_some.mp hs
  exact (Option.some.inj hs).symm

theorem destroy_cases (hs : s.step (.destroy p) = some s') :
    s.creating p = false ∧ s' = { s.put p (s.run.processes p).close with
      alive := Function.update s.alive p false } := by
  obtain ⟨⟨_, hcreating, _⟩, hs⟩ := Option.ite_none_right_eq_some.mp hs
  exact ⟨hcreating, (Option.some.inj hs).symm⟩

/-- What a launch leaves as it was. -/
theorem launch_cases {created : Bool} (hs : s.step (.launch p created) = some s') :
    (∀ c ∈ s.run.children, c.process = p → c.registration = .registered) ∧
      s'.creating = Function.update s.creating p false ∧ s'.alive = s.alive ∧
      s'.run.children = s.run.children ∧ s'.run.monitor = s.run.monitor ∧
      s'.registrations = s.registrations := by
  obtain ⟨⟨_, _, hall⟩, hs⟩ := Option.ite_none_right_eq_some.mp hs
  cases created <;> cases hs <;> exact ⟨hall, rfl, rfl, rfl, rfl, rfl⟩

theorem Ordered.step (h : Ordered s) (hs : s.step e = some s') : Ordered s' := by
  cases e with
  | construct p =>
    rw [construct_cases hs]
    refine ⟨h.begun, ?_, h.mapped⟩
    intro q hq
    exact alive_update (h.living q hq)
  | destroy p =>
    obtain ⟨hcreating, rfl⟩ := destroy_cases hs
    refine ⟨h.begun, ?_, h.mapped⟩
    intro q hq
    have hne : q ≠ p := by
      rintro rfl
      exact Bool.false_ne_true (hcreating.symm.trans hq)
    exact (Function.update_of_ne hne _ _).trans (h.living q hq)
  | monitor e => exact h.monitor hs
  | launch p created =>
    obtain ⟨hall, hcreating, halive, hchildren, hmonitor, hrecord⟩ := launch_cases hs
    refine ⟨?_, ?_, ?_⟩
    · rw [hcreating, hchildren]
      exact h.begun.returned hall
    · rw [hcreating, halive]
      intro q hq
      by_cases hqp : q = p
      · simp [hqp] at hq
      · exact h.living q (by rwa [Function.update_of_ne hqp] at hq)
    · intro pid
      rw [hmonitor, latest, hrecord]
      exact h.mapped pid
  | createFails | hangUp | finish | otherExit | other => exact h.same (aside_same hs trivial)

/-- An entry a monitor step leaves is an old one or that of a process in create. -/
theorem Ordered.sound_monitor (h : Ordered s) (hsound : Sound s) {e : MonitorEvent}
    (hs : s.step (.monitor e) = some s') : Sound s' := by
  have h' := h.monitor hs
  obtain ⟨_, run, hrun, rfl⟩ := monitor_cases hs
  cases e with
  | register child =>
    obtain ⟨c, hc, hstage, rfl⟩ := register_cases hrun
    have hcreating : s.creating c.process = true :=
      h.begun c (List.mem_of_getElem? hc) (by simp [hstage])
    intro pid p hp
    by_cases hpid : pid = c.pid
    · rw [hpid] at hp
      cases (Function.update_self c.pid _ s.run.monitor.pidMap).symm.trans hp
      exact h.living c.process hcreating
    · exact hsound pid p ((Function.update_of_ne hpid _ _).symm.trans hp)
  | fork | instance_ | exit | deliver | reap | waitFails | lookup =>
    intro pid p hp
    have hlatest : latest s pid = some p := (h'.mapped pid).symm.trans hp
    exact hsound pid p ((h.mapped pid).trans hlatest)

/-- The destructor leaves the entries as they are. -/
theorem Ordered.sound_destroy (h : Ordered s) (hsound : Sound s)
    (hs : s.step (.destroy p) = some s') : Sound s' ↔ ∀ pid, latest s pid ≠ some p := by
  obtain ⟨_, rfl⟩ := destroy_cases hs
  constructor
  · intro hsound' pid hlatest
    have halive := hsound' pid p ((h.mapped pid).trans hlatest)
    exact Bool.false_ne_true ((Function.update_self p false s.alive).symm.trans halive)
  · intro hnone pid q hq
    have hne : q ≠ p := by
      rintro rfl
      exact hnone pid ((h.mapped pid).symm.trans hq)
    exact (Function.update_of_ne hne _ _).trans (hsound pid q hq)

theorem Ordered.sound_iff (h : Ordered s) (hsound : Sound s) (hs : s.step e = some s') :
    Sound s' ↔ meets s e := by
  cases e with
  | construct p =>
    rw [construct_cases hs]
    exact iff_of_true (fun pid q hq => alive_update (hsound pid q hq)) trivial
  | destroy p => exact h.sound_destroy hsound hs
  | monitor e => exact iff_of_true (h.sound_monitor hsound hs) trivial
  | launch p created =>
    obtain ⟨_, _, halive, _, hmonitor, _⟩ := launch_cases hs
    refine iff_of_true (fun pid q hq => ?_) trivial
    rw [halive]
    exact hsound pid q (hmonitor ▸ hq)
  | createFails | hangUp | finish | otherExit | other =>
    exact iff_of_true (hsound.same (aside_same hs trivial)) trivial

/-- The handler only writes where an entry leads. -/
theorem Sound.writes (h : Sound s) (e : LifeEvent) : WritesAlive s e := by
  intro p hp
  cases e with
  | monitor e =>
    cases e with
    | lookup child =>
      obtain ⟨c, _, hp⟩ := Option.bind_eq_some_iff.mp hp
      exact h c.pid p hp
    | fork | instance_ | register | exit | deliver | reap | waitFails => cases hp
  | other pid status => exact h pid p hp
  | construct | destroy | createFails | launch | hangUp | finish | otherExit => cases hp

theorem initial_sound (h : Initial s) : Ordered s ∧ Sound s := by
  have hmap : s.run.monitor.pidMap = fun _ => none := h.run.pidMap
  refine ⟨⟨?_, ?_, ?_⟩, ?_⟩
  · simp [Begun, h.run.children]
  · simp [h.creating]
  · simp [hmap, latest, h.registrations]
  · simp [Sound, hmap]

end
end CkCore.Proofs.PidMap
