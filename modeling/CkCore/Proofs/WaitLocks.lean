import CkCore.Lib.Census
import CkCore.Model.LockedWait

namespace CkCore.Proofs.WaitLocks
open Lib CkCore.LockedWait

/-- The places with the mutex. -/
def holds : WaitPlace → Bool
  | .inside | .entering _ | .releasing _ | .calling _ true | .signalling _ true
  | .signalled true => true
  | _ => false

/-- The places with the internal mutex. -/
def keeps : WaitPlace → Bool
  | .releasing _ | .counting _ _ | .awake _ _ _ | .leaving _ | .signalling _ _
  | .signalled _ => true
  | _ => false

/-- Each mutex has the holder it is locked for. -/
structure Locked (s : LockedWait) : Prop where
  mutex : ∀ t, s.mutex = some t ↔ ∃ x, s.places[t]? = some x ∧ holds x = true
  internal : ∀ t, s.internal = some t ↔ ∃ x, s.places[t]? = some x ∧ keeps x = true

/-- The next step of a thread changes its own place and takes or gives up what
the new place has or has no longer. -/
structure Turn (s s' : LockedWait) (t : Nat) (x y : WaitPlace) : Prop where
  cell : s.places[t]? = some x
  places : s'.places = s.places.set t y
  mutex : (holds y = holds x ∧ s'.mutex = s.mutex) ∨
    (holds x = true ∧ holds y = false ∧ s'.mutex = none) ∨
    (holds y = true ∧ s.mutex = none ∧ s'.mutex = some t)
  internal : (keeps y = keeps x ∧ s'.internal = s.internal) ∨
    (keeps x = true ∧ keeps y = false ∧ s'.internal = none) ∨
    (keeps y = true ∧ s.internal = none ∧ s'.internal = some t)

/-- The turns that take or give up a mutex or begin a call, and nothing else. -/
inductive Slips : Event → WaitPlace → WaitPlace → Prop where
  | lock (t : Nat) : Slips (.lock t) .outside .inside
  | unlock (t : Nat) : Slips (.unlock t) .inside .outside
  | wait (t timeout : Nat) : Slips (.wait t timeout) .inside (.entering timeout)
  | signal (t : Nat) (all : Bool) : Slips (.signal t all) .outside (.calling all false)
  | signalWithin (t : Nat) (all : Bool) : Slips (.signal t all) .inside (.calling all true)
  | enter (t timeout : Nat) : Slips (.go t) (.entering timeout) (.releasing timeout)
  | leave (t : Nat) (res : Bool) : Slips (.go t) (.leaving res) (.relocking res)
  | relock (t : Nat) (res : Bool) : Slips (.go t) (.relocking res) .inside
  | call (t : Nat) (all within : Bool) :
      Slips (.go t) (.calling all within) (.signalling all within)
  | back (t : Nat) : Slips (.go t) (.signalled false) .outside
  | backWithin (t : Nat) : Slips (.go t) (.signalled true) .inside

/-- A step slips on, which leaves the counters, the unblocked threads and the
calls of wait alone, or it is a section that does not. -/
inductive Does (s : LockedWait) : Event → WaitPlace → LockedWait → Prop where
  | slips {e : Event} {x y : WaitPlace} {s' : LockedWait} (slip : Slips e x y)
      (places : s'.places = s.places.set e.thread y) (cond : s'.cond = s.cond)
      (woken : s'.woken = s.woken) (begun : s'.begun = s.begun) : Does s e x s'
  | wakes (t : Nat) {call timeout : Nat} {expired : Bool}
      (limit : ¬ (expired = true ∧ timeout = ThreadPool.unlimited)) :
      Does s (.wake t expired) (.asleep call timeout)
        ({ s with internal := some t, woken := s.woken.erase t }.put t
          (.awake call timeout expired))
  | releases (t timeout : Nat) : Does s (.go t) (.releasing timeout)
      ({ s with mutex := none, begun := s.begun + 1 }.put t (.counting s.begun timeout))
  | counts (t call timeout : Nat) : Does s (.go t) (.counting call timeout)
      ({ s with internal := none, cond := s.cond.enter }.put t (.asleep call timeout))
  | checks (t call timeout : Nat) (expired : Bool) : Does s (.go t) (.awake call timeout expired)
      (s.check t call timeout expired)
  | issues (t : Nat) (chosen : List Nat) (all within : Bool) : Does s (.issue t chosen)
      (.signalling all within) (s.issue t chosen all within)

/-- The steps of operations in progress: threads go on, issue their signals and
leave the mutex, and threads that a signal has unblocked come back. -/
def quiet (s : LockedWait) : Event → Prop
  | .go _ | .unlock _ | .issue _ _ => True
  | .wake t expired => expired = false ∧ t ∈ s.woken
  | _ => False

/-- No operation is in progress, except calls of wait that no signal has
unblocked. -/
def finished (s : LockedWait) : Prop :=
  ∀ t x, s.places[t]? = some x → x = .outside ∨ x.sleeps = true ∧ t ∉ s.woken

def timesOut : Event → Bool
  | .wake _ expired => expired
  | _ => false

/-- The waits that ran out of time. -/
def timeouts (past : List (LockedWait × Event)) : Nat := past.countP fun p => timesOut p.2

/-- How far a thread is from its end, among as many threads; a signal may still
unblock them all, and a thread that comes back may go to sleep again. -/
def toil (threads : Nat) : WaitPlace → Nat
  | .outside => 0
  | .inside => 1
  | .relocking _ | .signalled _ => 2
  | .leaving _ => 3
  | .signalling _ _ => 3 + 2 * threads
  | .calling _ _ => 4 + 2 * threads
  | .asleep _ _ => 5
  | .awake _ _ _ => 6
  | .counting _ _ => 7
  | .releasing _ => 8
  | .entering _ => 9

def work (s : LockedWait) : Nat :=
  weight (toil s.places.length) s.places + 2 * s.woken.length

def overdue : WaitPlace → Bool
  | .awake _ _ expired => expired
  | _ => false

def resumed : WaitPlace → Bool
  | .awake _ _ expired => !expired
  | _ => false

/-- Each recorded wake-up is for a thread that is unblocked or back, but for those
left over by as many waits as ran out of time. -/
structure Spent (n : Nat) (s : LockedWait) : Prop where
  late : s.places.countP overdue ≤ n
  wakeups : s.cond.wakeups ≤ s.woken.length + s.places.countP resumed + n

/-- The unblocked threads still sleep. -/
structure Unblocked (s : LockedWait) : Prop where
  sleeps : ∀ t ∈ s.woken, ∃ x, s.places[t]? = some x ∧ x.sleeps = true
  once : s.woken.Nodup

/-- The places of a call of wait behind the release of the mutex, and those of
them that waiters_ counts. -/
def released : WaitPlace → Bool
  | .counting _ _ | .asleep _ _ | .awake _ _ _ => true
  | _ => false

def counted : WaitPlace → Bool
  | .asleep _ _ | .awake _ _ _ => true
  | _ => false

/-- waiters_ is what it is taken for, and no wake-up is for a thread there is not. -/
structure Tallied (s : LockedWait) : Prop where
  waiters : s.cond.waiters = s.places.countP counted
  wakeups : s.cond.wakeups ≤ s.places.length

section
variable {s s' : LockedWait} {t call timeout : Nat} {expired : Bool} {x y : WaitPlace} {e : Event}

theorem step_cases (h : s.step e = some s') :
    ∃ x, s.places[e.thread]? = some x ∧ s.act e.thread x e = some s' := by
  unfold LockedWait.step at h
  split at h
  · cases h
  · next x hx => exact ⟨x, hx, h⟩

/-- A turn with the internal mutex that changes the counters. -/
theorem cond_turn (hx : s.places[t]? = some x) (y : WaitPlace) (c : WaitCondition)
    (hy : holds y = holds x) (hk : keeps y = keeps x) :
    Turn s ({ s with cond := c }.put t y) t x y :=
  ⟨hx, rfl, Or.inl ⟨hy, rfl⟩, Or.inl ⟨hk, rfl⟩⟩

theorem check_turn (hx : s.places[t]? = some (.awake call timeout expired)) :
    ∃ y, Turn s (s.check t call timeout expired) t (.awake call timeout expired) y := by
  unfold check
  split
  · exact ⟨_, cond_turn hx (.leaving false) _ rfl rfl⟩
  · split
    · exact ⟨.asleep call timeout, hx, rfl, Or.inl ⟨rfl, rfl⟩, Or.inr (Or.inl ⟨rfl, rfl, rfl⟩)⟩
    · exact ⟨_, cond_turn hx (.leaving true) _ rfl rfl⟩

theorem go_turn (hx : s.places[t]? = some x) (h : s.go t x = some s') : ∃ y, Turn s s' t x y := by
  cases x with
  | outside | inside => cases h
  | asleep | signalling => cases h
  | entering timeout =>
    obtain ⟨hfree, h⟩ := Option.ite_none_right_eq_some.mp h
    cases h
    exact ⟨.releasing timeout, hx, rfl, Or.inl ⟨rfl, rfl⟩, Or.inr (Or.inr ⟨rfl, hfree, rfl⟩)⟩
  | releasing timeout =>
    cases h
    exact ⟨.counting s.begun timeout, hx, rfl, Or.inr (Or.inl ⟨rfl, rfl, rfl⟩), Or.inl ⟨rfl, rfl⟩⟩
  | counting call timeout =>
    cases h
    exact ⟨.asleep call timeout, hx, rfl, Or.inl ⟨rfl, rfl⟩, Or.inr (Or.inl ⟨rfl, rfl, rfl⟩)⟩
  | awake call timeout expired =>
    cases h
    exact check_turn hx
  | leaving res =>
    cases h
    exact ⟨.relocking res, hx, rfl, Or.inl ⟨rfl, rfl⟩, Or.inr (Or.inl ⟨rfl, rfl, rfl⟩)⟩
  | relocking res =>
    obtain ⟨hfree, h⟩ := Option.ite_none_right_eq_some.mp h
    cases h
    exact ⟨.inside, hx, rfl, Or.inr (Or.inr ⟨rfl, hfree, rfl⟩), Or.inl ⟨rfl, rfl⟩⟩
  | calling all within =>
    obtain ⟨hfree, h⟩ := Option.ite_none_right_eq_some.mp h
    cases h
    exact ⟨.signalling all within, hx, rfl, Or.inl ⟨by cases within <;> rfl, rfl⟩,
      Or.inr (Or.inr ⟨rfl, hfree, rfl⟩)⟩
  | signalled within =>
    cases h
    cases within with
    | true => exact ⟨.inside, hx, rfl, Or.inl ⟨rfl, rfl⟩, Or.inr (Or.inl ⟨rfl, rfl, rfl⟩)⟩
    | false => exact ⟨.outside, hx, rfl, Or.inl ⟨rfl, rfl⟩, Or.inr (Or.inl ⟨rfl, rfl, rfl⟩)⟩

theorem step_wake (hx : s.places[t]? = some x)
    (h : s.act t x (.wake t expired) = some s') : ∃ call timeout, x = .asleep call timeout ∧
      s.internal = none ∧ ¬ (expired = true ∧ timeout = ThreadPool.unlimited) ∧
      s' = { s with internal := some t, woken := s.woken.erase t }.put t
        (.awake call timeout expired) := by
  simp only [act] at h
  split at h
  · next call timeout =>
    obtain ⟨⟨hfree, hlimit⟩, h⟩ := Option.ite_none_right_eq_some.mp h
    exact ⟨call, timeout, rfl, hfree, hlimit, (Option.some.inj h).symm⟩
  · cases h

theorem step_issue {chosen : List Nat} (h : s.act t x (.issue t chosen) = some s') :
    ∃ all within, x = .signalling all within ∧ s' = s.issue t chosen all within := by
  simp only [act] at h
  split at h
  · next all within => exact ⟨all, within, rfl, (Option.some.inj h).symm⟩
  · cases h

theorem step_turn (h : s.step e = some s') : ∃ x y, Turn s s' e.thread x y := by
  obtain ⟨x, hx, h⟩ := step_cases h
  cases e with
  | lock t =>
    obtain ⟨⟨rfl, hfree⟩, hn⟩ := Option.ite_none_right_eq_some.mp h
    cases hn
    exact ⟨_, .inside, hx, rfl, Or.inr (Or.inr ⟨rfl, hfree, rfl⟩), Or.inl ⟨rfl, rfl⟩⟩
  | unlock t =>
    obtain ⟨rfl, hn⟩ := Option.ite_none_right_eq_some.mp h
    cases hn
    exact ⟨_, .outside, hx, rfl, Or.inr (Or.inl ⟨rfl, rfl, rfl⟩), Or.inl ⟨rfl, rfl⟩⟩
  | wait t timeout =>
    obtain ⟨rfl, hn⟩ := Option.ite_none_right_eq_some.mp h
    cases hn
    exact ⟨_, .entering timeout, hx, rfl, Or.inl ⟨rfl, rfl⟩, Or.inl ⟨rfl, rfl⟩⟩
  | signal t all =>
    simp only [act] at h
    split at h
    · next hin =>
      subst hin
      cases h
      exact ⟨_, .calling all true, hx, rfl, Or.inl ⟨rfl, rfl⟩, Or.inl ⟨rfl, rfl⟩⟩
    · obtain ⟨rfl, hn⟩ := Option.ite_none_right_eq_some.mp h
      cases hn
      exact ⟨_, .calling all false, hx, rfl, Or.inl ⟨rfl, rfl⟩, Or.inl ⟨rfl, rfl⟩⟩
  | wake t expired =>
    obtain ⟨call, timeout, rfl, hfree, _, rfl⟩ := step_wake hx h
    exact ⟨_, .awake call timeout expired, hx, rfl, Or.inl ⟨rfl, rfl⟩,
      Or.inr (Or.inr ⟨rfl, hfree, rfl⟩)⟩
  | issue t chosen =>
    obtain ⟨all, within, rfl, rfl⟩ := step_issue h
    exact ⟨_, .signalled within, hx, rfl, Or.inl ⟨by cases within <;> rfl, rfl⟩,
      Or.inl ⟨rfl, rfl⟩⟩
  | go t =>
    obtain ⟨y, hy⟩ := go_turn hx h
    exact ⟨x, y, hy⟩

theorem go_does (h : s.go t x = some s') : Does s (.go t) x s' := by
  cases x with
  | outside | inside => cases h
  | asleep | signalling => cases h
  | entering timeout =>
    obtain ⟨_, h⟩ := Option.ite_none_right_eq_some.mp h
    cases h
    exact .slips (.enter t timeout) rfl rfl rfl rfl
  | releasing timeout =>
    cases h
    exact .releases t timeout
  | counting call timeout =>
    cases h
    exact .counts t call timeout
  | awake call timeout expired =>
    cases h
    exact .checks t call timeout expired
  | leaving res =>
    cases h
    exact .slips (.leave t res) rfl rfl rfl rfl
  | relocking res =>
    obtain ⟨_, h⟩ := Option.ite_none_right_eq_some.mp h
    cases h
    exact .slips (.relock t res) rfl rfl rfl rfl
  | calling all within =>
    obtain ⟨_, h⟩ := Option.ite_none_right_eq_some.mp h
    cases h
    exact .slips (.call t all within) rfl rfl rfl rfl
  | signalled within =>
    cases h
    cases within with
    | true => exact .slips (.backWithin t) rfl rfl rfl rfl
    | false => exact .slips (.back t) rfl rfl rfl rfl

theorem step_does (h : s.step e = some s') :
    ∃ x, s.places[e.thread]? = some x ∧ Does s e x s' := by
  obtain ⟨x, hx, h⟩ := step_cases h
  refine ⟨x, hx, ?_⟩
  cases e with
  | lock t =>
    obtain ⟨⟨rfl, _⟩, hn⟩ := Option.ite_none_right_eq_some.mp h
    cases hn
    exact .slips (.lock t) rfl rfl rfl rfl
  | unlock t =>
    obtain ⟨rfl, hn⟩ := Option.ite_none_right_eq_some.mp h
    cases hn
    exact .slips (.unlock t) rfl rfl rfl rfl
  | wait t timeout =>
    obtain ⟨rfl, hn⟩ := Option.ite_none_right_eq_some.mp h
    cases hn
    exact .slips (.wait t timeout) rfl rfl rfl rfl
  | signal t all =>
    simp only [act] at h
    split at h
    · next hin =>
      subst hin
      cases h
      exact .slips (.signalWithin t all) rfl rfl rfl rfl
    · obtain ⟨rfl, hn⟩ := Option.ite_none_right_eq_some.mp h
      cases hn
      exact .slips (.signal t all) rfl rfl rfl rfl
  | wake t expired =>
    obtain ⟨call, timeout, rfl, _, hlimit, rfl⟩ := step_wake hx h
    exact .wakes t hlimit
  | issue t chosen =>
    obtain ⟨all, within, rfl, rfl⟩ := step_issue h
    exact .issues t chosen all within
  | go t => exact go_does h

/-- A mutex that changes hands only as the places of the threads say. -/
theorem owner_turn {has : WaitPlace → Bool} {owner owner' : Option Nat}
    {places : List WaitPlace} (h : ∀ u, owner = some u ↔ ∃ z, places[u]? = some z ∧ has z = true)
    (hx : places[t]? = some x) (hturn : (has y = has x ∧ owner' = owner) ∨
      (has x = true ∧ has y = false ∧ owner' = none) ∨
      (has y = true ∧ owner = none ∧ owner' = some t)) (u : Nat) :
    owner' = some u ↔ ∃ z, (places.set t y)[u]? = some z ∧ has z = true := by
  have hlt := (List.getElem?_eq_some_iff.mp hx).1
  by_cases hu : u = t
  · subst hu
    have hcell : (∃ z, (places.set u y)[u]? = some z ∧ has z = true) ↔ has y = true := by
      rw [List.getElem?_set_self hlt]
      simp
    have hold : owner = some u ↔ has x = true := by
      rw [h u, hx]
      simp
    rw [hcell]
    rcases hturn with ⟨hsame, rfl⟩ | ⟨_, hno, rfl⟩ | ⟨hyes, _, rfl⟩
    · rw [hsame]
      exact hold
    · rw [hno]
      exact ⟨nofun, nofun⟩
    · exact iff_of_true rfl hyes
  · rw [List.getElem?_set_ne fun he => hu he.symm, ← h u]
    rcases hturn with ⟨_, rfl⟩ | ⟨hyes, _, rfl⟩ | ⟨_, hfree, rfl⟩
    · exact Iff.rfl
    · have hold : owner = some t := (h t).mpr ⟨x, hx, hyes⟩
      rw [hold]
      exact ⟨nofun, fun he => absurd (Option.some.inj he).symm hu⟩
    · rw [hfree]
      exact ⟨fun he => absurd (Option.some.inj he).symm hu, nofun⟩

theorem step_locked (h : Locked s) (hs : s.step e = some s') : Locked s' := by
  obtain ⟨x, y, hcell, hplaces, hmutex, hinternal⟩ := step_turn hs
  constructor
  · rw [hplaces]
    exact owner_turn h.mutex hcell hmutex
  · rw [hplaces]
    exact owner_turn h.internal hcell hinternal

theorem create_locked (threads : Nat) : Locked (create threads) := by
  have hout : ∀ (u : Nat) (x : WaitPlace), (create threads).places[u]? = some x → x = .outside := by
    intro u x hx
    exact List.eq_of_mem_replicate (List.mem_of_getElem? hx)
  constructor
  · intro u
    refine ⟨nofun, ?_⟩
    rintro ⟨x, hx, hyes⟩
    rw [hout u x hx] at hyes
    cases hyes
  · intro u
    refine ⟨nofun, ?_⟩
    rintro ⟨x, hx, hyes⟩
    rw [hout u x hx] at hyes
    cases hyes

theorem run_locked {past : List (LockedWait × Event)} (h : system.Run past s) : Locked s := by
  refine h.invariant (I := Locked) ?_ ?_
  · rintro s ⟨threads, rfl⟩
    exact create_locked threads
  · intro s e s' hl hs
    exact step_locked hl hs

/-- A thread with the internal mutex is the only one. -/
theorem Locked.alone (h : Locked s) (hx : s.places[t]? = some x) (hk : keeps x = true) {u : Nat}
    (hy : s.places[u]? = some y) (hy' : keeps y = true) : u = t := by
  have ht := (h.internal t).mpr ⟨x, hx, hk⟩
  have hu := (h.internal u).mpr ⟨y, hy, hy'⟩
  rw [ht] at hu
  exact (Option.some.inj hu).symm

theorem enter_wakeups (c : WaitCondition) : c.enter.wakeups = c.wakeups := by
  obtain ⟨waiters, wakeups⟩ := c
  exact Eq.refl wakeups

theorem mem_blocked : t ∈ s.blocked ↔
    (∃ x, s.places[t]? = some x ∧ x.sleeps = true) ∧ t ∉ s.woken := by
  unfold blocked
  rw [List.mem_filter, List.mem_findIdxs_iff_exists_getElem_pos, decide_eq_true_eq]
  refine and_congr_left fun _ => ⟨?_, ?_⟩
  · rintro ⟨hlt, hsleeps⟩
    exact ⟨_, List.getElem?_eq_getElem hlt, hsleeps⟩
  · rintro ⟨x, hx, hsleeps⟩
    obtain ⟨hlt, rfl⟩ := List.getElem?_eq_some_iff.mp hx
    exact ⟨hlt, hsleeps⟩

theorem unblocked_blocked {all : Bool} {chosen : List Nat} (h : t ∈ s.unblocked all chosen) :
    t ∈ s.blocked := by
  unfold unblocked at h
  dsimp only at h
  split at h
  · exact h
  · split at h
    · exact List.mem_of_mem_take h
    · exact List.mem_of_mem_filter h

theorem blocked_nodup (s : LockedWait) : s.blocked.Nodup :=
  List.nodup_findIdxs.filter _

theorem unblocked_nodup (s : LockedWait) (all : Bool) (chosen : List Nat) :
    (s.unblocked all chosen).Nodup := by
  unfold unblocked
  dsimp only
  split
  · exact blocked_nodup s
  · split
    · exact (blocked_nodup s).sublist (List.take_sublist 1 _)
    · exact (blocked_nodup s).filter _

/-- No more threads can be unblocked than there are. -/
theorem unblocked_length (s : LockedWait) (all : Bool) (chosen : List Nat) :
    (s.unblocked all chosen).length ≤ s.places.length := by
  have hmost : (s.unblocked all chosen).length ≤ s.blocked.length :=
    (unblocked_nodup s all chosen).length_le_of_subset fun _ ht => unblocked_blocked ht
  have hfilter : s.blocked.length ≤ s.places.countP WaitPlace.sleeps := by
    rw [← List.length_findIdxs (s := 0)]
    exact List.length_filter_le _ _
  exact Nat.le_trans hmost (Nat.le_trans hfilter List.countP_le_length)

/-- A turn that leaves its thread less to do than it may unblock others. -/
theorem turn_less (hx : s.places[t]? = some x) (hplaces : s'.places = s.places.set t y)
    (hless : toil s.places.length y + 2 * s'.woken.length <
      toil s.places.length x + 2 * s.woken.length) : work s' < work s := by
  have hweight := weight_set (toil s.places.length) hx y
  unfold work
  rw [hplaces, List.length_set]
  omega

/-- A turn that unblocks nobody. -/
theorem same_less (hx : s.places[t]? = some x) (hplaces : s'.places = s.places.set t y)
    (hwoken : s'.woken = s.woken) (hless : toil s.places.length y < toil s.places.length x) :
    work s' < work s := by
  refine turn_less hx hplaces ?_
  rw [hwoken]
  omega

theorem cond_woken (c : WaitCondition) : ({ s with cond := c }.put t y).woken = s.woken := rfl

theorem cond_places (c : WaitCondition) :
    ({ s with cond := c }.put t y).places = s.places.set t y := rfl

theorem check_less (hx : s.places[t]? = some (.awake call timeout expired)) :
    work (s.check t call timeout expired) < work s := by
  unfold check
  split
  · exact same_less hx (y := .leaving false) rfl (cond_woken _) (by simp [toil])
  · split
    · exact same_less hx (y := .asleep call timeout) rfl rfl (by simp [toil])
    · exact same_less hx (y := .leaving true) rfl (cond_woken _) (by simp [toil])

theorem Slips.less (h : Slips e x y) (hquiet : quiet s e) (threads : Nat) :
    toil threads y < toil threads x := by
  cases h with
  | lock | wait | signal | signalWithin => exact hquiet.elim
  | unlock | enter | leave | relock | back | backWithin => simp [toil]
  | call => exact Nat.add_lt_add_right (by decide) _

theorem quiet_less (hquiet : quiet s e) (hs : s.step e = some s') : work s' < work s := by
  obtain ⟨x, hx, hdoes⟩ := step_does hs
  cases hdoes with
  | slips hslip hplaces _ hwoken => exact same_less hx hplaces hwoken (hslip.less hquiet _)
  | @wakes t call timeout expired =>
    obtain ⟨_, hin⟩ := hquiet
    refine turn_less hx (y := .awake call timeout expired) rfl ?_
    have hone := List.length_erase_of_mem hin
    have hpos := List.length_pos_of_mem hin
    change 6 + 2 * (s.woken.erase t).length < 5 + 2 * s.woken.length
    omega
  | releases t timeout =>
    exact same_less hx (y := .counting s.begun timeout) rfl rfl (by simp [toil])
  | counts t call timeout =>
    exact same_less hx (y := .asleep call timeout) rfl rfl (by simp [toil])
  | checks t call timeout expired => exact check_less hx
  | issues t chosen all within =>
    refine turn_less hx (y := .signalled within) rfl ?_
    have hmost := unblocked_length s all chosen
    change 2 + 2 * (s.woken ++ s.unblocked all chosen).length <
      3 + 2 * s.places.length + 2 * s.woken.length
    rw [List.length_append]
    omega

theorem step_go (hx : s.places[t]? = some x) : s.step (.go t) = s.go t x := by
  simp only [LockedWait.step, Event.thread, hx, act]

/-- Nothing keeps a thread with the internal mutex. -/
theorem keeper_moves (hx : s.places[t]? = some x) (hk : keeps x = true) :
    ∃ e s', quiet s e ∧ s.step e = some s' := by
  have hgo (hsome : (s.go t x).isSome) : ∃ e s', quiet s e ∧ s.step e = some s' := by
    obtain ⟨s', hs⟩ := Option.isSome_iff_exists.mp hsome
    exact ⟨.go t, s', trivial, (step_go hx).trans hs⟩
  cases x with
  | releasing | counting | awake | leaving | signalled => exact hgo rfl
  | signalling all within =>
    refine ⟨.issue t [], s.issue t [] all within, trivial, ?_⟩
    simp only [LockedWait.step, Event.thread, hx, act]
  | outside | inside | entering | asleep | relocking | calling => cases hk

/-- With the internal mutex free nothing keeps a thread with the other one. -/
theorem holder_moves (hfree : s.internal = none) (hx : s.places[t]? = some x)
    (hh : holds x = true) : ∃ e s', quiet s e ∧ s.step e = some s' := by
  cases x with
  | inside =>
    refine ⟨.unlock t, { s with mutex := none }.put t .outside, trivial, ?_⟩
    simp only [LockedWait.step, Event.thread, hx, act, if_true]
  | entering timeout =>
    exact ⟨.go t, _, trivial, (step_go hx).trans (if_pos hfree)⟩
  | calling all within =>
    exact ⟨.go t, _, trivial, (step_go hx).trans (if_pos hfree)⟩
  | releasing | signalling | signalled => exact keeper_moves hx rfl
  | outside | counting | asleep | awake | leaving | relocking => cases hh

theorem Locked.moves (h : Locked s) (hopen : ¬ finished s) :
    ∃ e s', quiet s e ∧ s.step e = some s' := by
  cases hfree : s.internal with
  | some t =>
    obtain ⟨x, hx, hk⟩ := (h.internal t).mp hfree
    exact keeper_moves hx hk
  | none =>
    refine Classical.byContradiction fun hstuck => hopen fun t x hx => ?_
    cases x with
    | outside => exact Or.inl rfl
    | asleep call timeout =>
      refine Or.inr ⟨rfl, fun hin => hstuck ?_⟩
      refine ⟨.wake t false, { s with internal := some t, woken := s.woken.erase t }.put t
        (.awake call timeout false), ⟨rfl, hin⟩, ?_⟩
      simp [LockedWait.step, Event.thread, hx, act, hfree]
    | inside => exact absurd (holder_moves hfree hx rfl) hstuck
    | entering timeout => exact absurd (holder_moves hfree hx rfl) hstuck
    | calling all within =>
      exact absurd ⟨.go t, _, trivial, (step_go hx).trans (if_pos hfree)⟩ hstuck
    | relocking res =>
      cases hmutex : s.mutex with
      | none => exact absurd ⟨.go t, _, trivial, (step_go hx).trans (if_pos hmutex)⟩ hstuck
      | some u =>
        obtain ⟨y, hy, hh⟩ := (h.mutex u).mp hmutex
        exact absurd (holder_moves hfree hy hh) hstuck
    | releasing | counting | awake | leaving | signalling | signalled =>
      exact absurd (keeper_moves hx rfl) hstuck

theorem Tallied.same (h : Tallied s) (hx : s.places[t]? = some x)
    (hplaces : s'.places = s.places.set t y) (hcond : s'.cond = s.cond)
    (hy : counted y = counted x) : Tallied s' := by
  constructor
  · rw [hcond, hplaces, census_same counted hx hy]
    exact h.waiters
  · rw [hcond, hplaces, List.length_set]
    exact h.wakeups

/-- A call that is no longer counted. -/
theorem Tallied.leave (h : Tallied s) (hfew : s.places.length + 1 < word)
    (hx : s.places[t]? = some x) (hc : counted x = true) {c : WaitCondition} {res : Bool}
    (hwaiters : c.waiters = subWord s.cond.waiters 1) (hwakeups : c.wakeups ≤ s.cond.wakeups) :
    Tallied ({ s with cond := c }.put t (.leaving res)) := by
  have hcensus := census_set counted hx (.leaving res)
  have hmost : s.places.countP counted ≤ s.places.length := List.countP_le_length
  have hone : 0 < s.places.countP counted := census_pos hx hc
  have hold := h.waiters
  rw [hc] at hcensus
  constructor
  · change c.waiters = (s.places.set t (.leaving res)).countP counted
    rw [hwaiters, subWord_eq (by omega) (by omega), hold]
    change _ + 1 = _ + 0 at hcensus
    omega
  · change c.wakeups ≤ (s.places.set t (.leaving res)).length
    rw [List.length_set]
    exact Nat.le_trans hwakeups h.wakeups

theorem check_tallied (h : Tallied s) (hfew : s.places.length + 1 < word)
    (hx : s.places[t]? = some (.awake call timeout expired)) :
    Tallied (s.check t call timeout expired) := by
  have hwakeups := h.wakeups
  unfold check
  split
  · exact h.leave hfew hx rfl rfl (Nat.le_of_eq (WaitCondition.expire_wakeups _))
  · split
    · exact h.same hx (y := .asleep call timeout) rfl rfl rfl
    · next hsome =>
      refine h.leave hfew hx rfl rfl ?_
      change subWord s.cond.wakeups 1 ≤ _
      rw [subWord_eq (by omega) (by omega)]
      exact Nat.sub_le _ _

theorem count_tallied (h : Tallied s) (hfew : s.places.length + 1 < word)
    (hx : s.places[t]? = some (.counting call timeout)) :
    Tallied ({ s with internal := none, cond := s.cond.enter }.put t (.asleep call timeout)) := by
  have hcensus := census_set counted hx (.asleep call timeout)
  have hmost : s.places.countP counted ≤ s.places.length := List.countP_le_length
  have hold := h.waiters
  constructor
  · change addWord s.cond.waiters 1 = (s.places.set t (.asleep call timeout)).countP counted
    rw [addWord_eq (by omega), hold]
    change _ + 0 = _ + 1 at hcensus
    omega
  · change s.cond.enter.wakeups ≤ (s.places.set t (.asleep call timeout)).length
    rw [enter_wakeups, List.length_set]
    exact h.wakeups

/-- What a signal makes of the wake-ups. -/
theorem signal_wakeups (h : Tallied s) (hfew : s.places.length + 1 < word) (all : Bool) :
    (if all then s.cond.signalAll else s.cond.signalOne).wakeups = if all then s.cond.waiters
      else min (s.cond.wakeups + 1) s.cond.waiters := by
  have hwakeups := h.wakeups
  cases all with
  | true => rfl
  | false =>
    change min (addWord s.cond.wakeups 1) s.cond.waiters = min (s.cond.wakeups + 1) s.cond.waiters
    rw [addWord_eq (by omega)]

theorem issue_tallied (h : Tallied s) (hfew : s.places.length + 1 < word) {chosen : List Nat}
    {all within : Bool} (hx : s.places[t]? = some (.signalling all within)) :
    Tallied (s.issue t chosen all within) := by
  have hmost : s.places.countP counted ≤ s.places.length := List.countP_le_length
  have hold := h.waiters
  have hsignal := signal_wakeups h hfew all
  constructor
  · change (if all then s.cond.signalAll else s.cond.signalOne).waiters =
      (s.places.set t (.signalled within)).countP counted
    rw [census_same counted hx (y := .signalled within) rfl, ← hold]
    cases all <;> rfl
  · change (if all then s.cond.signalAll else s.cond.signalOne).wakeups ≤
      (s.places.set t (.signalled within)).length
    rw [hsignal, List.length_set]
    split <;> omega

theorem Slips.counted_eq (h : Slips e x y) : counted y = counted x := by
  cases h <;> rfl

theorem step_tallied (h : Tallied s) (hfew : s.places.length + 1 < word)
    (hs : s.step e = some s') : Tallied s' := by
  obtain ⟨x, hx, hdoes⟩ := step_does hs
  cases hdoes with
  | slips hslip hplaces hcond => exact h.same hx hplaces hcond hslip.counted_eq
  | @wakes t call timeout expired => exact h.same hx (y := .awake call timeout expired) rfl rfl rfl
  | releases t timeout => exact h.same hx (y := .counting s.begun timeout) rfl rfl rfl
  | counts t call timeout => exact count_tallied h hfew hx
  | checks t call timeout expired => exact check_tallied h hfew hx
  | issues t chosen all within => exact issue_tallied h hfew hx

theorem run_tallied {past : List (LockedWait × Event)} (h : system.Run past s)
    (hfew : s.places.length + 1 < word) : Tallied s := by
  have hall : s.places.length + 1 < word → Tallied s := by
    refine h.invariant (I := fun s => s.places.length + 1 < word → Tallied s) ?_ ?_
    · rintro s ⟨threads, rfl⟩ _
      refine ⟨?_, Nat.zero_le _⟩
      refine (List.countP_eq_zero.mpr fun x hx => ?_).symm
      rw [List.eq_of_mem_replicate hx]
      exact Bool.false_ne_true
    · intro s e s' hi hs hfew
      have hstep : s.step e = some s' := hs
      obtain ⟨x, y, hturn⟩ := step_turn hstep
      rw [hturn.places, List.length_set] at hfew
      exact step_tallied (hi hfew) hfew hstep
  exact hall hfew

theorem Slips.awake (h : Slips e x y) : x.sleeps = false := by
  cases h <;> rfl

/-- A turn behind which the unblocked threads are others, which sleep. -/
theorem unblocked_turn (hplaces : s'.places = s.places.set t y)
    (hothers : ∀ u ∈ s'.woken, u ≠ t ∧ ∃ z, s.places[u]? = some z ∧ z.sleeps = true)
    (honce : s'.woken.Nodup) : Unblocked s' := by
  refine ⟨?_, honce⟩
  intro u hu
  obtain ⟨hne, z, hz, hsleeps⟩ := hothers u hu
  refine ⟨z, ?_, hsleeps⟩
  rw [hplaces, List.getElem?_set_ne fun he => hne he.symm]
  exact hz

/-- A thread that does not sleep is not among the unblocked ones. -/
theorem Unblocked.others (h : Unblocked s) (hx : s.places[t]? = some x)
    (hawake : x.sleeps = false) :
    ∀ u ∈ s.woken, u ≠ t ∧ ∃ z, s.places[u]? = some z ∧ z.sleeps = true := by
  intro u hu
  obtain ⟨z, hz, hsleeps⟩ := h.sleeps u hu
  refine ⟨?_, z, hz, hsleeps⟩
  rintro rfl
  rw [hx] at hz
  cases hz
  rw [hawake] at hsleeps
  cases hsleeps

/-- A turn of a thread that does not sleep unblocks nobody. -/
theorem Unblocked.same (h : Unblocked s) (hx : s.places[t]? = some x) (hawake : x.sleeps = false)
    (hplaces : s'.places = s.places.set t y) (hwoken : s'.woken = s.woken) : Unblocked s' := by
  refine unblocked_turn hplaces ?_ (hwoken ▸ h.once)
  rw [hwoken]
  exact h.others hx hawake

theorem check_unblocked (h : Unblocked s)
    (hx : s.places[t]? = some (.awake call timeout expired)) :
    Unblocked (s.check t call timeout expired) := by
  unfold check
  split
  · exact h.same hx rfl (cond_places _) (cond_woken _)
  · split
    · exact h.same hx (y := .asleep call timeout) rfl rfl rfl
    · exact h.same hx rfl (cond_places _) (cond_woken _)

/-- The signal adds threads that are blocked. -/
theorem issue_unblocked (h : Unblocked s) {all within : Bool}
    (hx : s.places[t]? = some (.signalling all within)) (chosen : List Nat) :
    Unblocked (s.issue t chosen all within) := by
  refine unblocked_turn (y := .signalled within) rfl ?_ ?_
  · intro u hu
    rcases List.mem_append.mp hu with hu | hu
    · exact h.others hx rfl u hu
    · obtain ⟨⟨z, hz, hsleeps⟩, _⟩ := mem_blocked.mp (unblocked_blocked hu)
      refine ⟨?_, z, hz, hsleeps⟩
      rintro rfl
      rw [hx] at hz
      cases hz
      cases hsleeps
  · refine List.nodup_append.mpr ⟨h.once, unblocked_nodup s all chosen, ?_⟩
    rintro u hu v hv rfl
    exact (mem_blocked.mp (unblocked_blocked hv)).2 hu

theorem step_unblocked (h : Unblocked s) (hs : s.step e = some s') : Unblocked s' := by
  obtain ⟨x, hx, hdoes⟩ := step_does hs
  cases hdoes with
  | slips hslip hplaces _ hwoken => exact h.same hx hslip.awake hplaces hwoken
  | @wakes t call timeout expired =>
    refine unblocked_turn (y := .awake call timeout expired) rfl ?_ (h.once.erase t)
    intro u hu
    obtain ⟨hne, hin⟩ := h.once.mem_erase_iff.mp hu
    exact ⟨hne, h.sleeps u hin⟩
  | releases t timeout =>
    exact h.same hx (y := .counting s.begun timeout) rfl rfl rfl
  | counts t call timeout =>
    exact h.same hx (y := .asleep call timeout) rfl rfl rfl
  | checks t call timeout expired => exact check_unblocked h hx
  | issues t chosen all within => exact issue_unblocked h hx chosen

theorem run_unblocked {past : List (LockedWait × Event)} (h : system.Run past s) :
    Unblocked s := by
  refine h.invariant (I := Unblocked) ?_ ?_
  · rintro s ⟨threads, rfl⟩
    exact ⟨fun t ht => (nomatch ht), List.nodup_nil⟩
  · intro s e s' hu hs
    exact step_unblocked hu hs

/-- A call that counts sleeps or has come back. -/
theorem counted_parts (places : List WaitPlace) : places.countP counted =
    places.countP WaitPlace.sleeps + places.countP overdue + places.countP resumed := by
  induction places with
  | nil => rfl
  | cons x places ih =>
    simp only [List.countP_cons, ih]
    cases x with
    | awake call timeout expired =>
      cases expired <;> simp [counted, WaitPlace.sleeps, overdue, resumed] <;> omega
    | asleep =>
      simp [counted, WaitPlace.sleeps, overdue, resumed]
      omega
    | outside | inside | entering | releasing | counting => rfl
    | leaving | relocking | calling | signalling | signalled => rfl

/-- Every thread that sleeps is blocked or has been unblocked. -/
theorem sleepers_length (s : LockedWait) :
    s.places.countP WaitPlace.sleeps ≤ s.woken.length + s.blocked.length := by
  rw [← List.length_findIdxs (s := 0), ← List.length_append]
  refine List.nodup_findIdxs.length_le_of_subset fun t ht => ?_
  by_cases hin : t ∈ s.woken
  · exact List.mem_append_left _ hin
  · refine List.mem_append_right _ (List.mem_filter.mpr ⟨ht, decide_eq_true hin⟩)

/-- If a thread is blocked, a signal for one unblocks one. -/
theorem unblocked_one (s : LockedWait) (chosen : List Nat) :
    min 1 s.blocked.length ≤ (s.unblocked false chosen).length := by
  unfold unblocked
  dsimp only
  rw [if_neg Bool.false_ne_true]
  split
  · exact Nat.le_of_eq List.length_take.symm
  · next hpicked => exact Nat.le_trans (Nat.min_le_left _ _) (List.length_pos_iff.mpr hpicked)

/-- Behind a signal, too, each wake-up has its thread. -/
theorem issue_spent {n : Nat} (h : Spent n s) (htallied : Tallied s)
    (hfew : s.places.length + 1 < word) {all within : Bool}
    (hx : s.places[t]? = some (.signalling all within)) (chosen : List Nat) :
    Spent n (s.issue t chosen all within) := by
  have hsignal := signal_wakeups htallied hfew all
  have hparts := counted_parts s.places
  have hsleepers := sleepers_length s
  have hwaiters := htallied.waiters
  have hlate := h.late
  have hbefore := h.wakeups
  constructor
  · change (s.places.set t (.signalled within)).countP overdue ≤ n
    rw [census_same overdue hx (y := .signalled within) rfl]
    exact hlate
  · change (if all then s.cond.signalAll else s.cond.signalOne).wakeups ≤
      (s.woken ++ s.unblocked all chosen).length +
        (s.places.set t (.signalled within)).countP resumed + n
    rw [hsignal, census_same resumed hx (y := .signalled within) rfl, List.length_append]
    cases all with
    | true =>
      change s.cond.waiters ≤ s.woken.length + s.blocked.length + _ + n
      omega
    | false =>
      have hone := unblocked_one s chosen
      rw [if_neg Bool.false_ne_true]
      omega

/-- A call that leaves behind its wake-up, or takes it. -/
theorem Spent.leave {n : Nat} (h : Spent n s) (hx : s.places[t]? = some x) {c : WaitCondition}
    {res : Bool} (hwakeups : c.wakeups + (resumed x).toNat ≤ s.cond.wakeups) :
    Spent n ({ s with cond := c }.put t (.leaving res)) := by
  have hlate := h.late
  have hbefore := h.wakeups
  have hoverdue := census_set overdue hx (.leaving res)
  have hresumed := census_set resumed hx (.leaving res)
  constructor
  · rw [cond_places]
    change _ + _ = _ + 0 at hoverdue
    omega
  · rw [cond_places, cond_woken]
    change _ + _ = _ + 0 at hresumed
    change c.wakeups ≤ _
    omega

theorem check_spent {n : Nat} (h : Spent n s) (htallied : Tallied s)
    (hfew : s.places.length + 1 < word)
    (hx : s.places[t]? = some (.awake call timeout expired)) :
    Spent n (s.check t call timeout expired) := by
  have hlate := h.late
  have hbefore := h.wakeups
  have hrecorded := htallied.wakeups
  unfold check
  cases expired with
  | true =>
    rw [if_pos rfl]
    refine h.leave hx ?_
    rw [WaitCondition.expire_wakeups]
    exact Nat.le_refl _
  | false =>
    rw [if_neg Bool.false_ne_true]
    split
    · next hnone =>
      have hsame := census_same overdue hx (y := .asleep call timeout) rfl
      refine ⟨hsame.symm ▸ hlate, ?_⟩
      change s.cond.wakeups ≤ _
      rw [hnone]
      exact Nat.zero_le _
    · next hsome =>
      refine h.leave hx ?_
      change subWord s.cond.wakeups 1 + 1 ≤ s.cond.wakeups
      rw [subWord_eq (by omega) (by omega)]
      omega

theorem wake_spent {n : Nat} (h : Spent n s) (hx : s.places[t]? = some (.asleep call timeout)) :
    Spent (n + expired.toNat) ({ s with internal := some t, woken := s.woken.erase t }.put t
      (.awake call timeout expired)) := by
  have hlate := h.late
  have hbefore := h.wakeups
  have hlatest := census_set overdue hx (.awake call timeout expired)
  have hresumed := census_set resumed hx (.awake call timeout expired)
  have hleft : s.woken.length ≤ (s.woken.erase t).length + 1 := by
    rw [List.length_erase]
    split <;> omega
  constructor
  · change (s.places.set t (.awake call timeout expired)).countP overdue ≤ _
    change _ + 0 = _ + expired.toNat at hlatest
    omega
  · change s.cond.wakeups ≤ (s.woken.erase t).length +
      (s.places.set t (.awake call timeout expired)).countP resumed + _
    change _ + 0 = _ + (!expired).toNat at hresumed
    cases expired <;> simp at hresumed ⊢ <;> omega

/-- A turn between places that are not behind the return of pthread_cond_wait. -/
theorem Spent.same {n : Nat} (h : Spent n s) (hx : s.places[t]? = some x)
    (hplaces : s'.places = s.places.set t y) (hcond : s'.cond.wakeups = s.cond.wakeups)
    (hwoken : s'.woken = s.woken) (hlate : overdue y = overdue x)
    (hresumed : resumed y = resumed x) :
    Spent n s' := by
  constructor
  · rw [hplaces, census_same overdue hx hlate]
    exact h.late
  · rw [hplaces, hcond, hwoken, census_same resumed hx hresumed]
    exact h.wakeups

theorem step_spent {n : Nat} (h : Spent n s) (htallied : Tallied s)
    (hfew : s.places.length + 1 < word) (hs : s.step e = some s') :
    Spent (n + (timesOut e).toNat) s' := by
  obtain ⟨x, hx, hdoes⟩ := step_does hs
  cases hdoes with
  | slips hslip hplaces hcond hwoken =>
    have hnone : timesOut e = false := by cases hslip <;> rfl
    rw [hnone]
    exact h.same hx hplaces (congrArg WaitCondition.wakeups hcond) hwoken
      (by cases hslip <;> rfl) (by cases hslip <;> rfl)
  | wakes t => exact wake_spent h hx
  | releases t timeout => exact h.same hx (y := .counting s.begun timeout) rfl rfl rfl rfl rfl
  | counts t call timeout =>
    exact h.same hx (y := .asleep call timeout) rfl (enter_wakeups _) rfl rfl rfl
  | checks t call timeout expired => exact check_spent h htallied hfew hx
  | issues t chosen all within => exact issue_spent h htallied hfew hx chosen

theorem step_threads (hs : s.step e = some s') : s'.places.length = s.places.length := by
  obtain ⟨x, y, hturn⟩ := step_turn hs
  rw [hturn.places, List.length_set]

theorem run_spent {past : List (LockedWait × Event)} (h : system.Run past s)
    (hfew : s.places.length + 1 < word) : Spent (timeouts past) s := by
  induction h with
  | start h =>
    obtain ⟨threads, rfl⟩ := h
    have hnone : ∀ f : WaitPlace → Bool, f .outside = false →
        (create threads).places.countP f = 0 := by
      intro f hf
      refine List.countP_eq_zero.mpr fun x hx => ?_
      rw [List.eq_of_mem_replicate hx, hf]
      exact Bool.false_ne_true
    exact ⟨Nat.le_of_eq (hnone overdue rfl), Nat.zero_le _⟩
  | @next s s' e past before hs ih =>
    have hstep : s.step e = some s' := hs
    rw [step_threads hstep] at hfew
    have hspent := step_spent (ih hfew) (run_tallied before hfew) hfew hstep
    have htimes : timeouts (past ++ [(s, e)]) = timeouts past + (timesOut e).toNat := by
      rw [timeouts, List.countP_append]
      cases hout : timesOut e <;> simp [timeouts, hout]
    rw [htimes]
    exact hspent

/-- Where no operation is in progress the wake-ups that are left are those of
waits that ran out of time. -/
theorem finished_wakeups {n : Nat} (h : Spent n s) (hunblocked : Unblocked s)
    (hfinished : finished s) : s.cond.wakeups ≤ n := by
  have hwoken : s.woken = [] := by
    refine List.eq_nil_iff_forall_not_mem.mpr fun t ht => ?_
    obtain ⟨x, hx, hsleeps⟩ := hunblocked.sleeps t ht
    rcases hfinished t x hx with rfl | ⟨_, hout⟩
    · cases hsleeps
    · exact hout ht
  have hresumed : s.places.countP resumed = 0 := by
    refine List.countP_eq_zero.mpr fun x hx => ?_
    obtain ⟨t, ht⟩ := List.getElem?_of_mem hx
    rcases hfinished t x ht with rfl | ⟨hsleeps, _⟩
    · exact Bool.false_ne_true
    · cases x with
      | asleep => exact Bool.false_ne_true
      | outside | inside | entering | releasing | counting | awake => cases hsleeps
      | leaving | relocking | calling | signalling | signalled => cases hsleeps
  have hbound := h.wakeups
  rw [hwoken, hresumed] at hbound
  simpa using hbound

/-- What the steps of operations in progress keep, among so many threads of which
so many ran out of time. -/
structure Settling (n threads : Nat) (s : LockedWait) : Prop where
  locked : Locked s
  unblocked : Unblocked s
  length : s.places.length = threads
  counted : threads + 1 < word → Tallied s ∧ Spent n s

theorem quiet_settling {n threads : Nat} (h : Settling n threads s) (hquiet : quiet s e)
    (hs : s.step e = some s') : Settling n threads s' := by
  refine ⟨step_locked h.locked hs, step_unblocked h.unblocked hs,
    (step_threads hs).trans h.length, fun hfew => ?_⟩
  obtain ⟨htallied, hspent⟩ := h.counted hfew
  rw [← h.length] at hfew
  have hnone : timesOut e = false := by
    cases e with
    | wake t expired => exact hquiet.1
    | lock | unlock | wait | signal | issue | go => rfl
  have hspent' := step_spent hspent htallied hfew hs
  rw [hnone] at hspent'
  exact ⟨step_tallied htallied hfew hs, hspent'⟩

/-- However many threads use a wait condition and its mutex and whatever they
have done: what they do next leads, in any order, to a state in which no
operation is in progress except waits no signal has unblocked. No more wake-ups
are left there than waits had run out of time. -/
theorem operations_finish {past : List (LockedWait × Event)} (h : system.Run past s) :
    (system.under quiet).Comes (fun t => finished t ∧
      (s.places.length + 1 < word → t.cond.wakeups ≤ timeouts past)) s := by
  have hstart : Settling (timeouts past) s.places.length s :=
    ⟨run_locked h, run_unblocked h, rfl, fun hfew => ⟨run_tallied h hfew, run_spent h hfew⟩⟩
  refine System.comes (I := Settling (timeouts past) s.places.length) work ?_ ?_ hstart
  · rintro u e u' hi ⟨hquiet, hs⟩
    exact ⟨quiet_settling hi hquiet hs, quiet_less hquiet hs⟩
  · intro u hi hopen
    have hunfinished : ¬ finished u := fun hf =>
      hopen ⟨hf, fun hfew => finished_wakeups (hi.counted hfew).2 hi.unblocked hf⟩
    obtain ⟨e, u', hquiet, hs⟩ := hi.locked.moves hunfinished
    exact ⟨e, u', hquiet, hs⟩

/-- A wait that was signalled ran out of time and has left its wake-up behind, the
next one sleeps on with that, and a signal for it is under way. -/
theorem operations_finish_three : ∃ past s, system.Run past s ∧ timeouts past = 1 ∧
    s.places = [.outside, .calling false false, .asleep 1 9] ∧ s.woken = [] ∧ s.cond = ⟨1, 1⟩ ∧
    (system.under quiet).Comes (fun t => finished t ∧
      (s.places.length + 1 < word → t.cond.wakeups ≤ timeouts past)) s := by
  have hthree : ((follow step [] (create 3) [.lock 0, .wait 0 5, .go 0, .go 0, .go 0,
      .signal 1 true, .go 1, .issue 1 [], .go 1, .wake 0 true, .go 0, .go 0, .go 0, .unlock 0,
      .lock 2, .wait 2 9, .go 2, .go 2, .go 2, .signal 1 false]).map fun r =>
        (timeouts r.1, r.2.places, r.2.woken, r.2.cond)) =
      some (1, [.outside, .calling false false, .asleep 1 9], [], ⟨1, 1⟩) := by decide +kernel
  obtain ⟨⟨past, s⟩, hfollow, hfinal⟩ := Option.map_eq_some_iff.mp hthree
  simp only [Prod.mk.injEq] at hfinal
  obtain ⟨htimes, hplaces, hwoken, hcond⟩ := hfinal
  have hstart : system.Run [] (create 3) := .start ⟨3, rfl⟩
  have hrun : system.Run past s := hstart.follow hfollow
  exact ⟨past, s, hrun, htimes, hplaces, hwoken, hcond, operations_finish hrun⟩

/-- No call of wait is between the release of the mutex and the count while
another thread has the internal mutex. -/
theorem Locked.all_counted (h : Locked s) (hx : s.places[t]? = some x) (hk : keeps x = true)
    (hy : released x = false) : s.places.countP released = s.places.countP counted := by
  refine List.countP_congr fun z hz => ?_
  obtain ⟨u, hu⟩ := List.getElem?_of_mem hz
  cases z with
  | counting call timeout =>
    have hsame := h.alone hx hk hu rfl
    subst hsame
    rw [hx] at hu
    cases hu
    cases hy
  | outside | inside | entering | releasing | asleep | awake => exact Iff.rfl
  | leaving | relocking | calling | signalling | signalled => exact Iff.rfl

/-- A signal misses no call of wait that has released the mutex, even if that is
not asleep yet: behind signal_all there is a wake-up for each of them, behind
signal_one for one more than before, if there is one. -/
theorem signals_reach {past : List (LockedWait × Event)} (h : system.Run past s)
    (hfew : s.places.length + 1 < word) {all within : Bool} {chosen : List Nat}
    (hx : s.places[t]? = some (.signalling all within))
    (hs : s.step (.issue t chosen) = some s') :
    s'.cond.wakeups = if all then s'.places.countP released
      else min (s.cond.wakeups + 1) (s'.places.countP released) := by
  have htallied := run_tallied h hfew
  simp only [LockedWait.step, Event.thread, hx, act] at hs
  cases hs
  change (if all then s.cond.signalAll else s.cond.signalOne).wakeups =
    if all then (s.places.set t (.signalled within)).countP released
    else min (s.cond.wakeups + 1) ((s.places.set t (.signalled within)).countP released)
  rw [census_same released hx (y := .signalled within) rfl,
    (run_locked h).all_counted hx rfl rfl, ← htallied.waiters]
  exact signal_wakeups htallied hfew all

/-- Two calls of wait, one of which has only just given up the internal mutex, and
a broadcast. -/
theorem signals_reach_two : ∃ past s s', system.Run past s ∧ s.places.length + 1 < word ∧
    s.places = [.asleep 0 7, .asleep 1 9, .signalling true true] ∧ s.cond = ⟨2, 0⟩ ∧
    s.step (.issue 2 []) = some s' ∧ s'.cond.wakeups = 2 ∧
    s'.cond.wakeups = if true = true then s'.places.countP released
      else min (s.cond.wakeups + 1) (s'.places.countP released) := by
  have htwo : ((follow step [] (create 3) [.lock 0, .wait 0 7, .go 0, .go 0, .lock 1, .wait 1 9,
      .go 0, .go 1, .go 1, .lock 2, .signal 2 true, .go 1, .go 2]).bind fun r =>
        (r.2.step (.issue 2 [])).map fun s' => (r.2.places, r.2.cond, s'.cond.wakeups)) =
      some ([.asleep 0 7, .asleep 1 9, .signalling true true], ⟨2, 0⟩, 2) := by decide +kernel
  obtain ⟨⟨past, s⟩, hfollow, htwo⟩ := Option.bind_eq_some_iff.mp htwo
  obtain ⟨s', hs, hfinal⟩ := Option.map_eq_some_iff.mp htwo
  simp only [Prod.mk.injEq] at hfinal
  obtain ⟨hplaces, hcond, hwakeups⟩ := hfinal
  have hstart : system.Run [] (create 3) := .start ⟨3, rfl⟩
  have hrun : system.Run past s := hstart.follow hfollow
  have hfew : s.places.length + 1 < word := by rw [hplaces]; decide
  have hx : s.places[2]? = some (.signalling true true) := by rw [hplaces]; rfl
  exact ⟨past, s, s', hrun, hfew, hplaces, hcond, hs, hwakeups, signals_reach hrun hfew hx hs⟩

end
end CkCore.Proofs.WaitLocks
