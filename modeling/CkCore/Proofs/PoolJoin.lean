import CkCore.Model.PoolWait
import CkCore.Proofs.PoolToil

namespace CkCore.Proofs.PoolJoin
open Lib ThreadPool PoolCount PoolTurns PoolToil

/-- The threads a call has yet to wait for. -/
def dues : PoolCall → List Nat
  | ⟨.ahead, batch⟩ | ⟨.waiting false, batch⟩ => batch
  | ⟨_, batch⟩ => batch.tail

/-- The thread whose end a call of wait has been told of or has found, and which
it is going to delete. -/
def passed : PoolCall → Option Nat
  | ⟨.ahead, _⟩ | ⟨.waiting false, _⟩ => none
  | ⟨_, batch⟩ => batch.head?

/-- The thread whose end a call sleeps for. -/
def awaited : PoolCall → Option Nat
  | ⟨.waiting false, batch⟩ => batch.head?
  | _ => none

def allDues (calls : List PoolCall) : List Nat := calls.flatMap dues

/-- The retired thread try_start would take. -/
def restarted (p : ThreadPool) : Option Nat :=
  if p.activeThreads < p.maxThreads ∧ p.idlThreads = 0 then p.retThreads.head? else none

def restarts (p : ThreadPool) : ThreadPool.Event → Option Nat
  | .start (some _) _ _ | .startNow (some _) _ => restarted p
  | .reserve numThreads _ =>
    if numThreads < p.resThreads ∧ p.queue ≠ [] then restarted (p.setReserved numThreads) else none
  | _ => none

/-- The steps that restart no thread that has been deleted or whose end a call of
wait takes for final. -/
def sparing (calls : List PoolCall) (p : ThreadPool) (e : ThreadPool.Event) : Prop :=
  ∀ w ∈ restarts p e, (w ∈ p.allThreads ∨ w ∈ allDues calls) ∧ ∀ c ∈ calls, passed c ≠ some w

instance (calls : List PoolCall) (p : ThreadPool) : DecidablePred (sparing calls p) :=
  fun _ => inferInstanceAs (Decidable (∀ w ∈ (_ : Option Nat), _ ∧ _))

/-- A call sleeps only for a thread that runs, and takes only one that does not
for over, so that it never deletes one that runs. -/
structure Attended (s : PoolWait) : Prop where
  asleep : ∀ c ∈ s.waits, ∀ w ∈ awaited c, ∃ x, s.pool.workers[w]? = some x ∧ x.running = true
  ended : ∀ c ∈ s.waits, ∀ w ∈ passed c, ∃ x, s.pool.workers[w]? = some x ∧ x.running = false
  gentle : ∀ c ∈ s.waits, ∀ signalled, c.place ≠ .killing signalled

section
variable {p p' : ThreadPool} {w : Nat} {x y : Worker} {e : ThreadPool.Event}

/-- A worker runs on until its cleanup. -/
theorem labour_runs (hown : labour e) (hs : p.step e = some p') : ∃ w x y,
    p.workers[w]? = some x ∧ Moved p p' w y ∧
      ((y.running = x.running ∧ ∀ v, e ≠ .cleanup v) ∨ (y.running = false ∧ e = .cleanup w)) := by
  cases e with
  | enter w =>
    obtain ⟨x, hw, _, rfl⟩ := step_enter hs
    obtain ⟨y, hm, hsame, _⟩ := loopHead_moved p w x
    exact ⟨w, x, y, hw, hm, Or.inl ⟨hsame, by simp⟩⟩
  | finish w =>
    obtain ⟨x, task, hw, _, _, rfl⟩ := step_finish hs
    unfold ThreadPool.finish
    dsimp only
    split
    · obtain ⟨y, hm, hsame, _⟩ := afterTasks_moved { p with executed := p.executed ++ [task] } w
        { x with task := none }
      exact ⟨w, x, y, hw, hm.frame rfl rfl rfl rfl rfl, Or.inl ⟨hsame, by simp⟩⟩
    · obtain ⟨y, hm, hsame, _⟩ := fetch_moved { p with executed := p.executed ++ [task] } w
        { x with task := none }
      exact ⟨w, x, y, hw, hm.frame rfl rfl rfl rfl rfl, Or.inl ⟨hsame, by simp⟩⟩
  | wake w =>
    obtain ⟨x, _, hw, _, _, rfl⟩ := step_wake hs
    exact ⟨w, x, { x with pc := .woken false }, hw, ⟨rfl, rfl, rfl, rfl, rfl⟩,
      Or.inl ⟨rfl, by simp⟩⟩
  | expire w =>
    obtain ⟨x, _, hw, _, rfl⟩ := step_expire hs
    exact ⟨w, x, { x with pc := .woken true }, hw, ⟨rfl, rfl, rfl, rfl, rfl⟩,
      Or.inl ⟨rfl, by simp⟩⟩
  | resume w =>
    obtain ⟨x, expired, hw, _, rfl⟩ := step_resume hs
    cases expired with
    | true =>
      exact ⟨w, x, { x with pc := .returned }, hw, ⟨rfl, rfl, rfl, rfl, rfl⟩,
        Or.inl ⟨rfl, by simp⟩⟩
    | false =>
      obtain ⟨y, hm, hsame, _⟩ := fetch_moved { p with
        polThreads := addWord p.polThreads 1, promised := p.promised - 1 } w x
      exact ⟨w, x, y, hw, hm.frame rfl rfl rfl rfl rfl, Or.inl ⟨hsame, by simp⟩⟩
  | cleanup w =>
    obtain ⟨x, hw, _, rfl⟩ := step_cleanup hs
    exact ⟨w, x, { x with running := false, pc := .stopped }, hw, ⟨rfl, rfl, rfl, rfl, rfl⟩,
      Or.inr ⟨rfl, rfl⟩⟩
  | start | startNow | startNowChoked | reserve | setRetireTimeout => exact hown.elim

/-- What a step does to a worker: it runs as before, or its cleanup is done, or
it is restarted. -/
def Runs (p p' : ThreadPool) (e : ThreadPool.Event) : Prop :=
  (∀ w x, p.workers[w]? = some x → ∃ y, p'.workers[w]? = some y ∧
    (y.running = (x.running && e ≠ .cleanup w) ∨ restarts p e = some w ∧ y.running = true)) ∧
  (∀ w y, p.workers[w]? = none → p'.workers[w]? = some y → w ∈ p'.allThreads) ∧
  ∀ w ∈ p.allThreads, w ∈ p'.allThreads

/-- A step that is no cleanup and changes no worker. -/
theorem Runs.frame (hclean : ∀ w, e ≠ .cleanup w) (hworkers : p'.workers = p.workers)
    (hall : p'.allThreads = p.allThreads) : Runs p p' e := by
  refine ⟨?_, ?_, ?_⟩
  · intro w x hw
    exact ⟨x, hworkers ▸ hw, Or.inl (by simp [hclean w])⟩
  · intro w y hnone hw
    rw [hworkers, hnone] at hw
    cases hw
  · intro w hw
    exact hall ▸ hw

theorem labour_running (hown : labour e) (hs : p.step e = some p') : Runs p p' e := by
  obtain ⟨v, x, y, hv, hm, hrun⟩ := labour_runs hown hs
  refine ⟨?_, ?_, ?_⟩
  · intro w z hw
    by_cases hvw : v = w
    · subst hvw
      rw [hv] at hw
      cases hw
      refine ⟨y, hm.self hv, Or.inl ?_⟩
      rcases hrun with ⟨hsame, hclean⟩ | ⟨hno, hclean⟩
      · simp [hsame, hclean v]
      · simp [hno, hclean]
    · refine ⟨z, ?_, Or.inl ?_⟩
      · rw [hm.workers, List.getElem?_set_ne hvw]
        exact hw
      · rcases hrun with ⟨_, hclean⟩ | ⟨_, hclean⟩
        · simp [hclean w]
        · simp [hclean, hvw]
  · intro w z hnone hw
    rw [hm.workers] at hw
    have hlong := List.getElem?_eq_none_iff.mp hnone
    have hshort := (List.getElem?_eq_some_iff.mp hw).1
    rw [List.length_set] at hshort
    omega
  · intro w hw
    rw [hm.allThreads]
    exact hw

/-- try_start restarts the retired thread it takes, or makes a new one, which it
puts on all_threads_. -/
theorem tryStart_running (task : Task) (created : Bool) (hclean : ∀ w, e ≠ .cleanup w)
    (hnext : restarts p e = restarted p) : Runs p (p.tryStart task created).2 e := by
  rcases tryStart_cases p task created with ⟨_, hs⟩ | ⟨_, _, hs⟩ |
    ⟨hroom, hidle, v, rest, hret, hs⟩ | ⟨_, _, _, hs⟩
  · rw [hs]
    exact .frame hclean rfl rfl
  · rw [hs]
    exact .frame hclean rfl rfl
  · rw [hs]
    have htaken : restarts p e = some v := by
      rw [hnext, restarted, if_pos ⟨hroom, hidle⟩, hret]
      rfl
    cases hv : p.workers[v]? with
    | none =>
      refine .frame hclean ?_ ?_ <;> simp only [restart, hv]
    | some x =>
      rw [restart_eq hv]
      refine ⟨?_, ?_, fun w hw => hw⟩
      · intro w z hw
        by_cases hvw : v = w
        · subst hvw
          rw [hv] at hw
          cases hw
          refine ⟨_, List.getElem?_set_self (List.getElem?_eq_some_iff.mp hv).1, ?_⟩
          rcases start_cases { x with task := some task } created with ⟨_, _, hy⟩ | ⟨_, hy⟩
          · rw [hy]
            exact Or.inr ⟨htaken, rfl⟩
          · rw [hy]
            exact Or.inl (by simp [hclean v])
        · exact ⟨z, (List.getElem?_set_ne hvw).trans hw, Or.inl (by simp [hclean w])⟩
      · intro w z hnone hw
        have hlong := List.getElem?_eq_none_iff.mp hnone
        have hshort := (List.getElem?_eq_some_iff.mp hw).1
        rw [List.length_set] at hshort
        omega
  · rw [hs, spawn_eq]
    refine ⟨?_, ?_, fun w hw => List.mem_append_left _ hw⟩
    · intro w z hw
      have hin := (List.getElem?_eq_some_iff.mp hw).1
      exact ⟨z, (List.getElem?_append_left hin).trans hw, Or.inl (by simp [hclean w])⟩
    · intro w z hnone hw
      have hlong := List.getElem?_eq_none_iff.mp hnone
      have hshort := (List.getElem?_eq_some_iff.mp hw).1
      rw [List.length_append, List.length_singleton] at hshort
      exact List.mem_append_right _ (List.mem_singleton.mpr (by omega))

theorem handed_running {task : Task} {created : Bool} (h : Handed p task created p')
    (hclean : ∀ w, e ≠ .cleanup w) (hnext : restarts p e = restarted p) : Runs p p' e := by
  have htry := tryStart_running task created hclean hnext
  cases h with
  | taken tried after =>
    rw [tried] at htry
    rw [after]
    exact htry
  | queued tried after =>
    rw [tried] at htry
    rw [after]
    exact htry
  | refused tried =>
    rw [tried] at htry
    exact htry

theorem reserve_running (p : ThreadPool) (numThreads : Nat) (created : Bool) :
    Runs p (p.reserve numThreads created) (.reserve numThreads created) := by
  rcases reserve_cases p numThreads created with ⟨_, hr⟩ |
    ⟨hless, entry, accepted, p₁, htop, hs, hr⟩
  · rw [hr]
    exact .frame (fun w hn => nomatch hn) rfl rfl
  · have hqueue : p.queue ≠ [] := top_ne_nil htop
    have hnext : restarts p (.reserve numThreads created) =
        restarted ((p.setReserved numThreads).pop entry) := if_pos ⟨hless, hqueue⟩
    -- the event is looked at in the pool it finds, the outcome in the popped one
    have htry := tryStart_running (p := (p.setReserved numThreads).pop entry)
      (e := .start (some entry.1) 0 created) entry.1 created (fun w hn => nomatch hn) rfl
    rw [hs] at htry
    have hrun : Runs p p₁ (.reserve numThreads created) := by
      refine ⟨fun w x hw => ?_, htry.2.1, htry.2.2⟩
      obtain ⟨y, hy, hkind⟩ := htry.1 w x hw
      refine ⟨y, hy, ?_⟩
      rw [hnext]
      simpa [restarts] using hkind
    rw [hr]
    cases accepted with
    | true => exact hrun
    | false => exact hrun

theorem step_running (hs : p.step e = some p') : Runs p p' e := by
  by_cases hown : labour e
  · exact labour_running hown hs
  · cases e with
    | start task priority created =>
      rcases step_start hs with ⟨_, rfl⟩ | ⟨t, rfl, hh⟩
      · exact .frame (fun w hn => nomatch hn) rfl rfl
      · exact handed_running hh (fun w hn => nomatch hn) rfl
    | startNow task created =>
      rcases step_startNow hs with ⟨_, rfl⟩ | ⟨t, rfl, hh⟩
      · exact .frame (fun w hn => nomatch hn) rfl rfl
      · exact handed_running hh (fun w hn => nomatch hn) rfl
    | startNowChoked task =>
      rw [step_startNowChoked hs]
      exact .frame (fun w hn => nomatch hn) rfl rfl
    | reserve numThreads created =>
      cases hs
      exact reserve_running p numThreads created
    | setRetireTimeout timeout =>
      cases hs
      exact .frame (fun w hn => nomatch hn) rfl rfl
    | enter | finish | wake | expire | resume | cleanup => exact absurd trivial hown

end

section
variable {c c' : PoolCall} {v w : Nat}

theorem dues_signal (h : v ∈ dues c) (hne : v ≠ w) : v ∈ dues (c.signal w) := by
  obtain ⟨place, batch⟩ := c
  unfold PoolCall.signal
  split
  case isFalse => exact h
  case isTrue hhead =>
    obtain ⟨rest, rfl⟩ := List.head?_eq_some_iff.mp hhead
    match place with
    | .waiting false => exact (List.mem_cons.mp h).resolve_left hne
    | .ahead | .waiting true | .back | .killing _ => exact h

theorem awaited_signal (h : awaited (c.signal w) = some v) : awaited c = some v ∧ v ≠ w := by
  obtain ⟨place, batch⟩ := c
  unfold PoolCall.signal at h
  split at h
  case isTrue =>
    match place with
    | .waiting _ | .ahead | .back | .killing _ => cases h
  case isFalse hother =>
    match place with
    | .waiting false =>
      refine ⟨h, ?_⟩
      rintro rfl
      exact hother h
    | .waiting true | .ahead | .back | .killing _ => cases h

theorem passed_signal (h : passed (c.signal w) = some v) :
    passed c = some v ∨ awaited c = some v ∧ v = w := by
  obtain ⟨place, batch⟩ := c
  unfold PoolCall.signal at h
  split at h
  case isFalse => exact Or.inl h
  case isTrue hhead =>
    match place with
    | .waiting false =>
      have hv : w = v := Option.some.inj (hhead.symm.trans h)
      exact Or.inr ⟨h, hv.symm⟩
    | .ahead => cases h
    | .waiting true | .back | .killing _ => exact Or.inl h

theorem gentle_signal (h : ∀ signalled, c.place ≠ .killing signalled) (signalled : Bool) :
    (c.signal w).place ≠ .killing signalled := by
  obtain ⟨place, batch⟩ := c
  unfold PoolCall.signal
  split
  case isFalse => exact h signalled
  case isTrue =>
    match place with
    | .killing b => exact absurd rfl (h b)
    | .ahead | .waiting _ | .back => exact fun hn => nomatch hn

/-- The steps of a call with a thread, unless it has to kill it. -/
inductive Joins (p : ThreadPool) (thread : Nat) (rest : List Nat) :
    JoinPlace → PoolCall → Prop where
  | sleeps {x : Worker} (cell : p.workers[thread]? = some x) (running : x.running = true) :
      Joins p thread rest .ahead ⟨.waiting false, thread :: rest⟩
  | finds {x : Worker} (cell : p.workers[thread]? = some x) (running : x.running = false) :
      Joins p thread rest .ahead ⟨.back, thread :: rest⟩
  | leaves : Joins p thread rest (.waiting true) ⟨.back, thread :: rest⟩
  | deletes : Joins p thread rest .back ⟨.ahead, rest⟩

/-- A call that goes on to another place owes what it did, but for a thread it
finds to be over. -/
theorem Joins.owes {p : ThreadPool} {thread : Nat} {rest : List Nat} {place : JoinPlace}
    {x : Worker} (h : Joins p thread rest place c) (hv : v ∈ dues ⟨place, thread :: rest⟩)
    (hx : p.workers[v]? = some x) (hrun : x.running = true) : v ∈ dues c := by
  cases h with
  | sleeps => exact hv
  | finds cell stopped =>
    refine (List.mem_cons.mp hv).resolve_left ?_
    rintro rfl
    rw [hx] at cell
    cases cell
    rw [hrun] at stopped
    cases stopped
  | leaves => exact hv
  | deletes => exact hv

variable {s s' : PoolWait} {call : Nat}

theorem step_join (hs : s.step (.join call) = some s') : ∃ place thread rest,
    s.waits[call]? = some ⟨place, thread :: rest⟩ ∧ s.join call thread place rest = some s' := by
  simp only [PoolWait.step] at hs
  split at hs
  case h_1 place thread rest hcall => exact ⟨place, thread, rest, hcall, hs⟩
  case h_2 => cases hs

theorem step_relock (hs : s.step (.relock call) = some s') :
    (∃ place, s.waits[call]? = some ⟨place, []⟩) ∧ s' = s.loopHead call := by
  simp only [PoolWait.step] at hs
  split at hs
  case h_1 place hcall => exact ⟨⟨place, hcall⟩, (Option.some.inj hs).symm⟩
  case h_2 => cases hs

theorem Attended.joins (h : Attended s) (hs : s.step (.join call) = some s') :
    ∃ place thread rest c, s.waits[call]? = some ⟨place, thread :: rest⟩ ∧
      Joins s.pool thread rest place c ∧ s' = { s with waits := s.waits.set call c } := by
  obtain ⟨place, thread, rest, hcall, hjoin⟩ := step_join hs
  refine ⟨place, thread, rest, ?_⟩
  have hin := List.mem_of_getElem? hcall
  unfold PoolWait.join at hjoin
  dsimp only at hjoin
  split at hjoin
  case h_1 => cases hjoin
  case h_2 x hx =>
    match place with
    | .ahead =>
      cases hjoin
      cases hrun : x.running with
      | true => exact ⟨_, hcall, .sleeps hx hrun, rfl⟩
      | false => exact ⟨_, hcall, .finds hx hrun, rfl⟩
    | .waiting true =>
      cases hjoin
      exact ⟨_, hcall, .leaves, rfl⟩
    | .waiting false => cases hjoin
    | .back =>
      obtain ⟨y, hy, hno⟩ := h.ended _ hin thread rfl
      rw [hx] at hy
      cases hy
      rw [hno] at hjoin
      cases hjoin
      exact ⟨_, hcall, .deletes, rfl⟩
    | .killing signalled => exact absurd rfl (h.gentle _ hin signalled)

/-- A call in another place with a thread that is there. -/
theorem Attended.set (h : Attended s) {pool : ThreadPool} (hworkers : pool.workers = s.pool.workers)
    (hasleep : ∀ w ∈ awaited c, ∃ x, s.pool.workers[w]? = some x ∧ x.running = true)
    (hover : ∀ w ∈ passed c, ∃ x, s.pool.workers[w]? = some x ∧ x.running = false)
    (hgentle : ∀ signalled, c.place ≠ .killing signalled) :
    Attended { pool := pool, waits := s.waits.set call c } := by
  refine ⟨?_, ?_, ?_⟩
  · intro d hd w hw
    rw [hworkers]
    rcases List.mem_or_eq_of_mem_set hd with hd | rfl
    · exact h.asleep d hd w hw
    · exact hasleep w hw
  · intro d hd w hw
    rw [hworkers]
    rcases List.mem_or_eq_of_mem_set hd with hd | rfl
    · exact h.ended d hd w hw
    · exact hover w hw
  · intro d hd
    rcases List.mem_or_eq_of_mem_set hd with hd | rfl
    · exact h.gentle d hd
    · exact hgentle

theorem Attended.join (h : Attended s) (hs : s.step (.join call) = some s') : Attended s' := by
  obtain ⟨place, thread, rest, c, hcall, hjoins, rfl⟩ := h.joins hs
  have hin := List.mem_of_getElem? hcall
  cases hjoins with
  | sleeps cell running =>
    refine h.set rfl ?_ (fun w hw => nomatch hw) (fun _ hn => nomatch hn)
    rintro w ⟨rfl⟩
    exact ⟨_, cell, running⟩
  | finds cell running =>
    refine h.set rfl (fun w hw => nomatch hw) ?_ (fun _ hn => nomatch hn)
    rintro w ⟨rfl⟩
    exact ⟨_, cell, running⟩
  | leaves =>
    exact h.set rfl (fun w hw => nomatch hw) (fun w hw => h.ended _ hin w hw)
      (fun _ hn => nomatch hn)
  | deletes =>
    exact h.set rfl (fun w hw => nomatch hw) (fun w hw => nomatch hw) (fun _ hn => nomatch hn)

theorem Attended.loopHead (h : Attended s) (call : Nat) : Attended (s.loopHead call) := by
  unfold PoolWait.loopHead
  split
  · exact ⟨fun c hc => h.asleep c (List.mem_of_mem_eraseIdx hc),
      fun c hc => h.ended c (List.mem_of_mem_eraseIdx hc),
      fun c hc => h.gentle c (List.mem_of_mem_eraseIdx hc)⟩
  · exact h.set rfl (fun w hw => nomatch hw) (fun w hw => nomatch hw) (fun _ hn => nomatch hn)

/-- A further call has no thread before it yet. -/
theorem Attended.begin (h : Attended s) :
    Attended { pool := s.pool.beginWait, waits := s.waits ++ [⟨.ahead, []⟩] } := by
  refine ⟨?_, ?_, ?_⟩
  · rw [List.forall_mem_append, List.forall_mem_singleton]
    exact ⟨h.asleep, fun w hw => nomatch hw⟩
  · rw [List.forall_mem_append, List.forall_mem_singleton]
    exact ⟨h.ended, fun w hw => nomatch hw⟩
  · rw [List.forall_mem_append, List.forall_mem_singleton]
    exact ⟨h.gentle, fun _ hn => nomatch hn⟩

/-- The calls behind a step of the pool are those from before, or all of them
when it is a cleanup are signalled. -/
theorem signalled_mem {e : ThreadPool.Event} (h : c ∈ s.signalled e) :
    (c ∈ s.waits ∧ ∀ w, e ≠ .cleanup w) ∨ ∃ w d, e = .cleanup w ∧ d ∈ s.waits ∧ c = d.signal w := by
  cases e with
  | cleanup w =>
    obtain ⟨d, hd, rfl⟩ := List.mem_map.mp h
    exact Or.inr ⟨w, d, rfl, hd, rfl⟩
  | start | startNow | startNowChoked | reserve | setRetireTimeout | enter | finish | wake | expire
  | resume => exact Or.inl ⟨h, fun w hn => nomatch hn⟩

theorem signalled_length (s : PoolWait) (e : ThreadPool.Event) :
    (s.signalled e).length = s.waits.length := by
  cases e with
  | cleanup w => exact List.length_map _
  | start | startNow | startNowChoked | reserve | setRetireTimeout | enter | finish | wake | expire
  | resume => rfl

/-- As long as no thread is restarted whose end a call takes for final, the calls
find the threads as they think them to be. -/
theorem Attended.pool (h : Attended s) {e : ThreadPool.Event} {p' : ThreadPool}
    (hok : sparing s.waits s.pool e) (hs : s.pool.step e = some p') :
    Attended { pool := p', waits := s.signalled e } := by
  have hruns := (step_running hs).1
  refine ⟨?_, ?_, ?_⟩
  · intro c hc w hw
    have hbefore : (∃ d ∈ s.waits, awaited d = some w) ∧ e ≠ .cleanup w := by
      rcases signalled_mem hc with ⟨hc, hclean⟩ | ⟨v, d, rfl, hd, rfl⟩
      · exact ⟨⟨c, hc, hw⟩, hclean w⟩
      · obtain ⟨hw, hne⟩ := awaited_signal hw
        exact ⟨⟨d, hd, hw⟩, fun hn => hne (ThreadPool.Event.cleanup.inj hn).symm⟩
    obtain ⟨⟨d, hd, hw⟩, hclean⟩ := hbefore
    obtain ⟨x, hx, hrun⟩ := h.asleep d hd w hw
    obtain ⟨y, hy, hkind⟩ := hruns w x hx
    refine ⟨y, hy, ?_⟩
    rcases hkind with hsame | ⟨_, hyes⟩
    · rw [hsame, hrun]
      simp [hclean]
    · exact hyes
  · intro c hc w hw
    rcases signalled_mem hc with ⟨hc, hclean⟩ | ⟨v, d, rfl, hd, rfl⟩
    · obtain ⟨x, hx, hno⟩ := h.ended c hc w hw
      obtain ⟨y, hy, hkind⟩ := hruns w x hx
      refine ⟨y, hy, ?_⟩
      rcases hkind with hsame | ⟨htaken, _⟩
      · rw [hsame, hno]
        rfl
      · exact absurd hw ((hok w htaken).2 c hc)
    · rcases passed_signal hw with hw | ⟨hwait, rfl⟩
      · obtain ⟨x, hx, hno⟩ := h.ended d hd w hw
        obtain ⟨y, hy, hkind⟩ := hruns w x hx
        refine ⟨y, hy, ?_⟩
        rcases hkind with hsame | ⟨htaken, _⟩
        · rw [hsame, hno]
          rfl
        · cases htaken
      · obtain ⟨x, hx, _⟩ := h.asleep d hd w hwait
        obtain ⟨y, hy, hkind⟩ := hruns w x hx
        refine ⟨y, hy, ?_⟩
        rcases hkind with hsame | ⟨htaken, _⟩
        · rw [hsame]
          simp
        · cases htaken
  · intro c hc
    rcases signalled_mem hc with ⟨hc, _⟩ | ⟨v, d, rfl, hd, rfl⟩
    · exact h.gentle c hc
    · exact gentle_signal (h.gentle d hd)

theorem create_attended (count : Nat) : Attended (.create count) := by
  refine ⟨?_, ?_, ?_⟩ <;>
  · intro c hc
    cases hc

end

end CkCore.Proofs.PoolJoin
