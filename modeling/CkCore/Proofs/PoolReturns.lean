import CkCore.Proofs.PoolJoin

namespace CkCore.Proofs.PoolReturns
open Lib ThreadPool PoolCount PoolToil PoolJoin

/-- The steps of the workers and of the calls of wait in progress. -/
def quiet : PoolWait.Event → Prop
  | .pool e => labour e
  | .wait => False
  | .join _ | .relock _ => True

/-- No worker waits without limit, or is going to. -/
def limited (p : ThreadPool) : Prop :=
  p.retTimeout ≠ unlimited ∧ ∀ x ∈ p.workers, x.pc ≠ .waiting unlimited

/-- The steps that let no call of wait end while a worker the other ones wait
for may wait without limit, and that restart no thread that is deleted or about
to be. -/
def patient (s : PoolWait) : PoolWait.Event → Prop
  | .wait => s.waits = [] ∨ limited s.pool
  | .pool (.setRetireTimeout timeout) =>
    timeout ≠ unlimited ∨ s.waits = [] ∨ (s.waits.length = 1 ∧ s.pool.exiting = true)
  | .pool e => sparing s.waits s.pool e
  | .join _ | .relock _ => True

/-- Every call of wait in progress has its wake-ups for all that wait. -/
structure Roused (p : ThreadPool) : Prop where
  alive : ∀ x ∈ p.workers, Alive x
  waiters : p.taskReady.waiters = tally p .waiting
  recorded : p.taskReady.wakeups ≤ p.workers.length
  roused : p.exiting = true → tally p .waiting ≤ p.taskReady.wakeups

structure Returning (s : PoolWait) : Prop where
  roused : Roused s.pool
  attended : Attended s
  known : ∀ w, (w ∈ s.pool.allThreads ∨ ∃ c ∈ s.waits, w ∈ c.batch) → w < s.pool.workers.length
  bounded : s.waits = [] ∨ (s.waits.length = 1 ∧ s.pool.exiting = true) ∨ limited s.pool

/-- The sections under the mutex of its first thread a call has before it. -/
def sections : JoinPlace → Nat
  | .ahead => 3
  | .waiting _ => 2
  | .back | .killing _ => 1

/-- The steps a call has before it until its copy of all_threads_ is used up. -/
def ahead : PoolCall → Nat
  | ⟨_, []⟩ => 1
  | ⟨place, _ :: rest⟩ => 3 * rest.length + sections place + 1

/-- What is left to do until no call of wait is in progress. -/
def work (s : PoolWait) : Nat :=
  effort s.pool + 4 * s.pool.allThreads.length + weight ahead s.waits

instance (p : ThreadPool) : Decidable (limited p) := inferInstanceAs (Decidable (_ ∧ _))

instance (s : PoolWait) : DecidablePred (patient s)
  | .wait => inferInstanceAs (Decidable (_ ∨ _))
  | .pool (.setRetireTimeout _) => inferInstanceAs (Decidable (_ ∨ _ ∨ _))
  | .pool (.start task priority created) =>
    inferInstanceAs (Decidable (sparing s.waits s.pool (.start task priority created)))
  | .pool (.startNow task created) =>
    inferInstanceAs (Decidable (sparing s.waits s.pool (.startNow task created)))
  | .pool (.reserve numThreads created) =>
    inferInstanceAs (Decidable (sparing s.waits s.pool (.reserve numThreads created)))
  | .pool (.startNowChoked _) | .pool (.enter _) | .pool (.finish _) | .pool (.wake _)
  | .pool (.expire _) | .pool (.resume _) | .pool (.cleanup _) =>
    isTrue fun _ hw => nomatch hw
  | .join _ | .relock _ => isTrue trivial

section
variable {p p' : ThreadPool} {w : Nat} {x y : Worker} {e : ThreadPool.Event}

theorem tally_most (p : ThreadPool) (k : Place) : tally p k ≤ p.workers.length :=
  List.countP_le_length

theorem labours_roused (h : Roused p) (hfew : p.workers.length + 1 < word)
    (hl : Labours p p' w x y) : Roused p' := by
  have hmost := tally_most p .waiting
  have hwaiters := h.waiters
  have hrecorded := h.recorded
  have hlength : p'.workers.length = p.workers.length := by rw [hl.workers, List.length_set]
  have hcensus := hl.toMoved.tally hl.cell rfl rfl .waiting
  have halive := hl.all_alive h.alive
  rcases hl.cond with ⟨hx, hy, hsame⟩ | ⟨hx, hy, hcalm, hsame⟩ | ⟨hx, hy, hsame⟩
  · rw [beq_false_of_ne hx, beq_false_of_ne hy] at hcensus
    have htally : tally p' .waiting = tally p .waiting := Nat.add_right_cancel hcensus
    refine ⟨halive, ?_, ?_, fun hexit => ?_⟩
    · rw [hsame, htally]
      exact hwaiters
    · rw [hsame, hlength]
      exact hrecorded
    · rw [hsame, htally]
      exact h.roused (hl.exiting ▸ hexit)
  · rw [beq_false_of_ne hx, hy] at hcensus
    have htally : tally p' .waiting = tally p .waiting + 1 := hcensus
    refine ⟨halive, ?_, ?_, fun hexit => ?_⟩
    · rw [hsame, htally]
      change addWord p.taskReady.waiters 1 = _
      rw [addWord_eq (by omega), hwaiters]
    · rw [hsame, hlength]
      exact hrecorded
    · rw [hl.exiting, hcalm] at hexit
      cases hexit
  · rw [hx, beq_false_of_ne hy] at hcensus
    have htally : tally p' .waiting + 1 = tally p .waiting := hcensus
    have hone : subWord p.taskReady.waiters 1 = p.taskReady.waiters - 1 :=
      subWord_eq (by omega) (by omega)
    -- one waiter less, and at most one wake-up
    have hleft : p'.taskReady.waiters = p.taskReady.waiters - 1 ∧
        p.taskReady.wakeups - 1 ≤ p'.taskReady.wakeups ∧
        p'.taskReady.wakeups ≤ p.taskReady.wakeups := by
      rcases hsame with hsame | ⟨hsome, hsame⟩
      · rw [hsame, WaitCondition.expire_wakeups]
        exact ⟨hone, Nat.sub_le _ _, Nat.le_refl _⟩
      · have hwakeups : p.taskReady.wake.wakeups = p.taskReady.wakeups - 1 :=
          subWord_eq (by omega) (by omega)
        rw [hsame, hwakeups]
        exact ⟨hone, Nat.le_refl _, Nat.sub_le _ _⟩
    refine ⟨halive, by omega, by omega, fun hexit => ?_⟩
    have hall := h.roused (hl.exiting ▸ hexit)
    omega

theorem labours_limited (h : limited p) (hl : Labours p p' w x y) : limited p' := by
  refine ⟨hl.timeout ▸ h.1, fun z hz => ?_⟩
  rcases hl.toMoved.others hz with hz | rfl
  · exact h.2 z hz
  · intro hpc
    rcases hl.cond with ⟨_, hy, _⟩ | ⟨_, hy, _⟩ | ⟨_, hy, _⟩
    · exact hy (by rw [hpc]; rfl)
    · rw [hy] at hpc
      exact h.1 (WorkerPc.waiting.inj hpc)
    · exact hy (by rw [hpc]; rfl)

/-- Only a worker that is not running is restarted, and none of these waits. -/
theorem start_place (h : Alive x) (task : Task) (created : Bool) :
    place (({ x with task := some task } : Worker).start created).2.pc = .waiting ↔
      place x.pc = .waiting := by
  rcases start_cases { x with task := some task } created with ⟨hrun, _, hy⟩ | ⟨_, hy⟩
  · have hlast := h.running
    rw [show x.running = false from hrun] at hlast
    rw [hy]
    cases hpc : x.pc <;> rw [hpc] at hlast <;> cases hlast <;> exact ⟨nofun, nofun⟩
  · rw [hy]

theorem newborn_place (task : Task) (created : Bool) :
    place (newborn task created).pc ≠ .waiting := by
  cases created <;> exact fun hn => nomatch hn

theorem called_tally (h : ∀ x ∈ p.workers, Alive x) (hc : Called p p') :
    tally p' .waiting = tally p .waiting := by
  rcases hc.workers with ⟨hsame, _⟩ | ⟨w, x, task, created, hw, hset, _⟩ | ⟨task, created, hnew, _⟩
  · rw [tally, hsame]
    rfl
  · have hplace := start_place (h x (List.mem_of_getElem? hw)) task created
    rw [tally, hset]
    refine census_same _ hw ?_
    rw [Bool.eq_iff_iff, beq_iff_eq, beq_iff_eq]
    exact hplace
  · rw [tally, hnew, census_append, beq_false_of_ne (newborn_place task created)]
    rfl

theorem called_length (hc : Called p p') : p.workers.length ≤ p'.workers.length := by
  rcases hc.workers with ⟨hsame, _⟩ | ⟨w, x, task, created, _, hset, _⟩ | ⟨task, created, hnew, _⟩
  · exact Nat.le_of_eq (congrArg List.length hsame.symm)
  · exact Nat.le_of_eq (by rw [hset, List.length_set])
  · rw [hnew, List.length_append]
    exact Nat.le_add_right _ _

/-- Workers are never taken away, and they make none themselves. -/
theorem pool_length (hs : p.step e = some p') : p.workers.length ≤ p'.workers.length ∧
    (labour e → p'.workers.length = p.workers.length) := by
  by_cases hown : labour e
  · obtain ⟨w, x, y, hl⟩ := labour_cases hown hs
    have hsame : p'.workers.length = p.workers.length := by rw [hl.workers, List.length_set]
    exact ⟨Nat.le_of_eq hsame.symm, fun _ => hsame⟩
  · exact ⟨called_length (called_cases hown hs).1, fun h => absurd h hown⟩

theorem called_roused (h : Roused p) (hfew : p.workers.length + 1 < word) (hc : Called p p') :
    Roused p' := by
  have htally := called_tally h.alive hc
  have hmore := called_length hc
  have hmost := tally_most p .waiting
  have hwaiters := h.waiters
  have hrecorded := h.recorded
  have halive := hc.alive h.alive
  rcases hc.cond with hsame | hsame
  · refine ⟨halive, ?_, ?_, fun hexit => ?_⟩
    · rw [hsame, htally]
      exact hwaiters
    · rw [hsame]
      exact Nat.le_trans hrecorded hmore
    · rw [hsame, htally]
      exact h.roused (hc.exiting ▸ hexit)
  · have hwaiters' : p'.taskReady.waiters = p.taskReady.waiters := by rw [hsame]; rfl
    have hwakeups : p'.taskReady.wakeups = min (p.taskReady.wakeups + 1) p.taskReady.waiters := by
      rw [hsame, ← addWord_eq (show p.taskReady.wakeups + 1 < word by omega)]
      rfl
    refine ⟨halive, by omega, by omega, fun hexit => ?_⟩
    have hall := h.roused (hc.exiting ▸ hexit)
    omega

theorem called_limited (h : limited p) (hc : Called p p') (htimeout : p'.retTimeout ≠ unlimited) :
    limited p' := by
  refine ⟨htimeout, fun z hz hpc => ?_⟩
  have hplace : place z.pc = .waiting := by rw [hpc]; rfl
  rcases hc.workers with ⟨hsame, _⟩ | ⟨w, x, task, created, hw, hset, _⟩ | ⟨task, created, hnew, _⟩
  · rw [hsame] at hz
    exact h.2 z hz hpc
  · rw [hset] at hz
    rcases List.mem_or_eq_of_mem_set hz with hz | rfl
    · exact h.2 z hz hpc
    · have hx := List.mem_of_getElem? hw
      rcases start_cases { x with task := some task } created with ⟨_, _, hy⟩ | ⟨_, hy⟩
      · rw [hy] at hpc
        cases hpc
      · rw [hy] at hpc
        exact h.2 x hx hpc
  · rw [hnew] at hz
    rcases spawn_others hz with hz | rfl
    · exact h.2 z hz hpc
    · exact newborn_place task created hplace

end

section
variable {s s' : PoolWait} {call : Nat} {c : PoolCall}

theorem patient_spares {e : ThreadPool.Event} (h : patient s (.pool e)) :
    sparing s.waits s.pool e := by
  cases e with
  | setRetireTimeout timeout => exact fun w hw => nomatch hw
  | start | startNow | startNowChoked | reserve | enter | finish | wake | expire | resume
  | cleanup => exact h

theorem signal_batch (c : PoolCall) (w : Nat) : (c.signal w).batch = c.batch := by
  unfold PoolCall.signal
  split <;> rfl

theorem signal_ahead (c : PoolCall) (w : Nat) : ahead (c.signal w) = ahead c := by
  obtain ⟨place, batch⟩ := c
  unfold PoolCall.signal
  split
  · cases batch with
    | nil => rfl
    | cons thread rest => cases place <;> rfl
  · rfl

/-- A cleanup only signals. -/
theorem signalled_ahead (s : PoolWait) (e : ThreadPool.Event) :
    weight ahead (s.signalled e) = weight ahead s.waits := by
  cases e with
  | cleanup w => exact weight_map fun c _ => signal_ahead c w
  | start | startNow | startNowChoked | reserve | setRetireTimeout | enter | finish | wake | expire
  | resume => rfl

theorem signalled_nil {e : ThreadPool.Event} (h : s.waits = []) : s.signalled e = [] := by
  apply List.eq_nil_of_length_eq_zero
  rw [signalled_length, h]
  rfl

theorem signalled_known {e : ThreadPool.Event} {w : Nat} (h : ∃ c ∈ s.signalled e, w ∈ c.batch) :
    ∃ c ∈ s.waits, w ∈ c.batch := by
  obtain ⟨c, hc, hw⟩ := h
  rcases signalled_mem hc with ⟨hc, _⟩ | ⟨v, d, _, hd, rfl⟩
  · exact ⟨c, hc, hw⟩
  · rw [signal_batch] at hw
    exact ⟨d, hd, hw⟩

theorem pool_returning (h : Returning s) (hfew : s.pool.workers.length + 1 < word)
    {e : ThreadPool.Event} {p' : ThreadPool} (hok : patient s (.pool e))
    (hs : s.pool.step e = some p') : Returning { pool := p', waits := s.signalled e } := by
  have hattended := h.attended.pool (patient_spares hok) hs
  have hlength := signalled_length s e
  by_cases hown : labour e
  · obtain ⟨w, x, y, hl⟩ := labour_cases hown hs
    refine ⟨labours_roused h.roused hfew hl, hattended, ?_, ?_⟩
    · intro v hv
      rw [hl.allThreads] at hv
      exact Nat.lt_of_lt_of_le (h.known v (hv.imp_right signalled_known)) (pool_length hs).1
    · rcases h.bounded with hnone | hone | hlimited
      · exact Or.inl (signalled_nil hnone)
      · exact Or.inr (Or.inl ⟨hlength.trans hone.1, hl.exiting.trans hone.2⟩)
      · exact Or.inr (Or.inr (labours_limited hlimited hl))
  · obtain ⟨hc, htimeout⟩ := called_cases hown hs
    have hmore := called_length hc
    refine ⟨called_roused h.roused hfew hc, hattended, ?_, ?_⟩
    · intro v hv
      rcases hv with hv | hv
      · rcases hc.workers with ⟨_, hall⟩ | ⟨_, _, _, _, _, _, hall⟩ | ⟨task, created, hnew, hall⟩
        · rw [hall] at hv
          exact Nat.lt_of_lt_of_le (h.known v (Or.inl hv)) hmore
        · rw [hall] at hv
          exact Nat.lt_of_lt_of_le (h.known v (Or.inl hv)) hmore
        · rw [hall, List.mem_append, List.mem_singleton] at hv
          rcases hv with hv | rfl
          · exact Nat.lt_of_lt_of_le (h.known v (Or.inl hv)) hmore
          · rw [hnew, List.length_append]
            exact Nat.lt_succ_self _
      · exact Nat.lt_of_lt_of_le (h.known v (Or.inr (signalled_known hv))) hmore
    · rcases h.bounded with hnone | hone | hlimited
      · exact Or.inl (signalled_nil hnone)
      · exact Or.inr (Or.inl ⟨hlength.trans hone.1, hc.exiting.trans hone.2⟩)
      · by_cases hset : ∃ timeout, e = .setRetireTimeout timeout
        · obtain ⟨timeout, rfl⟩ := hset
          cases hs
          rcases hok with hshort | hnone | hone
          · exact Or.inr (Or.inr ⟨hshort, hlimited.2⟩)
          · exact Or.inl hnone
          · exact Or.inr (Or.inl hone)
        · have hsame := htimeout fun timeout he => hset ⟨timeout, he⟩
          exact Or.inr (Or.inr (called_limited hlimited hc (hsame ▸ hlimited.1)))

/-- The threads of the calls that go on are among those there were. -/
theorem known_set {w : Nat} (h : ∃ d ∈ s.waits.set call c, w ∈ d.batch) :
    (∃ d ∈ s.waits, w ∈ d.batch) ∨ w ∈ c.batch := by
  obtain ⟨d, hd, hw⟩ := h
  rcases List.mem_or_eq_of_mem_set hd with hd | rfl
  · exact Or.inl ⟨d, hd, hw⟩
  · exact Or.inr hw

/-- The call whose threads are all deleted goes on. -/
theorem loopHead_returning (h : Returning s) {place : JoinPlace}
    (hcall : s.waits[call]? = some ⟨place, []⟩) : Returning (s.loopHead call) := by
  have hattended := h.attended.loopHead call
  obtain ⟨hlt, _⟩ := List.getElem?_eq_some_iff.mp hcall
  have hopen : s.waits ≠ [] := fun hn => by simp [hn] at hlt
  unfold PoolWait.loopHead at hattended ⊢
  split
  case isTrue hall =>
    rw [if_pos hall] at hattended
    refine ⟨⟨h.roused.alive, h.roused.waiters, h.roused.recorded, fun hexit => nomatch hexit⟩,
      hattended, ?_, ?_⟩
    · rintro w (hw | ⟨d, hd, hw⟩)
      · exact h.known w (Or.inl hw)
      · exact h.known w (Or.inr ⟨d, List.mem_of_mem_eraseIdx hd, hw⟩)
    · rcases h.bounded with hnone | ⟨hone, _⟩ | hlimited
      · exact absurd hnone hopen
      · refine Or.inl (List.eq_nil_of_length_eq_zero ?_)
        change (s.waits.eraseIdx call).length = 0
        rw [List.length_eraseIdx_of_lt hlt, hone]
      · exact Or.inr (Or.inr hlimited)
  case isFalse hall =>
    rw [if_neg hall] at hattended
    refine ⟨⟨h.roused.alive, h.roused.waiters, h.roused.recorded, h.roused.roused⟩,
      hattended, ?_, ?_⟩
    · rintro w (hw | hw)
      · cases hw
      · rcases known_set hw with hw | hw
        · exact h.known w (Or.inr hw)
        · exact h.known w (Or.inl hw)
    · rcases h.bounded with hnone | ⟨hone, hexit⟩ | hlimited
      · exact absurd hnone hopen
      · exact Or.inr (Or.inl ⟨by rw [List.length_set]; exact hone, hexit⟩)
      · exact Or.inr (Or.inr hlimited)

theorem wait_returning (h : Returning s) (hok : patient s .wait) : Returning s.wait := by
  refine loopHead_returning (s := ⟨s.pool.beginWait, s.waits ++ [⟨.ahead, []⟩]⟩) ?_
    List.getElem?_concat_length
  refine ⟨⟨h.roused.alive, h.roused.waiters, ?_, fun _ => ?_⟩, h.attended.begin, ?_, ?_⟩
  · change s.pool.taskReady.waiters ≤ _
    rw [h.roused.waiters]
    exact tally_most s.pool .waiting
  · exact Nat.le_of_eq h.roused.waiters.symm
  · rintro w (hw | ⟨d, hd, hw⟩)
    · exact h.known w (Or.inl hw)
    · rcases List.mem_append.mp hd with hd | hd
      · exact h.known w (Or.inr ⟨d, hd, hw⟩)
      · cases List.mem_singleton.mp hd
        cases hw
  · rcases hok with hnone | hlimited
    · exact Or.inr (Or.inl ⟨by rw [hnone]; rfl, rfl⟩)
    · exact Or.inr (Or.inr hlimited)

theorem Joins.batch {p : ThreadPool} {thread : Nat} {rest : List Nat} {place : JoinPlace}
    (h : Joins p thread rest place c) : ∀ w ∈ c.batch, w ∈ thread :: rest := by
  cases h with
  | sleeps | finds | leaves => exact fun w hw => hw
  | deletes => exact fun w hw => List.mem_cons_of_mem _ hw

/-- Behind each section there is one less before the call. -/
theorem Joins.ahead {p : ThreadPool} {thread : Nat} {rest : List Nat} {place : JoinPlace}
    (h : Joins p thread rest place c) :
    PoolReturns.ahead c < PoolReturns.ahead ⟨place, thread :: rest⟩ := by
  cases h with
  | sleeps | finds | leaves => simp [PoolReturns.ahead, sections]
  | deletes =>
    cases rest with
    | nil => simp [PoolReturns.ahead, sections]
    | cons next rest =>
      simp only [PoolReturns.ahead, sections, List.length_cons]
      omega

theorem join_returning (h : Returning s) (hs : s.step (.join call) = some s') : Returning s' := by
  have hattended := h.attended.join hs
  obtain ⟨place, thread, rest, c, hcall, hjoins, rfl⟩ := h.attended.joins hs
  refine ⟨h.roused, hattended, ?_, ?_⟩
  · rintro w (hw | hw)
    · exact h.known w (Or.inl hw)
    · rcases known_set hw with hw | hw
      · exact h.known w (Or.inr hw)
      · exact h.known w (Or.inr ⟨_, List.mem_of_getElem? hcall, Joins.batch hjoins w hw⟩)
  · rcases h.bounded with hnone | ⟨hone, hexit⟩ | hlimited
    · rw [hnone] at hcall
      cases hcall
    · exact Or.inr (Or.inl ⟨by rw [List.length_set]; exact hone, hexit⟩)
    · exact Or.inr (Or.inr hlimited)

theorem loopHead_workers (s : PoolWait) (call : Nat) :
    (s.loopHead call).pool.workers = s.pool.workers := by
  unfold PoolWait.loopHead
  split <;> rfl

theorem step_returning (h : Returning s) (hfew : s.pool.workers.length + 1 < word)
    {e : PoolWait.Event} (hok : patient s e) (hs : s.step e = some s') : Returning s' := by
  cases e with
  | pool e =>
    obtain ⟨p', hp, rfl⟩ := Option.map_eq_some_iff.mp hs
    exact pool_returning h hfew hok hp
  | wait =>
    cases hs
    exact wait_returning h hok
  | join call => exact join_returning h hs
  | relock call =>
    obtain ⟨⟨place, hcall⟩, rfl⟩ := step_relock hs
    exact loopHead_returning h hcall

/-- No step of the workers asks for anything that would have to be avoided. -/
theorem quiet_patient {e : PoolWait.Event} (hquiet : quiet e) : patient s e := by
  cases e with
  | pool e =>
    cases e with
    | start | startNow | startNowChoked | reserve | setRetireTimeout => exact hquiet.elim
    | enter | finish | wake | expire | resume | cleanup => exact fun w hw => nomatch hw
  | wait => exact hquiet.elim
  | join | relock => exact trivial

/-- A call only ever touches its place, unless it kills. -/
theorem join_length (hs : s.step (.join call) = some s') :
    s'.pool.workers.length = s.pool.workers.length := by
  obtain ⟨place, thread, rest, _, hjoin⟩ := step_join hs
  unfold PoolWait.join at hjoin
  dsimp only at hjoin
  split at hjoin
  case h_1 => cases hjoin
  case h_2 x hx =>
    match place with
    | .ahead =>
      cases hjoin
      rfl
    | .waiting true =>
      cases hjoin
      rfl
    | .waiting false | .killing false => cases hjoin
    | .back =>
      cases hjoin
      split <;> rfl
    | .killing true =>
      cases hjoin
      exact List.length_set

theorem step_length {e : PoolWait.Event} (hs : s.step e = some s') :
    s.pool.workers.length ≤ s'.pool.workers.length ∧
      (quiet e → s'.pool.workers.length = s.pool.workers.length) := by
  cases e with
  | pool e =>
    obtain ⟨p', hp, rfl⟩ := Option.map_eq_some_iff.mp hs
    exact pool_length hp
  | wait =>
    cases hs
    have hsame : s.wait.pool.workers = s.pool.workers := loopHead_workers _ _
    exact ⟨Nat.le_of_eq (congrArg List.length hsame.symm), fun hn => hn.elim⟩
  | join call =>
    have hsame := join_length hs
    exact ⟨Nat.le_of_eq hsame.symm, fun _ => hsame⟩
  | relock call =>
    obtain ⟨_, rfl⟩ := step_relock hs
    rw [loopHead_workers]
    exact ⟨Nat.le_refl _, fun _ => rfl⟩

theorem loopHead_less {place : JoinPlace} (hcall : s.waits[call]? = some ⟨place, []⟩) :
    work (s.loopHead call) < work s := by
  unfold PoolWait.loopHead
  split
  case isTrue hall =>
    have hweight : weight ahead (s.waits.eraseIdx call) + 1 = weight ahead s.waits :=
      weight_eraseIdx _ hcall
    change effort s.pool + 4 * s.pool.allThreads.length +
      weight ahead (s.waits.eraseIdx call) < work s
    unfold work
    omega
  case isFalse hall =>
    have hweight : weight ahead (s.waits.set call ⟨.ahead, s.pool.allThreads⟩) + 1 =
        weight ahead s.waits + ahead ⟨.ahead, s.pool.allThreads⟩ := weight_set _ hcall _
    change effort s.pool + 4 * 0 +
      weight ahead (s.waits.set call ⟨.ahead, s.pool.allThreads⟩) < work s
    obtain ⟨first, others, hsome⟩ := List.exists_cons_of_ne_nil hall
    rw [hsome] at hweight ⊢
    simp only [ahead, sections] at hweight
    simp only [work, hsome, List.length_cons]
    omega

theorem quiet_less (h : Returning s) {e : PoolWait.Event} (hquiet : quiet e)
    (hs : s.step e = some s') : work s' < work s := by
  cases e with
  | pool e =>
    obtain ⟨p', hp, rfl⟩ := Option.map_eq_some_iff.mp hs
    have hless := labour_less hquiet hp
    obtain ⟨w, x, y, hl⟩ := labour_cases hquiet hp
    change effort p' + 4 * p'.allThreads.length + weight ahead (s.signalled e) < work s
    unfold work
    rw [hl.allThreads, signalled_ahead]
    omega
  | wait => exact hquiet.elim
  | join call =>
    obtain ⟨place, thread, rest, c, hcall, hjoins, rfl⟩ := h.attended.joins hs
    have hweight := weight_set ahead hcall c
    have hless := Joins.ahead hjoins
    change effort s.pool + 4 * s.pool.allThreads.length + weight ahead (s.waits.set call c) < work s
    unfold work
    omega
  | relock call =>
    obtain ⟨⟨place, hcall⟩, rfl⟩ := step_relock hs
    exact loopHead_less hcall

/-- A call can go on with its first thread, or that thread can. -/
theorem Returning.thread_moves (h : Returning s) {place : JoinPlace} {thread : Nat}
    {rest : List Nat} (hcall : s.waits[call]? = some ⟨place, thread :: rest⟩) :
    ∃ e s', quiet e ∧ s.step e = some s' := by
  have hin := List.mem_of_getElem? hcall
  obtain ⟨x, hw⟩ : ∃ x, s.pool.workers[thread]? = some x :=
    ⟨_, List.getElem?_eq_getElem (h.known thread (Or.inr ⟨_, hin, List.mem_cons_self⟩))⟩
  have hjoins (hsome : (s.join call thread place rest).isSome) :
      ∃ e s', quiet e ∧ s.step e = some s' := by
    obtain ⟨t, ht⟩ := Option.isSome_iff_exists.mp hsome
    refine ⟨.join call, t, trivial, ?_⟩
    simp only [PoolWait.step, hcall, ht]
  cases place with
  | ahead => exact hjoins (by simp [PoolWait.join, hw])
  | back => exact hjoins (by simp [PoolWait.join, hw])
  | killing signalled => exact absurd rfl (h.attended.gentle _ hin signalled)
  | waiting signalled =>
    cases signalled with
    | true => exact hjoins (by simp [PoolWait.join, hw])
    | false =>
      have hmem : x ∈ s.pool.workers := List.mem_of_getElem? hw
      have halive := h.roused.alive x hmem
      have hlast : ended x.pc = false := by
        obtain ⟨y, hy, hrun⟩ := h.attended.asleep _ hin thread rfl
        rw [hw] at hy
        cases hy
        rw [halive.running] at hrun
        simpa using hrun
      rcases halive.moves hw hlast with ⟨e, p', hown, _, hs⟩ | ⟨hpc, hnone⟩
      · refine ⟨.pool e, { pool := p', waits := s.signalled e }, hown, ?_⟩
        simp only [PoolWait.step, hs, Option.map_some]
      · exfalso
        rcases h.bounded with hempty | ⟨_, hexit⟩ | hlimited
        · rw [hempty] at hcall
          cases hcall
        · have hone : 0 < tally s.pool .waiting := tally_pos hw (by rw [hpc]; rfl)
          have hall := h.roused.roused hexit
          omega
        · exact hlimited.2 x hmem hpc

/-- A call in progress can go on, or a worker it waits for can. -/
theorem Returning.moves (h : Returning s) (hopen : s.waits ≠ []) :
    ∃ e s', quiet e ∧ s.step e = some s' := by
  obtain ⟨⟨place, batch⟩, others, hwaits⟩ := List.exists_cons_of_ne_nil hopen
  have hcall : s.waits[0]? = some ⟨place, batch⟩ := by rw [hwaits]; rfl
  cases batch with
  | nil =>
    refine ⟨.relock 0, s.loopHead 0, trivial, ?_⟩
    simp only [PoolWait.step, hcall]
  | cons thread rest => exact h.thread_moves hcall

theorem create_returning (count : Nat) : Returning (.create count) := by
  refine ⟨⟨?_, rfl, Nat.zero_le _, fun hexit => nomatch hexit⟩, create_attended count, ?_,
    Or.inl rfl⟩
  · intro x hx
    cases hx
  · rintro w (hw | ⟨c, hc, _⟩)
    · cases hw
    · cases hc

theorem reached_returning (h : PoolWait.system.Reached patient s)
    (hfew : s.pool.workers.length + 1 < word) : Returning s := by
  have hall : s.pool.workers.length + 1 < word → Returning s := by
    refine h.invariant (P := fun t => t.pool.workers.length + 1 < word → Returning t) ?_ ?_
    · rintro s ⟨count, rfl⟩ _
      exact create_returning count
    · intro s e s' hi hok hs hfew
      have hmore := (step_length hs).1
      have hbefore : s.pool.workers.length + 1 < word := by omega
      exact step_returning (hi hbefore) hbefore hok hs
  exact hall hfew

end
end CkCore.Proofs.PoolReturns
