import CkCore.Proofs.PoolJoin

namespace CkCore.Proofs.PoolDrain
open Lib ThreadPool PoolTasks PoolCount PoolTurns PoolToil PoolJoin

/-- The worker is going to look at the queue, or may. -/
def seeks : WorkerPc → Bool
  | .starting | .executing | .waiting _ | .woken false => true
  | _ => false

def seekers (p : ThreadPool) : Nat := p.workers.countP fun x => seeks x.pc

/-- A queued task has somebody who may come for it. -/
def sought (p : ThreadPool) : Prop := p.queue = [] ∨ 0 < seekers p

/-- The steps that leave no queued task behind without a worker that may come
for it. -/
def watchful (p : ThreadPool) : ThreadPool.Event → Prop
  | .start (some _) _ created => 0 < seekers p ∨
    p.activeThreads < p.maxThreads ∧ p.idlThreads = 0 ∧ created = true
  | .startNow (some _) _ => p.activeThreads < p.maxThreads → 0 < p.idlThreads → 0 < seekers p
  | .finish _ => p.queue = [] ∨ p.overworking = false ∨ 1 < seekers p
  | .expire _ => p.queue = [] ∨ 1 < seekers p
  | _ => True

instance (p : ThreadPool) : Decidable (sought p) := inferInstanceAs (Decidable (_ ∨ _))

instance (p : ThreadPool) : DecidablePred (watchful p)
  | .start (some _) _ _ => inferInstanceAs (Decidable (_ ∨ _ ∧ _ ∧ _))
  | .startNow (some _) _ => inferInstanceAs (Decidable (_ → _ → _))
  | .finish _ => inferInstanceAs (Decidable (_ ∨ _ ∨ _))
  | .expire _ => inferInstanceAs (Decidable (_ ∨ _))
  | .start none _ _ | .startNow none _ | .startNowChoked _ | .reserve _ _
  | .setRetireTimeout _ | .enter _ | .wake _ | .resume _ | .cleanup _ => isTrue trivial

section
variable {p p' : ThreadPool} {w : Nat} {x y : Worker} {e : ThreadPool.Event} {task : Task}
  {created : Bool}

theorem seekers_turn (hm : Moved p p' w y) (hw : p.workers[w]? = some x) :
    seekers p' + (seeks x.pc).toNat = seekers p + (seeks y.pc).toNat :=
  hm.census hw fun x => seeks x.pc

/-- Nobody is left to seek a queued task when a worker stops, unless another one
does or the queue is empty. -/
theorem sought_turn (h : sought p) (hm : Moved p p' w y) (hw : p.workers[w]? = some x)
    (hnext : p'.queue = [] ∨ seeks y.pc = true ∨
      p'.queue = p.queue ∧ (seeks x.pc = false ∨ 1 < seekers p)) : sought p' := by
  have hturn := seekers_turn hm hw
  rcases hnext with hempty | hy | ⟨hqueue, hx⟩
  · exact Or.inl hempty
  · exact Or.inr (census_pos (hm.self hw) hy)
  · rw [sought, hqueue]
    rcases h with hempty | hseek
    · exact Or.inl hempty
    · refine Or.inr ?_
      have hone := Bool.toNat_le (seeks x.pc)
      rcases hx with hx | hx
      · rw [hx, Bool.toNat_false] at hturn
        omega
      · omega

theorem enter_sought (h : sought p) (halive : ∀ x ∈ p.workers, Alive x)
    (hs : p.step (.enter w) = some p') : sought p' := by
  obtain ⟨x, hw, hpc, rfl⟩ := step_enter hs
  unfold ThreadPool.loopHead
  split
  case h_1 task htask =>
    exact sought_turn h (y := { x with pc := .executing }) ⟨rfl, rfl, rfl, rfl, rfl⟩ hw
      (Or.inr (Or.inl rfl))
  case h_2 htask =>
    exact absurd htask ((halive x (List.mem_of_getElem? hw)).tasked (Or.inl hpc))

theorem employ_sought (h : sought p) (hw : p.workers[w]? = some x) (entry : Task × Nat)
    (z : Worker) : sought (employ p entry w z) :=
  sought_turn h (y := { z with task := some entry.1, pc := .executing })
    ⟨rfl, rfl, rfl, rfl, rfl⟩ hw (Or.inr (Or.inl rfl))

theorem finish_sought (h : sought p) (hok : watchful p (.finish w))
    (hs : p.step (.finish w) = some p') : sought p' := by
  obtain ⟨x, task, hw, hpc, _, rfl⟩ := step_finish hs
  have hrecord : sought { p with executed := p.executed ++ [task] } := h
  unfold ThreadPool.finish
  dsimp only
  split
  case isTrue hover =>
    obtain ⟨y, hm, _⟩ := afterTasks_moved { p with executed := p.executed ++ [task] } w
      { x with task := none }
    have hqueue := afterTasks_queue { p with executed := p.executed ++ [task] } w
      { x with task := none }
    refine sought_turn hrecord hm hw ?_
    rcases hok with hempty | hnot | hothers
    · exact Or.inl (hqueue.trans hempty)
    · exact absurd hover (Bool.eq_false_iff.mp hnot)
    · exact Or.inr (Or.inr ⟨hqueue, Or.inr hothers⟩)
  case isFalse =>
    rcases fetch_turn (p := { p with executed := p.executed ++ [task] }) (w := w)
      (x := { x with task := none }) rfl with ⟨entry, _, hf⟩ | ⟨hempty, hf⟩
    · rw [hf]
      exact employ_sought hrecord hw entry _
    · rw [hf]
      exact Or.inl ((afterTasks_queue _ w _).trans hempty)

theorem resume_sought (h : sought p) (htidy : Tidy p) (hs : p.step (.resume w) = some p') :
    sought p' := by
  obtain ⟨x, expired, hw, hpc, rfl⟩ := step_resume hs
  cases expired with
  | true =>
    refine sought_turn h (y := { x with pc := .returned }) ⟨rfl, rfl, rfl, rfl, rfl⟩ hw
      (Or.inr (Or.inr ⟨rfl, Or.inl ?_⟩))
    rw [hpc]
    rfl
  | false =>
    have hnone := htidy.no_task hw (Or.inr ⟨false, hpc⟩)
    have hback : sought { p with
        polThreads := addWord p.polThreads 1, promised := p.promised - 1 } := h
    rcases resume_turn (p := p) hnone w with ⟨entry, _, hr⟩ | ⟨hempty, hr⟩
    · rw [hr]
      exact employ_sought hback hw entry x
    · rw [hr]
      exact Or.inl ((afterTasks_queue _ w x).trans hempty)

/-- try_start takes no worker away from the queue. -/
theorem tryStart_seekers (htidy : Tidy p) (task : Task) (created : Bool) :
    seekers p ≤ seekers (p.tryStart task created).2 := by
  rcases tryStart_cases p task created with ⟨_, hs⟩ | ⟨_, _, hs⟩ | ⟨_, _, w, rest, hret, hs⟩ |
    ⟨_, _, _, hs⟩
  · exact Nat.le_of_eq (congrArg (fun r : Bool × ThreadPool => seekers r.2) hs).symm
  · exact Nat.le_of_eq (congrArg (fun r : Bool × ThreadPool => seekers r.2) hs).symm
  · obtain ⟨x, hw, hgone, _⟩ := htidy.head hret
    have hx : seeks x.pc = false := by
      cases hpc : x.pc <;> rw [hpc] at hgone <;> first | rfl | cases hgone
    have hcensus := census_set (fun x : Worker => seeks x.pc) hw
      (({ x with task := some task } : Worker).start created).2
    rw [hs, restart_eq hw]
    change seekers p ≤ (p.workers.set w _).countP fun x => seeks x.pc
    rw [hx, Bool.toNat_false] at hcensus
    change _ = seekers p + _ at hcensus
    omega
  · have hcensus := census_append (fun x : Worker => seeks x.pc) p.workers (newborn task created)
    rw [hs, spawn_eq]
    change seekers p ≤ (p.workers ++ [newborn task created]).countP fun x => seeks x.pc
    rw [hcensus]
    exact Nat.le_add_right _ _

/-- A task try_start accepts gets a thread of its own, or somebody is there for it. -/
theorem tryStart_placed (htidy : Tidy p) (hready : restartable p created)
    (hseek : p.activeThreads < p.maxThreads → 0 < p.idlThreads → 0 < seekers p)
    (hs : p.tryStart task created = (true, p')) : 0 < seekers p' := by
  rcases tryStart_cases p task created with ⟨_, hc⟩ | ⟨hroom, hidle, hc⟩ |
    ⟨hroom, hidle, w, rest, hret, hc⟩ | ⟨_, _, _, hc⟩
  · rw [hs] at hc
    cases hc
  · have hsame := congrArg Prod.snd (hs.symm.trans hc)
    change p' = _ at hsame
    rw [hsame]
    exact hseek hroom hidle
  · obtain ⟨x, hw, _⟩ := htidy.head hret
    have hin : w < p.workers.length := (List.getElem?_eq_some_iff.mp hw).1
    have hrun := hready hroom hidle w rest x hret hw
    have hsame := congrArg Prod.snd (hs.symm.trans hc)
    change p' = _ at hsame
    rw [hsame, restart_eq hw]
    rcases start_cases { x with task := some task } created with ⟨_, _, hy⟩ | ⟨hn, _⟩
    · rw [hy]
      exact census_pos (List.getElem?_set_self hin) rfl
    · exact absurd hrun hn
  · have hsame := congrArg Prod.snd (hs.symm.trans hc)
    have hyes := congrArg Prod.fst (hs.symm.trans hc)
    rw [spawn_eq] at hsame hyes
    change p' = _ at hsame
    change true = created at hyes
    have hcensus := census_append (fun x : Worker => seeks x.pc) p.workers (newborn task created)
    rw [hsame]
    change 0 < (p.workers ++ [newborn task created]).countP fun x => seeks x.pc
    rw [hcensus, ← hyes]
    exact Nat.succ_pos _

theorem start_sought (htidy : Tidy p) (h : sought p) {task : Option Task} {priority : Nat}
    (hready : reaped p (.start task priority created))
    (hok : watchful p (.start task priority created)) :
    sought (p.start task priority created).2 := by
  cases task with
  | none => exact h
  | some task =>
    have hmore := tryStart_seekers htidy task created
    simp only [start]
    split
    · next p₁ hs =>
      rw [hs] at hmore
      rcases hok with hseek | ⟨_, hidle, _⟩
      · exact Or.inr (Nat.lt_of_lt_of_le hseek hmore)
      · have hplaced := tryStart_placed htidy hready
          (fun _ hn => absurd hidle (Nat.pos_iff_ne_zero.mp hn)) hs
        exact Or.inr hplaced
    · next p₁ hs =>
      rw [hs] at hmore
      rcases hok with hseek | ⟨hroom, hidle, hyes⟩
      · exact Or.inr (Nat.lt_of_lt_of_le hseek hmore)
      · exfalso
        rcases tryStart_cases p task created with ⟨hfull, _⟩ | ⟨_, hsome, _⟩ |
          ⟨_, _, w, rest, _, hc⟩ | ⟨_, _, _, hc⟩
        · omega
        · omega
        · rw [hs] at hc
          cases hc
        · rw [hs, spawn_eq, hyes] at hc
          cases hc

/-- A refusal of try_start leaves the queue alone. -/
theorem tryStart_same (hs : p.tryStart task created = (false, p')) : p'.queue = p.queue := by
  rcases tryStart_cases p task created with ⟨_, hc⟩ | ⟨_, _, hc⟩ | ⟨_, _, w, rest, _, hc⟩ |
    ⟨_, _, _, hc⟩
  · rw [hs] at hc
    cases hc
    rfl
  · rw [hs] at hc
    cases hc
  · rw [hs] at hc
    cases hc
  · rw [hs, spawn_eq] at hc
    cases hc
    rfl

theorem startNow_sought (htidy : Tidy p) (h : sought p) {task : Option Task}
    (hready : reaped p (.startNow task created)) (hok : watchful p (.startNow task created)) :
    sought (p.startNow task created).2 := by
  cases task with
  | none => exact h
  | some task =>
    have hmore := tryStart_seekers htidy task created
    simp only [startNow]
    split
    · next p₁ hs =>
      have hplaced := tryStart_placed htidy hready hok hs
      exact Or.inr hplaced
    · next p₁ hs =>
      rw [hs] at hmore
      rcases h with hempty | hseek
      · exact Or.inl ((tryStart_same hs).trans hempty)
      · exact Or.inr (Nat.lt_of_lt_of_le hseek hmore)

/-- A task is taken out of the queue by reserve while somebody seeks it. -/
theorem reserve_sought (htidy : Tidy p) (h : sought p) (numThreads : Nat) (created : Bool) :
    sought (p.reserve numThreads created) := by
  rcases reserve_cases p numThreads created with ⟨_, hr⟩ |
    ⟨_, entry, accepted, p₁, htop, hs, hr⟩
  · rw [hr]
    exact h
  · have htidy' : Tidy ((p.setReserved numThreads).pop entry) :=
      ⟨htidy.idle, htidy.retired, htidy.different⟩
    have hmore := tryStart_seekers htidy' entry.1 created
    rw [hs] at hmore
    have hseek : 0 < seekers p := by
      rcases h with hempty | hseek
      · exact absurd hempty (top_ne_nil htop)
      · exact hseek
    have hstill : 0 < seekers p₁ := Nat.lt_of_lt_of_le hseek hmore
    rw [hr]
    cases accepted with
    | true => exact Or.inr hstill
    | false => exact Or.inr hstill

theorem step_sought (htidy : Tidy p) (halive : ∀ x ∈ p.workers, Alive x) (h : sought p)
    (hready : reaped p e) (hok : watchful p e) (hs : p.step e = some p') : sought p' := by
  cases e with
  | start task priority created =>
    cases hs
    exact start_sought htidy h hready hok
  | startNow task created =>
    cases hs
    exact startNow_sought htidy h hready hok
  | startNowChoked task =>
    have hsame := step_startNowChoked hs
    subst hsame
    exact h
  | reserve numThreads created =>
    cases hs
    exact reserve_sought htidy h numThreads created
  | setRetireTimeout timeout =>
    cases hs
    exact h
  | enter w => exact enter_sought h halive hs
  | finish w => exact finish_sought h hok hs
  | wake w =>
    obtain ⟨x, timeout, hw, _, _, rfl⟩ := step_wake hs
    exact sought_turn h (y := { x with pc := .woken false }) ⟨rfl, rfl, rfl, rfl, rfl⟩ hw
      (Or.inr (Or.inl rfl))
  | expire w =>
    obtain ⟨x, timeout, hw, _, rfl⟩ := step_expire hs
    refine sought_turn h (y := { x with pc := .woken true }) ⟨rfl, rfl, rfl, rfl, rfl⟩ hw ?_
    rcases hok with hempty | hothers
    · exact Or.inl hempty
    · exact Or.inr (Or.inr ⟨rfl, Or.inr hothers⟩)
  | resume w => exact resume_sought h htidy hs
  | cleanup w =>
    obtain ⟨x, hw, hpc, rfl⟩ := step_cleanup hs
    refine sought_turn h (y := { x with running := false, pc := .stopped })
      ⟨rfl, rfl, rfl, rfl, rfl⟩ hw (Or.inr (Or.inr ⟨rfl, Or.inl ?_⟩))
    rw [hpc]
    rfl

end

/-- The steps under which wait does what it says. -/
def orderly (s : PoolWait) : PoolWait.Event → Prop
  | .pool e => reaped s.pool e ∧ sparing s.waits s.pool e ∧ (s.waits ≠ [] → watchful s.pool e)
  | .wait => s.waits = [] ∧ sought s.pool
  | .join _ | .relock _ => True

instance (s : PoolWait) : DecidablePred (orderly s)
  | .pool _ => inferInstanceAs (Decidable (_ ∧ _ ∧ (_ → _)))
  | .wait => inferInstanceAs (Decidable (_ ∧ _))
  | .join _ | .relock _ => isTrue trivial

/-- Every worker that runs is in all_threads_ or has yet to be waited for. -/
def Listed (s : PoolWait) : Prop :=
  ∀ w x, s.pool.workers[w]? = some x → x.running = true →
    w ∈ s.pool.allThreads ∨ w ∈ allDues s.waits

/-- What holds while at most one call of wait is in progress. -/
structure Draining (s : PoolWait) : Prop where
  sane : Sane s.pool
  kept : kept s.pool
  single : s.waits.length ≤ 1
  alive : ∀ x ∈ s.pool.workers, Alive x
  attended : Attended s
  listed : Listed s
  sought : s.waits ≠ [] → sought s.pool

section
variable {s s' : PoolWait} {e : PoolWait.Event} {call : Nat} {place : JoinPlace}

theorem create_draining (count : Nat) : Draining (.create count) := by
  refine ⟨create_sane count, rfl, Nat.zero_le 1, ?_, create_attended count, ?_,
    fun hn => absurd rfl hn⟩
  · intro x hx
    cases hx
  · intro w x hw
    cases hw

/-- A cleanup takes only its own worker off those to be waited for. -/
theorem allDues_signalled {e : ThreadPool.Event} {w : Nat} (hw : w ∈ allDues s.waits)
    (hne : e ≠ .cleanup w) : w ∈ allDues (s.signalled e) := by
  obtain ⟨c, hc, hdue⟩ := List.mem_flatMap.mp hw
  cases e with
  | cleanup v =>
    have hother : w ≠ v := fun heq => hne (heq ▸ rfl)
    exact List.mem_flatMap.mpr ⟨_, List.mem_map_of_mem hc, dues_signal hdue hother⟩
  | start | startNow | startNowChoked | reserve | setRetireTimeout | enter | finish | wake | expire
  | resume => exact hw

theorem pool_listed (h : Listed s) {e : ThreadPool.Event} {p' : ThreadPool}
    (hok : sparing s.waits s.pool e) (hs : s.pool.step e = some p') :
    Listed { pool := p', waits := s.signalled e } := by
  obtain ⟨hruns, hnew, hall⟩ := step_running hs
  intro w y hw hrun
  cases hold : s.pool.workers[w]? with
  | none => exact Or.inl (hnew w y hold hw)
  | some x =>
    obtain ⟨z, hz, hkind⟩ := hruns w x hold
    rw [hw] at hz
    cases hz
    have hbefore : (w ∈ s.pool.allThreads ∨ w ∈ allDues s.waits) ∧ e ≠ .cleanup w := by
      rcases hkind with hsame | ⟨htaken, _⟩
      · rw [hrun] at hsame
        have hboth : x.running = true ∧ e ≠ .cleanup w := by simpa using hsame.symm
        exact ⟨h w x hold hboth.1, hboth.2⟩
      · refine ⟨(hok w htaken).1, ?_⟩
        rintro rfl
        cases htaken
    exact hbefore.1.imp (hall w) fun hin => allDues_signalled hin hbefore.2

theorem pool_draining (h : Draining s) {e : ThreadPool.Event} {p' : ThreadPool}
    (hok : orderly s (.pool e)) (hs : s.pool.step e = some p') :
    Draining { pool := p', waits := s.signalled e } := by
  obtain ⟨hready, hsparing, hwatch⟩ := hok
  have heffect := step_effect h.sane hs
  have hlength := signalled_length s e
  have hsingle := Nat.le_trans (Nat.le_of_eq hlength) h.single
  refine ⟨heffect.sane, heffect.kept.mpr ⟨h.kept, hready⟩, hsingle, step_alive h.alive hs,
    h.attended.pool hsparing hs, pool_listed h.listed hsparing hs, ?_⟩
  intro hn
  have hopen : s.waits ≠ [] := by
    rw [← List.length_pos_iff] at hn ⊢
    exact hlength ▸ hn
  exact step_sought h.sane.tidy h.alive (h.sought hopen) hready (hwatch hopen) hs

/-- A pool none of whose workers runs executes nothing, and nobody seeks a task. -/
theorem over_idle {p : ThreadPool} (halive : ∀ x ∈ p.workers, Alive x)
    (hover : ∀ x ∈ p.workers, x.running = false) : seekers p = 0 ∧ held p = [] := by
  have hstill : ∀ x ∈ p.workers, ended x.pc = true := by
    intro x hx
    have hrun := (halive x hx).running
    rw [hover x hx] at hrun
    simpa using hrun.symm
  constructor
  · rw [seekers, List.countP_eq_zero]
    intro x hx
    have hlast := hstill x hx
    cases hpc : x.pc <;> rw [hpc] at hlast <;> first | decide | cases hlast
  · rw [held, List.filterMap_eq_nil_iff]
    intro x hx
    have hlast := hstill x hx
    cases hpc : x.pc <;> rw [hpc] at hlast <;> first | rfl | cases hlast

/-- Where a call of wait has deleted all its threads it owes none. -/
theorem allDues_nil (hwaits : s.waits = [⟨place, []⟩]) : allDues s.waits = [] := by
  rw [hwaits]
  match place with
  | .ahead | .waiting false | .waiting true | .back | .killing _ => rfl

/-- Behind the loop of wait every accepted task has been executed. -/
theorem Draining.drained (h : Draining s) (hwaits : s.waits = [⟨place, []⟩])
    (hall : s.pool.allThreads = []) :
    s.pool.queue = [] ∧ s.pool.accepted.Perm s.pool.executed := by
  have hover : ∀ x ∈ s.pool.workers, x.running = false := by
    intro x hx
    obtain ⟨w, hw⟩ := List.getElem?_of_mem hx
    refine Bool.eq_false_iff.mpr fun hrun => ?_
    rcases h.listed w x hw hrun with hin | hin
    · rw [hall] at hin
      cases hin
    · rw [allDues_nil hwaits] at hin
      cases hin
  obtain ⟨hnone, hheld⟩ := over_idle h.alive hover
  have hqueue : s.pool.queue = [] := by
    rcases h.sought (by rw [hwaits]; exact List.cons_ne_nil _ _) with hempty | hseek
    · exact hempty
    · omega
  have hperm := h.sane.accounted_iff.mpr h.kept
  rw [accounted, hqueue, hheld] at hperm
  exact ⟨hqueue, hperm⟩

theorem loopHead_draining (h : Draining s) (hwaits : s.waits = [⟨place, []⟩]) :
    Draining (s.loopHead 0) := by
  have hattended := h.attended.loopHead 0
  have hnothing := allDues_nil hwaits
  unfold PoolWait.loopHead at hattended ⊢
  split
  case isTrue hall =>
    rw [if_pos hall, hwaits] at hattended
    rw [hwaits]
    refine ⟨⟨⟨h.sane.tidy.idle, (fun _ hn => nomatch hn), List.nodup_nil⟩, h.sane.balanced⟩,
      h.kept, Nat.zero_le 1, h.alive, hattended, ?_, fun hn => absurd rfl hn⟩
    intro w x hw hrun
    rcases h.listed w x hw hrun with hin | hin
    · exact Or.inl hin
    · rw [hnothing] at hin
      cases hin
  case isFalse hall =>
    rw [if_neg hall, hwaits] at hattended
    rw [hwaits]
    refine ⟨⟨⟨h.sane.tidy.idle, h.sane.tidy.retired, h.sane.tidy.different⟩, h.sane.balanced⟩,
      h.kept, Nat.le_refl 1, h.alive, hattended, ?_, fun _ => ?_⟩
    · intro w x hw hrun
      rcases h.listed w x hw hrun with hin | hin
      · exact Or.inr (List.mem_flatMap.mpr ⟨_, List.mem_singleton.mpr rfl, hin⟩)
      · rw [hnothing] at hin
        cases hin
    · exact h.sought (by rw [hwaits]; exact List.cons_ne_nil _ _)

/-- The state in which a call of wait has signalled all workers. -/
theorem begin_draining (h : Draining s) (hnone : s.waits = []) (hsought : PoolDrain.sought s.pool) :
    Draining { pool := s.pool.beginWait, waits := [⟨.ahead, []⟩] } := by
  have hattended := h.attended.begin
  rw [hnone] at hattended
  refine ⟨⟨⟨h.sane.tidy.idle, h.sane.tidy.retired, h.sane.tidy.different⟩, h.sane.balanced⟩,
    h.kept, Nat.le_refl 1, h.alive, hattended, ?_, fun _ => hsought⟩
  intro w x hw hrun
  rcases h.listed w x hw hrun with hin | hin
  · exact Or.inl hin
  · rw [hnone] at hin
    cases hin

theorem wait_eq (hnone : s.waits = []) :
    s.wait = PoolWait.loopHead { pool := s.pool.beginWait, waits := [⟨.ahead, []⟩] } 0 := by
  rw [PoolWait.wait, hnone]
  rfl

/-- With one call in progress at most, a call that can go on is that one. -/
theorem Draining.only (h : Draining s) {c : PoolCall} (hcall : s.waits[call]? = some c) :
    call = 0 ∧ s.waits = [c] := by
  have hsingle := h.single
  obtain ⟨pool, waits⟩ := s
  match waits, call with
  | [], _ => cases hcall
  | [_], 0 =>
    cases hcall
    exact ⟨rfl, rfl⟩
  | [_], _ + 1 => cases hcall
  | _ :: _ :: _, _ => exact absurd hsingle (by simp)

theorem join_draining (h : Draining s) (hs : s.step (.join call) = some s') : Draining s' := by
  have hattended := h.attended.join hs
  obtain ⟨place, thread, rest, c, hcall, hjoins, rfl⟩ := h.attended.joins hs
  obtain ⟨rfl, hwaits⟩ := h.only hcall
  rw [hwaits] at hattended ⊢
  refine ⟨h.sane, h.kept, Nat.le_refl 1, h.alive, hattended, ?_, fun _ => ?_⟩
  · intro w x hw hrun
    rcases h.listed w x hw hrun with hin | hin
    · exact Or.inl hin
    · rw [hwaits] at hin
      obtain ⟨d, hd, hdue⟩ := List.mem_flatMap.mp hin
      cases List.mem_singleton.mp hd
      exact Or.inr (List.mem_flatMap.mpr ⟨c, List.mem_singleton.mpr rfl, hjoins.owes hdue hw hrun⟩)
  · exact h.sought (by rw [hwaits]; exact List.cons_ne_nil _ _)

theorem step_draining (h : Draining s) (hok : orderly s e) (hs : s.step e = some s') :
    Draining s' := by
  cases e with
  | pool e =>
    obtain ⟨p', hp, rfl⟩ := Option.map_eq_some_iff.mp hs
    exact pool_draining h hok hp
  | wait =>
    cases hs
    rw [wait_eq hok.1]
    exact loopHead_draining (begin_draining h hok.1 hok.2) rfl
  | join call => exact join_draining h hs
  | relock call =>
    obtain ⟨⟨place, hcall⟩, rfl⟩ := step_relock hs
    obtain ⟨rfl, hwaits⟩ := h.only hcall
    exact loopHead_draining h hwaits

/-- When a call of wait returns in a run of such steps, no task is queued and
every accepted task has been executed. -/
theorem wait_drains (h : PoolWait.system.Reached orderly s) (hok : orderly s e)
    (hs : s.step e = some s') (hreturn : s.returns e) :
    s'.pool.queue = [] ∧ s'.pool.accepted.Perm s'.pool.executed := by
  have hdraining : Draining s := by
    refine h.invariant (P := Draining) ?_ ?_
    · rintro s ⟨count, rfl⟩
      exact create_draining count
    · intro s e s' hd hok hs
      exact step_draining hd hok hs
  cases e with
  | pool e => exact hreturn.elim
  | join call => exact hreturn.elim
  | wait =>
    cases hs
    have hbegun := begin_draining hdraining hok.1 hok.2
    have hall : s.pool.beginWait.allThreads = [] := hreturn
    rw [wait_eq hok.1, PoolWait.loopHead, if_pos hall]
    exact hbegun.drained rfl hall
  | relock call =>
    obtain ⟨⟨place, hcall⟩, rfl⟩ := step_relock hs
    obtain ⟨rfl, hwaits⟩ := hdraining.only hcall
    have hall : s.pool.allThreads = [] := hreturn
    rw [PoolWait.loopHead, if_pos hall]
    exact hdraining.drained hwaits hall

/-- A task starts another one while wait is in progress, and a third was queued
before. -/
theorem wait_drains_nested : ∃ s s' : PoolWait, PoolWait.system.Reached orderly s ∧
    s.step (.relock 0) = some s' ∧ s'.pool.accepted = [1, 2, 3] ∧
    (s'.pool.queue = [] ∧ s'.pool.accepted.Perm s'.pool.executed) := by
  have hnested : ((follow PoolWait.step [] (.create 1) [.pool (.start (some 1) 0 true),
      .pool (.start (some 2) 0 true), .pool (.enter 0), .wait, .pool (.start (some 3) 0 true),
      .join 0, .pool (.finish 0), .pool (.finish 0), .pool (.cleanup 0), .join 0, .join 0,
      .pool (.enter 1), .relock 0, .pool (.finish 1), .pool (.cleanup 1), .join 0,
      .join 0]).bind fun r =>
        (r.2.step (.relock 0)).map fun s' => decide (s'.pool.accepted = [1, 2, 3] ∧
          r.2.pool.allThreads = [] ∧ ∀ q ∈ r.1, orderly q.1 q.2)) = some true := by decide +kernel
  obtain ⟨⟨past, s⟩, hfollow, hnested⟩ := Option.bind_eq_some_iff.mp hnested
  obtain ⟨s', hs, hfinal⟩ := Option.map_eq_some_iff.mp hnested
  obtain ⟨hacc, hall, horderly⟩ := of_decide_eq_true hfinal
  have hstart : PoolWait.system.Run [] (.create 1) := .start ⟨1, rfl⟩
  have hreached : PoolWait.system.Reached orderly s := (hstart.follow hfollow).reached horderly
  have hok : orderly s (.relock 0) := trivial
  exact ⟨s, s', hreached, hs, hacc, wait_drains hreached hok hs hall⟩

/-- The idle worker that wait has woken stays on the idle count, so with
all_threads_ cleared active_threads wraps: the task that another one starts is
refused and queued, and its worker does not take it either. -/
theorem wait_leaves_nested : ∃ past s s', PoolWait.system.Run past s ∧
    past.map Prod.snd = [.pool (.start (some 1) 0 true), .pool (.start (some 2) 0 true),
      .pool (.enter 0), .pool (.enter 1), .pool (.finish 0), .wait, .pool (.wake 0),
      .pool (.resume 0), .pool (.cleanup 0), .join 0, .join 0, .pool (.start (some 3) 0 true),
      .join 0, .pool (.finish 1), .pool (.cleanup 1), .join 0, .join 0] ∧
    s.step (.relock 0) = some s' ∧ s.returns (.relock 0) ∧ s'.pool.queue = [(3, 0)] ∧
    s'.pool.accepted = [1, 2, 3] ∧ s'.pool.executed = [1, 2] := by
  have hleft : ((follow PoolWait.step [] (.create 2) [.pool (.start (some 1) 0 true),
      .pool (.start (some 2) 0 true), .pool (.enter 0), .pool (.enter 1), .pool (.finish 0), .wait,
      .pool (.wake 0), .pool (.resume 0), .pool (.cleanup 0), .join 0, .join 0,
      .pool (.start (some 3) 0 true), .join 0, .pool (.finish 1), .pool (.cleanup 1), .join 0,
      .join 0]).bind fun r =>
        (r.2.step (.relock 0)).map fun s' => decide (r.2.pool.allThreads = [] ∧
          s'.pool.queue = [(3, 0)] ∧ s'.pool.accepted = [1, 2, 3] ∧ s'.pool.executed = [1, 2])) =
      some true := by decide +kernel
  obtain ⟨⟨past, s⟩, hfollow, hleft⟩ := Option.bind_eq_some_iff.mp hleft
  obtain ⟨s', hs, hfinal⟩ := Option.map_eq_some_iff.mp hleft
  obtain ⟨hall, hqueue, hacc, hexec⟩ := of_decide_eq_true hfinal
  have hstart : PoolWait.system.Run [] (.create 2) := .start ⟨2, rfl⟩
  exact ⟨past, s, s', hstart.follow hfollow, follow_events hfollow, hs, hall, hqueue, hacc, hexec⟩

end
end CkCore.Proofs.PoolDrain
