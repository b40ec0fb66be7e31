import CkCore.Proofs.PoolSteps
import CkCore.Spec.Ledger

namespace CkCore.Proofs.PoolOrder
open Lib ThreadPool Ledger

/-- The greater of two entries was requested with at least the priority of the
other one. -/
def agree (a b : (Task × Nat) × Nat) : Prop :=
  (less a.1 b.1 = false → b.2 ≤ a.2) ∧ (less b.1 a.1 = false → a.2 ≤ b.2)

/-- What the step puts into the queue agrees with what is in it. -/
def ordered (s : Ledger) (e : Event) : Prop :=
  ∀ new ∈ s.added e, ∀ old ∈ s.left e, agree new old

instance (a b : (Task × Nat) × Nat) : Decidable (agree a b) :=
  inferInstanceAs (Decidable (_ ∧ _))

instance (s : Ledger) (e : Event) : Decidable (ordered s e) :=
  inferInstanceAs (Decidable (∀ new ∈ s.added e, ∀ old ∈ s.left e, agree new old))

/-- The ledger is the queue, and all its items agree. -/
structure Monotone (s : Ledger) : Prop where
  entries : s.items.map Prod.fst = s.pool.queue
  agree : ∀ a ∈ s.items, ∀ b ∈ s.items, agree a b

variable {p p' : ThreadPool} {s s' : Ledger} {e : Event} {entry : Task × Nat}

theorem less_false {t k u j : Nat} :
    less (t, k) (u, j) = false ↔ ¬ (t < u ∨ t = u ∧ k < j) := by
  simp [less]

theorem less_self (a : Task × Nat) : less a a = false := by
  obtain ⟨t, k⟩ := a
  rw [less_false]
  omega

theorem less_trans_false {a b c : Task × Nat} (hab : less a b = false) (hbc : less b c = false) :
    less a c = false := by
  obtain ⟨t, k⟩ := a
  obtain ⟨u, j⟩ := b
  obtain ⟨v, i⟩ := c
  rw [less_false] at *
  omega

theorem less_asymm {a b : Task × Nat} (h : less a b = true) : less b a = false := by
  have hab : ¬ less a b = false := by
    rw [h]
    decide
  obtain ⟨t, k⟩ := a
  obtain ⟨u, j⟩ := b
  rw [less_false] at hab ⊢
  omega

/-- No entry of the queue is greater than its top. -/
theorem top_greatest {queue : List (Task × Nat)} (h : top queue = some entry) :
    ∀ x ∈ queue, less entry x = false := by
  induction queue generalizing entry with
  | nil => cases h
  | cons first rest ih =>
    unfold top at h
    split at h
    case h_1 hnone =>
      cases h
      rw [top_none hnone]
      intro x hx
      rw [List.mem_singleton.mp hx]
      exact less_self first
    case h_2 best hbest =>
      have hrest := ih hbest
      intro x hx
      split at h
      case isTrue hless =>
        cases h
        rcases List.mem_cons.mp hx with rfl | hx
        · exact less_asymm hless
        · exact hrest x hx
      case isFalse hnot =>
        cases h
        rcases List.mem_cons.mp hx with rfl | hx
        · exact less_self x
        · exact less_trans_false (Bool.eq_false_iff.mpr hnot) (hrest x hx)

/-- What is left of a queue when an entry was taken, or none. -/
def remaining (p : ThreadPool) (e : Event) : List (Task × Nat) :=
  (taken p e).elim p.queue p.queue.erase

theorem loopHead_queue (p : ThreadPool) (w : Nat) (x : Worker) :
    (p.loopHead w x).queue = p.queue := by
  unfold loopHead
  split
  · rfl
  · exact afterTasks_queue p w x

theorem fetch_queue (p : ThreadPool) (w : Nat) (x : Worker) :
    (p.fetch w x).queue = (top p.queue).elim p.queue p.queue.erase := by
  unfold fetch
  split
  case h_1 entry htop =>
    rw [loopHead_queue, htop]
    rfl
  case h_2 htop =>
    rw [loopHead_queue, htop]
    rfl

theorem tryStart_queue (p : ThreadPool) (task : Task) (created : Bool) :
    ∃ pushed, (p.tryStart task created).2.queue = p.queue ++ pushed := by
  rcases tryStart_cases p task created with ⟨_, hs⟩ | ⟨_, _, hs⟩ | ⟨_, _, w, rest, _, hs⟩ |
    ⟨_, _, _, hs⟩
  · rw [hs]
    exact ⟨[], (List.append_nil _).symm⟩
  · rw [hs]
    exact ⟨[(task, 0)], rfl⟩
  · rw [hs]
    refine ⟨[], ?_⟩
    rw [List.append_nil]
    unfold restart
    dsimp only
    split <;> rfl
  · rw [hs, spawn_eq]
    exact ⟨[], (List.append_nil _).symm⟩

theorem handed_queue {task : Task} {created : Bool} (h : Handed p task created p') :
    ∃ pushed, p'.queue = p.queue ++ pushed := by
  obtain ⟨pushed, hqueue⟩ := tryStart_queue p task created
  cases h with
  | taken tried after =>
    rw [tried] at hqueue
    rw [after]
    exact ⟨pushed, hqueue⟩
  | @queued p₁ priority tried after =>
    rw [tried] at hqueue
    refine ⟨pushed ++ [(task, priority)], ?_⟩
    rw [after, ← List.append_assoc, ← hqueue]
    rfl
  | refused tried =>
    rw [tried] at hqueue
    exact ⟨pushed, hqueue⟩

theorem reserve_queue (p : ThreadPool) (numThreads : Nat) (created : Bool) :
    ∃ pushed, (p.reserve numThreads created).queue =
      remaining p (.reserve numThreads created) ++ pushed := by
  rcases reserve_cases p numThreads created with
    ⟨hnone, hr⟩ | ⟨hless, entry, accepted, p', htop, hs, hr⟩
  · refine ⟨[], ?_⟩
    rw [hr, List.append_nil]
    unfold remaining taken
    by_cases hless : numThreads < p.resThreads
    · have hempty : p.queue = [] := by
        by_cases hq : p.queue = []
        · exact hq
        · exact absurd ⟨hless, hq⟩ hnone
      simp only [takes, hless, decide_true, if_true, hempty, top]
      exact hempty
    · simp only [takes, hless, decide_false, Bool.false_eq_true, if_false]
      rfl
  · have hremaining : remaining p (.reserve numThreads created) = p.queue.erase entry := by
      simp only [remaining, taken, takes, hless, decide_true, if_true, htop, Option.elim_some]
    obtain ⟨pushed, hqueue⟩ :=
      tryStart_queue ((p.setReserved numThreads).pop entry) entry.1 created
    rw [hs] at hqueue
    rw [hr, hremaining]
    cases accepted with
    | true => exact ⟨pushed, hqueue⟩
    | false =>
      refine ⟨pushed ++ [entry], ?_⟩
      rw [← List.append_assoc]
      exact congrArg (· ++ [entry]) hqueue

/-- A step takes the top of the queue or nothing, and puts entries behind. -/
theorem step_queue (h : p.step e = some p') : ∃ pushed, p'.queue = remaining p e ++ pushed := by
  have hsame : p'.queue = remaining p e → ∃ pushed, p'.queue = remaining p e ++ pushed :=
    fun hq => ⟨[], by rw [hq, List.append_nil]⟩
  cases e with
  | start task priority created =>
    rcases step_start h with ⟨_, rfl⟩ | ⟨t, _, hh⟩
    · exact hsame rfl
    · exact handed_queue hh
  | startNow task created =>
    rcases step_startNow h with ⟨_, rfl⟩ | ⟨t, _, hh⟩
    · exact hsame rfl
    · exact handed_queue hh
  | startNowChoked task =>
    rw [step_startNowChoked h] at hsame ⊢
    exact hsame rfl
  | reserve numThreads created =>
    cases h
    exact reserve_queue p numThreads created
  | setRetireTimeout timeout =>
    cases h
    exact hsame rfl
  | enter w =>
    obtain ⟨x, _, _, rfl⟩ := step_enter h
    exact hsame (loopHead_queue p w x)
  | finish w =>
    obtain ⟨x, task, _, _, _, rfl⟩ := step_finish h
    apply hsame
    simp only [ThreadPool.finish]
    split
    case isTrue hover =>
      have hbusy : p.overworking = true := hover
      rw [afterTasks_queue]
      simp only [remaining, taken, takes, hbusy, Bool.not_true, Bool.false_eq_true, if_false,
        Option.elim_none]
    case isFalse hover =>
      have hbusy : p.overworking = false := Bool.eq_false_iff.mpr hover
      rw [fetch_queue]
      simp only [remaining, taken, takes, hbusy, Bool.not_false, if_true]
  | wake w =>
    obtain ⟨x, timeout, _, _, _, rfl⟩ := step_wake h
    exact hsame rfl
  | expire w =>
    obtain ⟨x, timeout, _, _, rfl⟩ := step_expire h
    exact hsame rfl
  | resume w =>
    obtain ⟨x, expired, hw, hpc, rfl⟩ := step_resume h
    apply hsame
    cases expired with
    | true =>
      simp only [remaining, taken, takes, hw, Option.map_some, hpc]
      rfl
    | false =>
      simp only [remaining, taken, takes, hw, Option.map_some, hpc, beq_self_eq_true, if_true]
      exact fetch_queue _ w x
  | cleanup w =>
    obtain ⟨x, _, _, rfl⟩ := step_cleanup h
    exact hsame rfl

theorem left_entries (h : s.items.map Prod.fst = s.pool.queue) (e : Event) :
    (s.left e).map Prod.fst = remaining s.pool e := by
  unfold left remaining
  cases taken s.pool e with
  | none => exact h
  | some entry =>
    rw [Option.elim_some, Option.elim_some, ← h, List.erase_eq_eraseP', List.eraseP_map]
    rfl

theorem left_subset (s : Ledger) (e : Event) : s.left e ⊆ s.items := by
  unfold left
  cases taken s.pool e with
  | none => exact fun _ h => h
  | some entry => exact fun _ h => List.mem_of_mem_eraseP h

theorem added_wanted {item : (Task × Nat) × Nat} (h : item ∈ s.added e) :
    item.2 = s.wanted e := by
  obtain ⟨entry, _, rfl⟩ := List.mem_map.mp h
  rfl

/-- A step keeps the ledger and, where what it adds agrees with the rest, the order. -/
theorem step_monotone (h : Monotone s) (ho : ordered s e) (hs : s.step e = some s') :
    Monotone s' := by
  obtain ⟨p', hstep, rfl⟩ := Option.map_eq_some_iff.mp hs
  have hleft := left_entries h.entries e
  have hlength : (s.left e).length = (remaining s.pool e).length := by
    rw [← hleft, List.length_map]
  obtain ⟨pushed, hqueue⟩ := step_queue hstep
  have hadded : (s.added e).map Prod.fst = pushed := by
    unfold added
    rw [hstep, Option.elim_some, hqueue, hlength, List.drop_left, List.map_map]
    exact List.map_id pushed
  refine ⟨?_, ?_⟩
  · show (s.left e ++ s.added e).map Prod.fst = p'.queue
    rw [List.map_append, hleft, hadded, hqueue]
  · intro a ha b hb
    rcases List.mem_append.mp ha with ha | ha
    · rcases List.mem_append.mp hb with hb | hb
      · exact h.agree a (left_subset s e ha) b (left_subset s e hb)
      · exact And.symm (ho b hb a ha)
    · rcases List.mem_append.mp hb with hb | hb
      · exact ho a ha b hb
      · have hsame : a.2 = b.2 := (added_wanted ha).trans (added_wanted hb).symm
        exact ⟨fun _ => Nat.le_of_eq hsame.symm, fun _ => Nat.le_of_eq hsame⟩

theorem reached_monotone (h : Ledger.system.Reached ordered s) : Monotone s := by
  refine h.invariant ?_ ?_
  · rintro s ⟨count, rfl⟩
    exact ⟨rfl, fun _ ha => nomatch ha⟩
  · intro s e s' hm ho hs
    exact step_monotone hm ho hs

theorem requested_of (h : s.items.map Prod.fst = s.pool.queue) (hentry : entry ∈ s.pool.queue) :
    ∃ wanted, s.requested entry = some wanted ∧ (entry, wanted) ∈ s.items := by
  rw [← h] at hentry
  obtain ⟨item, hitem, hfst⟩ := List.mem_map.mp hentry
  have hfound : (s.items.find? fun item => item.1 == entry).isSome := by
    rw [List.find?_isSome]
    exact ⟨item, hitem, by rw [hfst]; exact beq_self_eq_true entry⟩
  obtain ⟨found, hf⟩ := Option.isSome_iff_exists.mp hfound
  have hbeq : (found.1 == entry) = true :=
    List.find?_some (p := fun item : (Task × Nat) × Nat => item.1 == entry) hf
  have hsame : found.1 = entry := eq_of_beq hbeq
  refine ⟨found.2, ?_, ?_⟩
  · unfold requested
    rw [hf]
    rfl
  · rw [← hsame]
    exact List.mem_of_find?_eq_some hf

/-- Whenever an entry is taken from the queue, its task was passed to start with
at least the priority of every other task in the queue, in the runs that put
tasks into the queue in the order of their addresses. -/
theorem takes_greatest (h : Ledger.system.Reached ordered s) :
    s.items.map Prod.fst = s.pool.queue ∧ ∀ e entry, taken s.pool e = some entry →
      ∃ wanted, s.requested entry = some wanted ∧ ∀ item ∈ s.items, item.2 ≤ wanted := by
  have hm := reached_monotone h
  refine ⟨hm.entries, ?_⟩
  intro e entry htaken
  have htop : top s.pool.queue = some entry := by
    unfold taken at htaken
    split at htaken
    · exact htaken
    · cases htaken
  obtain ⟨wanted, hrequested, hitem⟩ := requested_of hm.entries (top_mem htop)
  refine ⟨wanted, hrequested, ?_⟩
  intro item hother
  have hless : less entry item.1 = false := by
    refine top_greatest htop item.1 ?_
    rw [← hm.entries]
    exact List.mem_map_of_mem hother
  exact (hm.agree (entry, wanted) hitem item hother).1 hless

/-- Behind a running task two are queued, the one at the greater address with the
greater priority, and taken in this order. -/
theorem takes_greatest_two : ∃ s, Ledger.system.Reached ordered s ∧
    s.items = [((1, 3), 3), ((2, 7), 7)] ∧ (∃ wanted, s.requested (2, 7) = some wanted ∧
      ∀ item ∈ s.items, item.2 ≤ wanted) := by
  have hqueued : ((follow Ledger.step [] ⟨create 1, []⟩ [.start (some 9) 0 true, .enter 0,
      .start (some 1) 3 true, .start (some 2) 7 true]).map fun r =>
      (r.2.items, taken r.2.pool (.finish 0), decide (∀ q ∈ r.1, ordered q.1 q.2))) =
      some ([((1, 3), 3), ((2, 7), 7)], some (2, 7), true) := by decide +kernel
  obtain ⟨⟨past, s⟩, hfollow, hfinal⟩ := Option.map_eq_some_iff.mp hqueued
  simp only [Prod.mk.injEq, decide_eq_true_eq] at hfinal
  obtain ⟨hitems, htaken, hordered⟩ := hfinal
  have hstart : Ledger.system.Run [] ⟨create 1, []⟩ := .start ⟨1, rfl⟩
  have hreached : Ledger.system.Reached ordered s := (hstart.follow hfollow).reached hordered
  exact ⟨s, hreached, hitems, (takes_greatest hreached).2 (.finish 0) (2, 7) htaken⟩

/-- The task at the greater address is taken first, whatever was requested. -/
theorem takes_by_address : ∃ past s, Ledger.system.Run past s ∧
    s.items = [((1, 9), 9), ((2, 0), 0)] ∧ taken s.pool (.finish 0) = some (2, 0) ∧
    (s.step (.finish 0)).isSome = true := by
  have hqueued : ((follow Ledger.step [] ⟨create 1, []⟩ [.start (some 9) 0 true, .enter 0,
      .start (some 1) 9 true, .start (some 2) 0 true]).map fun r =>
      (r.2.items, taken r.2.pool (.finish 0), (r.2.step (.finish 0)).isSome)) =
      some ([((1, 9), 9), ((2, 0), 0)], some (2, 0), true) := by decide +kernel
  obtain ⟨⟨past, s⟩, hfollow, hfinal⟩ := Option.map_eq_some_iff.mp hqueued
  simp only [Prod.mk.injEq] at hfinal
  obtain ⟨hitems, htaken, hnext⟩ := hfinal
  have hstart : Ledger.system.Run [] ⟨create 1, []⟩ := .start ⟨1, rfl⟩
  exact ⟨past, s, hstart.follow hfollow, hitems, htaken, hnext⟩

end CkCore.Proofs.PoolOrder
