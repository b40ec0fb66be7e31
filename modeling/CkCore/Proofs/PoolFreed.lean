import CkCore.Proofs.PoolCount

namespace CkCore.Proofs.PoolFreed
open Lib ThreadPool PoolCount

/-- The counters are consistent: no worker is both idle and retired, and the
threads, the reserved ones and one more fit a word. -/
structure Consistent (p : ThreadPool) : Prop where
  sum : p.idlThreads + p.retThreads.length ≤ p.allThreads.length
  res : p.resThreads ≤ p.maxThreads
  small : p.allThreads.length + p.maxThreads + 1 < word

/-- No task is queued while a thread is free. -/
def Filled (p : ThreadPool) : Prop := p.queue = [] ∨ p.activeThreads ≥ p.maxThreads

/-- The active threads once that many are reserved. -/
def activeWith (p : ThreadPool) (numThreads : Nat) : Nat :=
  min numThreads p.maxThreads + (p.allThreads.length - p.idlThreads - p.retThreads.length)

/-- Nothing is queued, no thread is free, or the reservation is lowered and
either one thread is free or the only task gets a thread of its own. -/
def fills (p : ThreadPool) (numThreads : Nat) : Prop :=
  p.queue = [] ∨ p.maxThreads ≤ activeWith p numThreads ∨
    numThreads < p.resThreads ∧ (p.maxThreads = activeWith p numThreads + 1 ∨
      p.idlThreads = 0 ∧ p.queue.length = 1)

section
variable {p : ThreadPool} {numThreads : Nat}

theorem Consistent.active (h : Consistent p) :
    p.activeThreads =
      p.resThreads + (p.allThreads.length - p.idlThreads - p.retThreads.length) := by
  have hres := h.res
  have hsmall := h.small
  exact active_plain h.sum (by omega)

/-- One worker more that is neither idle nor retired is one active thread more. -/
theorem Consistent.one_more (h : Consistent p) {q : ThreadPool}
    (hres : q.resThreads = p.resThreads) (hall : q.allThreads.length ≤ p.allThreads.length + 1)
    (hmore : q.allThreads.length + p.idlThreads + p.retThreads.length =
      p.allThreads.length + q.idlThreads + q.retThreads.length + 1) :
    q.activeThreads = p.activeThreads + 1 := by
  have hsum := h.sum
  have hreserved := h.res
  have hsmall := h.small
  have hbefore := h.active
  have hafter : q.activeThreads =
      q.resThreads + (q.allThreads.length - q.idlThreads - q.retThreads.length) :=
    active_plain (by omega) (by omega)
  omega

/-- A task that is not refused makes one more thread active, whether or not a
thread is created for it; one for an idle worker goes through the queue. -/
theorem tryStart_active (h : Consistent p) (hroom : p.activeThreads < p.maxThreads) (task : Task)
    (created : Bool) :
    (p.tryStart task created).2.activeThreads = p.activeThreads + 1 ∧
    (p.tryStart task created).2.queue =
      if 0 < p.idlThreads then p.queue ++ [(task, 0)] else p.queue := by
  have hsum := h.sum
  have hsmall := h.small
  rcases tryStart_cases p task created with ⟨hfull, _⟩ | ⟨_, hidle, hs⟩ |
    ⟨_, hidle, w, rest, hret, hs⟩ | ⟨_, hidle, hret, hs⟩
  · omega
  · have hless : subWord p.idlThreads 1 = p.idlThreads - 1 := subWord_eq (by omega) hidle
    rw [hs, if_pos hidle, hless]
    refine ⟨h.one_more rfl (Nat.le_succ _) ?_, rfl⟩
    show p.allThreads.length + p.idlThreads + p.retThreads.length =
      p.allThreads.length + (p.idlThreads - 1) + p.retThreads.length + 1
    omega
  · have hless : p.retThreads.length = rest.length + 1 := by rw [hret]; rfl
    rw [hs, if_neg (by omega)]
    obtain ⟨hq, hall, hretired, hidl, hres⟩ := restart_counts p w rest task created
    refine ⟨h.one_more hres (by rw [hall]; exact Nat.le_succ _) ?_, hq⟩
    rw [hall, hretired, hidl]
    omega
  · rw [hs, if_neg (by omega), spawn_eq]
    refine ⟨h.one_more rfl (by simp) ?_, rfl⟩
    simp only [List.length_append, List.length_singleton]
    omega

/-- Where threads are created, only a full pool refuses. -/
theorem tryStart_starts (hroom : p.activeThreads < p.maxThreads) (task : Task) :
    (p.tryStart task true).1 = true := by
  rcases tryStart_cases p task true with ⟨hfull, _⟩ | ⟨_, _, hs⟩ | ⟨_, _, w, rest, _, hs⟩ |
    ⟨_, _, _, hs⟩
  · omega
  · rw [hs]
  · rw [hs]
  · rw [hs, spawn_eq]

theorem setReserved_consistent (h : Consistent p) (numThreads : Nat) :
    Consistent (p.setReserved numThreads) ∧
      (p.setReserved numThreads).activeThreads = activeWith p numThreads := by
  have hmin : (p.setReserved numThreads).resThreads = min numThreads p.maxThreads := by
    simp only [setReserved]
    split <;> omega
  have hnext : Consistent (p.setReserved numThreads) := by
    refine ⟨h.sum, ?_, h.small⟩
    rw [hmin]
    exact Nat.min_le_right _ _
  refine ⟨hnext, ?_⟩
  rw [hnext.active, hmin]
  rfl

/-- The task that is taken from the queue where there is room for it starts. The
pool is filled by it when that was the last room, or the last task and one that
no idle worker gets through the queue. -/
theorem pop_fills_iff (h : Consistent p) (hroom : p.activeThreads < p.maxThreads)
    {entry : Task × Nat} (hmem : entry ∈ p.queue) :
    Filled ((p.pop entry).tryStart entry.1 true).2 ↔
      p.maxThreads = p.activeThreads + 1 ∨ p.idlThreads = 0 ∧ p.queue.length = 1 := by
  have hpop : Consistent (p.pop entry) := ⟨h.sum, h.res, h.small⟩
  have hbound := (tryStart_frame (p.pop entry) entry.1 true).2
  obtain ⟨hmore, hleft⟩ := tryStart_active hpop hroom entry.1 true
  have hlen : (p.queue.erase entry).length = p.queue.length - 1 := List.length_erase_of_mem hmem
  have hpos := List.length_pos_of_mem hmem
  have hempty : ((p.pop entry).tryStart entry.1 true).2.queue = [] ↔
      p.idlThreads = 0 ∧ p.queue.length = 1 := by
    have hidl : (p.pop entry).idlThreads = p.idlThreads := rfl
    have hrest : (p.pop entry).queue = p.queue.erase entry := rfl
    rw [hleft, hidl, hrest]
    by_cases hidle : 0 < p.idlThreads
    · rw [if_pos hidle]
      refine iff_of_false (by simp) ?_
      omega
    · rw [if_neg hidle, ← List.length_eq_zero_iff, hlen]
      omega
  have hfilled : ((p.pop entry).tryStart entry.1 true).2.activeThreads ≥
      ((p.pop entry).tryStart entry.1 true).2.maxThreads ↔
      p.maxThreads = p.activeThreads + 1 := by
    rw [hmore, hbound]
    show p.maxThreads ≤ p.activeThreads + 1 ↔ _
    omega
  unfold Filled
  rw [hempty, hfilled]
  exact or_comm

/-- reserve leaves no task queued while a thread is free just when there is
nothing to start or the one task it tries is enough. -/
theorem reserve_fills_iff (h : Consistent p) (numThreads : Nat) :
    Filled (p.reserve numThreads true) ↔ fills p numThreads := by
  obtain ⟨hnext, hwith⟩ := setReserved_consistent h numThreads
  have hmax : (p.setReserved numThreads).maxThreads = p.maxThreads := rfl
  have hsame : (p.setReserved numThreads).queue = p.queue := rfl
  rcases reserve_cases p numThreads true with ⟨hnone, hr⟩ |
    ⟨hless, entry, accepted, p', htop, hs, hr⟩
  · rw [hr]
    unfold Filled fills
    rw [hwith, hmax, hsame]
    constructor
    · rintro (hempty | hfull)
      · exact Or.inl hempty
      · exact Or.inr (Or.inl hfull)
    · rintro (hempty | hfull | ⟨hless, _⟩)
      · exact Or.inl hempty
      · exact Or.inr hfull
      · exact Or.inl (Decidable.by_contra fun hqueue => hnone ⟨hless, hqueue⟩)
  · have hqueue : p.queue ≠ [] := top_ne_nil htop
    rw [hr]
    by_cases hfull : p.maxThreads ≤ activeWith p numThreads
    · have hactive : p.maxThreads ≤ (p.setReserved numThreads).activeThreads :=
        le_of_le_of_eq hfull hwith.symm
      have hrefused : ((p.setReserved numThreads).pop entry).tryStart entry.1 true =
          (false, (p.setReserved numThreads).pop entry) := if_pos hactive
      rw [hs] at hrefused
      cases hrefused
      exact iff_of_true (Or.inr hactive) (Or.inr (Or.inl hfull))
    · have hroom : (p.setReserved numThreads).activeThreads <
          (p.setReserved numThreads).maxThreads := by
        rw [hwith]
        exact Nat.lt_of_not_le hfull
      have hstarts : (((p.setReserved numThreads).pop entry).tryStart entry.1 true).1 = true :=
        tryStart_starts (p := (p.setReserved numThreads).pop entry) hroom entry.1
      have hfills := pop_fills_iff hnext hroom (top_mem htop)
      rw [hs] at hstarts hfills
      dsimp only at hstarts
      subst hstarts
      rw [if_pos rfl, hfills, hwith, hmax, hsame]
      constructor
      · exact fun hone => Or.inr (Or.inr ⟨hless, hone⟩)
      · rintro (hnone | hover | ⟨_, hone⟩)
        · exact absurd hnone hqueue
        · exact absurd hover hfull
        · exact hone

instance (p : ThreadPool) (numThreads : Nat) : Decidable (fills p numThreads) :=
  inferInstanceAs (Decidable (_ ∨ _ ∨ _))

/-- Both threads are given back, and the one task that is queued starts. -/
theorem reserve_fills_two : ∃ past p, system.Run past p ∧ p.queue = [(1, 0)] ∧
    p.resThreads = 2 ∧ Filled (p.reserve 0 true) := by
  have hqueued : ((follow step [] (create 2) [.reserve 2 true, .start (some 1) 0 true]).map fun r =>
      (r.2.queue, r.2.resThreads, r.2.idlThreads + r.2.retThreads.length, r.2.allThreads.length,
        r.2.maxThreads, decide (fills r.2 0))) = some ([(1, 0)], 2, 0, 0, 2, true) := by
    decide +kernel
  obtain ⟨⟨past, p⟩, hfollow, hfinal⟩ := Option.map_eq_some_iff.mp hqueued
  simp only [Prod.mk.injEq, decide_eq_true_eq] at hfinal
  obtain ⟨hqueue, hres, hsum, hall, hmax, hfills⟩ := hfinal
  have hstart : system.Run [] (create 2) := .start ⟨2, rfl⟩
  have hconsistent : Consistent p := by
    refine ⟨by omega, by omega, ?_⟩
    rw [hall, hmax]
    decide
  exact ⟨past, p, hstart.follow hfollow, hqueue, hres, (reserve_fills_iff hconsistent 0).mpr hfills⟩

/-- Both threads are given back, but only one of the two tasks starts. -/
theorem second_task_stays_queued : ∃ past p, system.Run past p ∧ p.maxThreads = 2 ∧
    p.resThreads = 2 ∧ p.queue = [(1, 0), (2, 0)] ∧ (p.reserve 0 true).queue = [(1, 0)] ∧
    (p.reserve 0 true).activeThreads = 1 ∧ ¬ Filled (p.reserve 0 true) := by
  have hqueued : ∃ past p, follow step [] (create 2) [.reserve 2 true, .start (some 1) 0 true,
      .start (some 2) 0 true] = some (past, p) ∧ p.maxThreads = 2 ∧ p.resThreads = 2 ∧
      p.queue = [(1, 0), (2, 0)] ∧ (p.reserve 0 true).queue = [(1, 0)] ∧
      (p.reserve 0 true).activeThreads = 1 ∧ (p.reserve 0 true).maxThreads = 2 :=
    ⟨_, _, rfl, rfl, rfl, rfl, rfl, rfl, rfl⟩
  obtain ⟨past, p, hfollow, hmax, hres, hqueue, hleft, hactive, hbound⟩ := hqueued
  have hstart : system.Run [] (create 2) := .start ⟨2, rfl⟩
  refine ⟨past, p, hstart.follow hfollow, hmax, hres, hqueue, hleft, hactive, ?_⟩
  rintro (hempty | hfull)
  · rw [hleft] at hempty
    cases hempty
  · rw [hactive, hbound] at hfull
    omega

end

end CkCore.Proofs.PoolFreed
