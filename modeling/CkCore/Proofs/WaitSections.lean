import CkCore.Proofs.WaitLocks

namespace CkCore.Proofs.WaitSections
open Lib CkCore.LockedWait WaitLocks

/-- The call of wait a thread is in behind the release of the mutex, with its
time-out. -/
def callOf : WaitPlace → Option (Nat × Nat)
  | .counting call timeout | .asleep call timeout | .awake call timeout _ => some (call, timeout)
  | _ => none

def isCounting : WaitPlace → Bool
  | .counting _ _ => true
  | _ => false

/-- The time-out that has passed. -/
def passed : WaitPlace → Option Nat
  | .awake _ timeout true => some timeout
  | _ => none

/-- What a step of a thread is for the others: a call of wait begins when it
releases the mutex, one that has come back goes on or sleeps again, a signal is
issued, or nothing happens. -/
def commits (p : LockedWait × Event) : Option Waiting.Event :=
  match p.2 with
  | .go t =>
    match p.1.places[t]? with
    | some (.releasing timeout) => some (.wait timeout)
    | some (.awake call _ expired) =>
      if expired then some (.expire call)
      else if p.1.cond.wakeups = 0 then some (.spurious call)
      else some (.wake call)
    | _ => none
  | .issue t _ =>
    match p.1.places[t]? with
    | some (.signalling all _) => if all then some .signalAll else some .signalOne
    | _ => none
  | _ => none

/-- The threads as the calls of a wait condition whose sections are not cut: one
that is about to count itself already counts. -/
structure Matches (s : LockedWait) (a : Waiting) : Prop where
  cond : a.cond = if 0 < s.places.countP isCounting then s.cond.enter else s.cond
  calls : ∀ call timeout, (∃ called, a.calls[call]? = some ⟨timeout, true, called⟩) ↔
    some (call, timeout) ∈ s.places.map callOf
  begun : a.calls.length = s.begun

/-- The calls have different numbers, and only those with a limit run out of time. -/
structure Numbered (s : LockedWait) : Prop where
  distinct : ∀ {t u : Nat} {x y : WaitPlace} {call timeout timeout' : Nat},
    s.places[t]? = some x → s.places[u]? = some y → callOf x = some (call, timeout) →
    callOf y = some (call, timeout') → t = u
  below : ∀ {t : Nat} {x : WaitPlace} {call timeout : Nat}, s.places[t]? = some x →
    callOf x = some (call, timeout) → call < s.begun
  timed : ∀ {t : Nat} {x : WaitPlace}, s.places[t]? = some x →
    passed x ≠ some ThreadPool.unlimited

/-- The step is matched by the section it is, or by none. -/
def Follows (s : LockedWait) (e : Event) (s' : LockedWait) (a : Waiting) : Prop :=
  (commits (s, e) = none → Matches s' a) ∧
  ∀ b, commits (s, e) = some b → ∃ a', a.step b = some a' ∧ Matches s' a'

section
variable {s s' : LockedWait} {a : Waiting} {t call timeout : Nat} {expired : Bool}
  {x y : WaitPlace} {e : Event}

theorem untimed : (none : Option Nat) ≠ some ThreadPool.unlimited :=
  (Option.some_ne_none _).symm

theorem Numbered.turn (h : Numbered s) (hx : s.places[t]? = some x)
    (hplaces : s'.places = s.places.set t y) (hbegun : s.begun ≤ s'.begun)
    (hcall : callOf y = none ∨ callOf y = callOf x ∨
      ∃ timeout, callOf y = some (s.begun, timeout) ∧ s.begun < s'.begun)
    (htimed : passed y ≠ some ThreadPool.unlimited) :
    Numbered s' := by
  have hother : ∀ {u : Nat} {z : WaitPlace} {call timeout timeout' : Nat},
      s.places[u]? = some z → u ≠ t → callOf y = some (call, timeout) →
      callOf z = some (call, timeout') → False := by
    intro u z call timeout timeout' hz hne hy hz'
    rcases hcall with hnone | hsame | ⟨limit, hnew, _⟩
    · rw [hnone] at hy
      cases hy
    · rw [hsame] at hy
      exact hne (h.distinct hz hx hz' hy)
    · rw [hnew] at hy
      cases hy
      exact Nat.lt_irrefl _ (h.below hz hz')
  refine ⟨?_, ?_, ?_⟩
  · intro u v z z' call timeout timeout' hz hz' hc hc'
    rw [hplaces] at hz hz'
    rcases cell_set hx hz with ⟨rfl, rfl⟩ | ⟨hne, hu⟩
    · rcases cell_set hx hz' with ⟨rfl, rfl⟩ | ⟨hne', hz'⟩
      · rfl
      · exact (hother hz' hne' hc hc').elim
    · rcases cell_set hx hz' with ⟨rfl, rfl⟩ | ⟨hne', hz'⟩
      · exact (hother hu hne hc' hc).elim
      · exact h.distinct hu hz' hc hc'
  · intro u z call timeout hz hc
    rw [hplaces] at hz
    rcases cell_set hx hz with ⟨rfl, rfl⟩ | ⟨_, hz⟩
    · rcases hcall with hnone | hsame | ⟨limit, hnew, hless⟩
      · rw [hnone] at hc
        cases hc
      · rw [hsame] at hc
        exact Nat.lt_of_lt_of_le (h.below hx hc) hbegun
      · rw [hnew] at hc
        cases hc
        exact hless
    · exact Nat.lt_of_lt_of_le (h.below hz hc) hbegun
  · intro u z hz
    rw [hplaces] at hz
    rcases cell_set hx hz with ⟨_, rfl⟩ | ⟨_, hz⟩
    · exact htimed
    · exact h.timed hz

/-- A step that changes neither the counters nor who is in which call. -/
theorem Matches.same (h : Matches s a) (hx : s.places[t]? = some x)
    (hplaces : s'.places = s.places.set t y) (hcond : s'.cond = s.cond)
    (hbegun : s'.begun = s.begun) (hcall : callOf y = callOf x)
    (hcounting : isCounting y = isCounting x) : Matches s' a := by
  refine ⟨?_, ?_, ?_⟩
  · rw [hplaces, hcond, census_same isCounting hx hcounting]
    exact h.cond
  · rw [hplaces, map_set_same hx hcall]
    exact h.calls
  · rw [hbegun]
    exact h.begun

/-- The thread with the internal mutex is the only one that may be about to count. -/
theorem none_counting (hl : Locked s) (hx : s.places[t]? = some x) (hk : keeps x = true)
    (hy : isCounting y = false) : (s.places.set t y).countP isCounting = 0 := by
  rw [List.countP_eq_zero]
  intro z hz
  obtain ⟨u, hu⟩ := List.getElem?_of_mem hz
  rcases cell_set hx hu with ⟨_, rfl⟩ | ⟨hne, hu⟩
  · exact Bool.eq_false_iff.mp hy
  · cases z with
    | counting call timeout => exact absurd (hl.alone hx hk hu rfl) hne
    | outside | inside | entering | releasing | asleep | awake => exact Bool.false_ne_true
    | leaving | relocking | calling | signalling | signalled => exact Bool.false_ne_true

theorem Matches.plain (h : Matches s a) (hl : Locked s) (hx : s.places[t]? = some x)
    (hk : keeps x = true) (hnot : isCounting x = false) : a.cond = s.cond := by
  have hnone := none_counting hl hx hk (y := x) hnot
  have hsame : (s.places.set t x).countP isCounting = s.places.countP isCounting :=
    census_same isCounting hx rfl
  rw [h.cond, ← hsame, hnone]
  rfl

theorem mem_set {c : Nat × Nat} (hx : s.places[t]? = some x) (hnone : callOf x = none) :
    some c ∈ (s.places.set t y).map callOf ↔
      callOf y = some c ∨ some c ∈ s.places.map callOf := by
  simp only [List.mem_map]
  constructor
  · rintro ⟨z, hz, hc⟩
    rcases List.mem_or_eq_of_mem_set hz with hz | rfl
    · exact Or.inr ⟨z, hz, hc⟩
    · exact Or.inl hc
  · rintro (hy | ⟨z, hz, hc⟩)
    · exact ⟨y, List.mem_of_getElem? (List.getElem?_set_self
        (List.getElem?_eq_some_iff.mp hx).1), hy⟩
    · obtain ⟨u, hu⟩ := List.getElem?_of_mem hz
      have hne : u ≠ t := by
        rintro rfl
        rw [hx] at hu
        cases hu
        rw [hnone] at hc
        cases hc
      exact ⟨z, List.mem_of_getElem? ((List.getElem?_set_ne fun he => hne he.symm).trans hu), hc⟩

theorem inside_concat (calls : List WaitCall) (limit : Nat) :
    (∃ called, (calls ++ [⟨timeout, true, false⟩])[call]? = some ⟨limit, true, called⟩) ↔
      some (calls.length, timeout) = some (call, limit) ∨
      ∃ called, calls[call]? = some ⟨limit, true, called⟩ := by
  rcases Nat.lt_trichotomy call calls.length with hlt | rfl | hgt
  · rw [List.getElem?_append_left hlt]
    refine ⟨Or.inr, fun hor => hor.resolve_left fun he => ?_⟩
    cases he
    exact Nat.lt_irrefl _ hlt
  · rw [List.getElem?_concat_length]
    constructor
    · rintro ⟨called, he⟩
      cases he
      exact Or.inl rfl
    · rintro (he | ⟨called, he⟩)
      · cases he
        exact ⟨false, rfl⟩
      · rw [List.getElem?_eq_none (Nat.le_refl _)] at he
        cases he
  · have hlong : (calls ++ [(⟨timeout, true, false⟩ : WaitCall)]).length ≤ call := by
      rw [List.length_append]
      exact hgt
    rw [List.getElem?_eq_none hlong, List.getElem?_eq_none (Nat.le_of_lt hgt)]
    refine ⟨fun ⟨_, he⟩ => (nomatch he), ?_⟩
    rintro (he | ⟨_, he⟩)
    · cases he
      exact absurd hgt (Nat.lt_irrefl _)
    · cases he

/-- A call of wait begins with the release of the mutex. -/
theorem release_matches (h : Matches s a) (hl : Locked s)
    (hx : s.places[t]? = some (.releasing timeout)) :
    Matches ({ s with mutex := none, begun := s.begun + 1 }.put t (.counting s.begun timeout))
      { cond := a.cond.enter, calls := a.calls ++ [⟨timeout, true, false⟩] } := by
  refine ⟨?_, ?_, ?_⟩
  · have hpos : 0 < (s.places.set t (.counting s.begun timeout)).countP isCounting :=
      census_pos (List.getElem?_set_self (List.getElem?_eq_some_iff.mp hx).1) rfl
    change a.cond.enter = if 0 < (s.places.set t (.counting s.begun timeout)).countP isCounting
      then s.cond.enter else s.cond
    rw [if_pos hpos, h.plain hl hx rfl rfl]
  · intro call limit
    change _ ↔ some (call, limit) ∈ (s.places.set t (.counting s.begun timeout)).map callOf
    rw [mem_set hx rfl, ← h.calls call limit, ← h.begun]
    exact inside_concat a.calls limit
  · change (a.calls ++ [_]).length = s.begun + 1
    rw [List.length_append, h.begun]
    rfl

/-- Counting itself is no step for the others. -/
theorem count_matches (h : Matches s a) (hl : Locked s)
    (hx : s.places[t]? = some (.counting call timeout)) :
    Matches ({ s with internal := none, cond := s.cond.enter }.put t (.asleep call timeout)) a := by
  refine ⟨?_, ?_, h.begun⟩
  · have hpos : 0 < s.places.countP isCounting := census_pos hx rfl
    have hnone := none_counting hl hx rfl (y := .asleep call timeout) rfl
    change a.cond = if 0 < (s.places.set t (.asleep call timeout)).countP isCounting
      then s.cond.enter.enter else s.cond.enter
    rw [h.cond, hnone, if_pos hpos]
    rfl
  · change ∀ c limit, _ ↔ some (c, limit) ∈ (s.places.set t (.asleep call timeout)).map callOf
    rw [map_set_same (y := .asleep call timeout) hx rfl]
    exact h.calls

/-- The call a thread has come back from is inside. -/
theorem Matches.inside (h : Matches s a) (hx : s.places[t]? = some x)
    (hc : callOf x = some (call, timeout)) :
    ∃ called, a.calls[call]? = some ⟨timeout, true, called⟩ :=
  (h.calls call timeout).mpr (List.mem_map.mpr ⟨x, List.mem_of_getElem? hx, hc⟩)

theorem inside_set {calls : List WaitCall} (hlt : call < calls.length) (called : Bool)
    (other limit : Nat) :
    (∃ k, (calls.set call ⟨timeout, false, called⟩)[other]? = some ⟨limit, true, k⟩) ↔
      other ≠ call ∧ ∃ k, calls[other]? = some ⟨limit, true, k⟩ := by
  by_cases he : other = call
  · subst he
    rw [List.getElem?_set_self hlt]
    exact ⟨fun ⟨_, hk⟩ => (nomatch hk), fun hne => absurd rfl hne.1⟩
  · rw [List.getElem?_set_ne fun hs => he hs.symm]
    exact (and_iff_right he).symm

theorem Numbered.mem_leaving (hn : Numbered s)
    (hx : s.places[t]? = some (.awake call timeout expired)) (res : Bool) (other limit : Nat) :
    some (other, limit) ∈ (s.places.set t (.leaving res)).map callOf ↔
      other ≠ call ∧ some (other, limit) ∈ s.places.map callOf := by
  simp only [List.mem_map]
  constructor
  · rintro ⟨z, hz, hc⟩
    obtain ⟨u, hu⟩ := List.getElem?_of_mem hz
    rcases cell_set hx hu with ⟨_, rfl⟩ | ⟨hne, hu⟩
    · cases hc
    · refine ⟨?_, z, List.mem_of_getElem? hu, hc⟩
      rintro rfl
      exact hne (hn.distinct hu hx hc rfl)
  · rintro ⟨hother, z, hz, hc⟩
    obtain ⟨u, hu⟩ := List.getElem?_of_mem hz
    have hne : t ≠ u := by
      rintro rfl
      rw [hx] at hu
      cases hu
      cases hc
      exact hother rfl
    exact ⟨z, List.mem_of_getElem? ((List.getElem?_set_ne hne).trans hu), hc⟩

/-- A call of wait is over when the thread has left the counters. -/
theorem leave_matches (h : Matches s a) (hl : Locked s) (hn : Numbered s)
    (hx : s.places[t]? = some (.awake call timeout expired)) {called : Bool}
    (hin : a.calls[call]? = some ⟨timeout, true, called⟩) (c : WaitCondition) (res : Bool) :
    Matches ({ s with cond := c }.put t (.leaving res))
      (a.leave call ⟨timeout, true, called⟩ c) := by
  obtain ⟨hlt, _⟩ := List.getElem?_eq_some_iff.mp hin
  refine ⟨?_, ?_, ?_⟩
  · have hnone := none_counting hl hx rfl (y := .leaving res) rfl
    change c = if 0 < (s.places.set t (.leaving res)).countP isCounting then c.enter else c
    rw [hnone]
    rfl
  · intro other limit
    change _ ↔ some (other, limit) ∈ (s.places.set t (.leaving res)).map callOf
    rw [hn.mem_leaving hx, ← h.calls other limit]
    exact inside_set hlt called other limit
  · change (a.calls.set call _).length = s.begun
    rw [List.length_set]
    exact h.begun

/-- A signal reaches every call, whatever it does to the counters. -/
theorem signal_matches (h : Matches s a) (hl : Locked s) {all within : Bool}
    (hx : s.places[t]? = some (.signalling all within)) (c : WaitCondition) (woken : List Nat) :
    Matches ({ s with cond := c, woken := woken }.put t (.signalled within)) (a.issue c) := by
  refine ⟨?_, ?_, ?_⟩
  · have hnone := none_counting hl hx rfl (y := .signalled within) rfl
    change c = if 0 < (s.places.set t (.signalled within)).countP isCounting then c.enter else c
    rw [hnone]
    rfl
  · intro call limit
    change _ ↔ some (call, limit) ∈ (s.places.set t (.signalled within)).map callOf
    rw [map_set_same (y := .signalled within) hx rfl, ← h.calls call limit]
    change (∃ k, (a.calls.map fun c => { c with called := true })[call]? = _) ↔ _
    rw [List.getElem?_map]
    constructor
    · rintro ⟨k, hk⟩
      obtain ⟨⟨limit', inside, called⟩, hw, he⟩ := Option.map_eq_some_iff.mp hk
      cases he
      exact ⟨called, hw⟩
    · rintro ⟨called, hk⟩
      exact ⟨true, by rw [hk]; rfl⟩
  · change (a.calls.map _).length = s.begun
    rw [List.length_map]
    exact h.begun

theorem Follows.none (hc : commits (s, e) = none) (hm : Matches s' a) : Follows s e s' a := by
  refine ⟨fun _ => hm, fun b hb => ?_⟩
  rw [hc] at hb
  cases hb

theorem Follows.some {b : Waiting.Event} {a' : Waiting} (hc : commits (s, e) = some b)
    (hs : a.step b = some a') (hm : Matches s' a') : Follows s e s' a := by
  refine ⟨fun hb => ?_, fun b' hb => ?_⟩
  · rw [hc] at hb
    cases hb
  · rw [hc] at hb
    cases hb
    exact ⟨a', hs, hm⟩

/-- A call that has come back leaves, or goes on sleeping. -/
theorem check_follows (hl : Locked s) (hn : Numbered s) (hm : Matches s a)
    (hx : s.places[t]? = some (.awake call timeout expired)) :
    Follows s (.go t) (s.check t call timeout expired) a := by
  obtain ⟨called, hin⟩ := hm.inside hx rfl
  have hcond := hm.plain hl hx rfl rfl
  unfold check
  cases expired with
  | true =>
    have hlimit : timeout ≠ ThreadPool.unlimited := fun he => hn.timed hx (congrArg some he)
    have hc : commits (s, .go t) = some (.expire call) := by simp only [commits, hx, if_true]
    have hstep : a.step (.expire call) =
        some (a.leave call ⟨timeout, true, called⟩ s.cond.expire) := by
      simp only [Waiting.step, Waiting.callStep, hin, if_true, if_neg hlimit, hcond]
    exact .some hc hstep (leave_matches hm hl hn hx hin _ _)
  | false =>
    rw [if_neg Bool.false_ne_true]
    by_cases hnone : s.cond.wakeups = 0
    · have hc : commits (s, .go t) = some (.spurious call) := by
        simp only [commits, hx, Bool.false_eq_true, if_false, if_pos hnone]
      have hstep : a.step (.spurious call) = some a := by
        simp only [Waiting.step, Waiting.callStep, hin, if_true, hcond, if_pos hnone]
      rw [if_pos hnone]
      exact .some hc hstep (hm.same hx (y := .asleep call timeout) rfl rfl rfl rfl rfl)
    · have hc : commits (s, .go t) = some (.wake call) := by
        simp only [commits, hx, Bool.false_eq_true, if_false, if_neg hnone]
      have hstep : a.step (.wake call) =
          some (a.leave call ⟨timeout, true, called⟩ s.cond.wake) := by
        simp only [Waiting.step, Waiting.callStep, hin, if_true, hcond, if_neg hnone]
      rw [if_neg hnone]
      exact .some hc hstep (leave_matches hm hl hn hx hin _ _)

theorem slips_silent (h : Slips e x y) (hx : s.places[e.thread]? = some x) :
    commits (s, e) = none := by
  cases h with
  | lock | unlock | wait | signal | signalWithin => rfl
  | enter t | leave t | relock t | call t | back t | backWithin t =>
    change s.places[t]? = some _ at hx
    simp only [commits, hx]

theorem slips_call (h : Slips e x y) : callOf y = callOf x := by
  cases h <;> rfl

theorem slips_counting (h : Slips e x y) : isCounting y = isCounting x := by
  cases h <;> rfl

theorem slips_passed (h : Slips e x y) : passed y ≠ some ThreadPool.unlimited := by
  cases h <;> exact untimed

theorem wakes_passed (limit : ¬ (expired = true ∧ timeout = ThreadPool.unlimited)) :
    passed (.awake call timeout expired) ≠ some ThreadPool.unlimited := by
  intro he
  cases expired with
  | true => exact limit ⟨rfl, Option.some.inj he⟩
  | false => exact untimed he

theorem step_follows (hl : Locked s) (hn : Numbered s) (hm : Matches s a)
    (hs : s.step e = some s') : Follows s e s' a := by
  obtain ⟨x, hx, hdoes⟩ := step_does hs
  cases hdoes with
  | slips hslip hplaces hcond _ hbegun =>
    exact .none (slips_silent hslip hx)
      (hm.same hx hplaces hcond hbegun (slips_call hslip) (slips_counting hslip))
  | @wakes t call timeout expired limit =>
    exact .none rfl (hm.same hx (y := .awake call timeout expired) rfl rfl rfl rfl rfl)
  | releases t timeout =>
    change s.places[t]? = some _ at hx
    have hc : commits (s, .go t) = some (.wait timeout) := by simp only [commits, hx]
    exact .some hc rfl (release_matches hm hl hx)
  | counts t call timeout =>
    change s.places[t]? = some _ at hx
    have hc : commits (s, .go t) = none := by simp only [commits, hx]
    exact .none hc (count_matches hm hl hx)
  | checks t call timeout expired => exact check_follows hl hn hm hx
  | issues t chosen all within =>
    change s.places[t]? = some _ at hx
    have hc : commits (s, .issue t chosen) = some (if all then .signalAll else .signalOne) := by
      simp only [commits, hx]
      cases all <;> rfl
    have hstep : a.step (if all then .signalAll else .signalOne) =
        some (a.issue (if all then s.cond.signalAll else s.cond.signalOne)) := by
      rw [← hm.plain hl hx rfl rfl]
      cases all <;> rfl
    exact .some hc hstep (signal_matches hm hl hx _ _)

theorem Numbered.leave (hn : Numbered s) (hx : s.places[t]? = some (.awake call timeout expired))
    (c : WaitCondition) (res : Bool) : Numbered ({ s with cond := c }.put t (.leaving res)) :=
  hn.turn hx (y := .leaving res) rfl (Nat.le_refl _) (Or.inl rfl) untimed

/-- Only the release of the mutex makes a new call, and only a wait with a limit
runs out of time. -/
theorem step_numbered (hn : Numbered s) (hs : s.step e = some s') : Numbered s' := by
  obtain ⟨x, hx, hdoes⟩ := step_does hs
  cases hdoes with
  | slips hslip hplaces _ _ hbegun =>
    exact hn.turn hx hplaces (Nat.le_of_eq hbegun.symm) (Or.inr (Or.inl (slips_call hslip)))
      (slips_passed hslip)
  | @wakes t call timeout expired limit =>
    exact hn.turn hx (y := .awake call timeout expired) rfl (Nat.le_refl _) (Or.inr (Or.inl rfl))
      (wakes_passed limit)
  | releases t timeout =>
    exact hn.turn hx (y := .counting s.begun timeout) rfl (Nat.le_succ _)
      (Or.inr (Or.inr ⟨timeout, rfl, Nat.lt_succ_self _⟩)) untimed
  | counts t call timeout =>
    exact hn.turn hx (y := .asleep call timeout) rfl (Nat.le_refl _) (Or.inr (Or.inl rfl)) untimed
  | checks t call timeout expired =>
    unfold check
    split
    · exact hn.leave hx _ false
    · split
      · exact hn.turn hx (y := .asleep call timeout) rfl (Nat.le_refl _)
          (Or.inr (Or.inl rfl)) untimed
      · exact hn.leave hx _ true
  | issues t chosen all within =>
    exact hn.turn hx (y := .signalled within) rfl (Nat.le_refl _) (Or.inl rfl) untimed

theorem create_matches (threads : Nat) :
    Numbered (create threads) ∧ Matches (create threads) .create := by
  have hout : ∀ x ∈ (create threads).places, x = .outside := fun x hx => List.eq_of_mem_replicate hx
  have hno : ∀ (t : Nat) (x : WaitPlace), (create threads).places[t]? = some x → x = .outside :=
    fun t x hx => hout x (List.mem_of_getElem? hx)
  refine ⟨⟨?_, ?_, ?_⟩, ⟨?_, ?_, rfl⟩⟩
  · intro t u x y call timeout timeout' hx _ hc
    rw [hno t x hx] at hc
    cases hc
  · intro t x call timeout hx hc
    rw [hno t x hx] at hc
    cases hc
  · intro t x hx
    rw [hno t x hx]
    exact untimed
  · have hnone : (create threads).places.countP isCounting = 0 := by
      rw [List.countP_eq_zero]
      intro x hx
      rw [hout x hx]
      exact Bool.false_ne_true
    rw [hnone]
    rfl
  · intro call timeout
    refine iff_of_false (fun ⟨_, he⟩ => (nomatch he)) fun hmem => ?_
    obtain ⟨x, hx, hc⟩ := List.mem_map.mp hmem
    rw [hout x hx] at hc
    cases hc

/-- The sections of a wait condition are not cut by other threads, and a call of
wait gives up the mutex and begins to wait at once: every run of the threads,
lock by lock, is a run of the calls with these sections as its steps, in the
order of the run. -/
theorem sections_atomic {past : List (LockedWait × Event)} (h : system.Run past s) :
    ∃ past' a, Waiting.system.Run past' a ∧ past'.map Prod.snd = past.filterMap commits ∧
      Matches s a := by
  have hinit : ∀ s, system.init s →
      ∃ a, Waiting.system.init a ∧ Locked s ∧ Numbered s ∧ Matches s a := by
    rintro s ⟨threads, rfl⟩
    exact ⟨.create, rfl, create_locked threads, create_matches threads⟩
  have hsilent : ∀ s e s' a, Locked s ∧ Numbered s ∧ Matches s a → system.step s e s' →
      commits (s, e) = none → Locked s' ∧ Numbered s' ∧ Matches s' a := by
    intro s e s' a ⟨hl, hn, hm⟩ hs hc
    exact ⟨step_locked hl hs, step_numbered hn hs, (step_follows hl hn hm hs).1 hc⟩
  have hvisible : ∀ s e s' a b, Locked s ∧ Numbered s ∧ Matches s a → system.step s e s' →
      commits (s, e) = some b →
      ∃ a', Waiting.system.step a b a' ∧ Locked s' ∧ Numbered s' ∧ Matches s' a' := by
    intro s e s' a b ⟨hl, hn, hm⟩ hs hc
    obtain ⟨a', ha, hm'⟩ := (step_follows hl hn hm hs).2 b hc
    exact ⟨a', ha, step_locked hl hs, step_numbered hn hs, hm'⟩
  obtain ⟨past', a, hrun, ⟨_, _, hm⟩, hevents⟩ := h.simulated hinit hsilent hvisible
  exact ⟨past', a, hrun, hevents, hm⟩

/-- A signal is issued between the release of the mutex by a second call and its
count: it is behind the beginning of that call. -/
theorem sections_atomic_two : ∃ past s past' a, system.Run past s ∧
    past.filterMap commits = [.wait 7, .wait 9, .signalAll, .wake 0] ∧
    Waiting.system.Run past' a ∧ past'.map Prod.snd = past.filterMap commits ∧ Matches s a := by
  have htwo : ((follow step [] (create 3) [.lock 0, .wait 0 7, .go 0, .go 0, .lock 1, .wait 1 9,
      .go 0, .go 1, .go 1, .lock 2, .signal 2 true, .go 1, .go 2, .issue 2 [], .go 2,
      .wake 0 false, .go 0]).map fun r => r.1.filterMap commits) =
      some [.wait 7, .wait 9, .signalAll, .wake 0] := by decide +kernel
  obtain ⟨⟨past, s⟩, hfollow, hcommits⟩ := Option.map_eq_some_iff.mp htwo
  have hstart : system.Run [] (create 3) := .start ⟨3, rfl⟩
  have hrun : system.Run past s := hstart.follow hfollow
  obtain ⟨past', a, hsections⟩ := sections_atomic hrun
  exact ⟨past, s, past', a, hrun, hcommits, hsections⟩

end
end CkCore.Proofs.WaitSections
