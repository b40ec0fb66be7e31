import CkCore.Lib.Census
import CkCore.Model.WindowsWait

namespace CkCore.Proofs.Broadcast
open Lib WindowsWait

/-- The calls that have yet to take themselves off waiters_. -/
def counts : WindowsWaitPc → Bool
  | .blocked | .timedOut | .acquired => true
  | .lastWaiter | .left => false

def pending (s : WindowsWait) : Nat := s.calls.countP fun c => counts c.pc

def pcAt (s : WindowsWait) (call : Nat) : Option WindowsWaitPc :=
  s.calls[call]?.map WindowsWaitCall.pc

/-- A signal_all is blocked for the calls below the mark. -/
def blockedAt (s : WindowsWait) (signal mark : Nat) : Prop :=
  s.signals[signal]? = some (.blocked mark)

/-- A last waiter has left and is about to set the event. -/
def closing (s : WindowsWait) : Prop := ∃ t, pcAt s t = some .lastWaiter

def relieved (s : WindowsWait) : Prop := s.waitersDone = true ∨ closing s

/-- A call below the mark whose time is not over, and that holds a token or finds
one, has yet to leave a broadcast. -/
def attends (s : WindowsWait) (mark call : Nat) : Prop :=
  s.broadcast = true ∧ call < mark ∧
    (pcAt s call = some .acquired ∨ pcAt s call = some .blocked ∧ 0 < s.sema)

def attended (s : WindowsWait) : Prop :=
  ∀ signal mark, blockedAt s signal mark → relieved s ∨ ∃ call, attends s mark call

/-- waiters_ is the number of calls that have yet to leave. -/
structure Sized (s : WindowsWait) : Prop where
  small : s.waiters < word
  counted : s.waiters = pending s

/-- A blocked signal_all has its event set, or some call is still to do that. -/
structure Answered (s : WindowsWait) : Prop extends Sized s where
  attended : attended s
  released : ∀ signal mark, blockedAt s signal mark → s.waiters = 0 → relieved s

/-- Every blocked signal_all has another call left than this one. -/
def spared (s : WindowsWait) (call : Nat) : Prop :=
  ∀ signal mark, blockedAt s signal mark →
    relieved s ∨ ∃ other, other ≠ call ∧ attends s mark other

/-- The steps that leave every blocked signal_all a call to wait for. -/
def heeded (s : WindowsWait) : Event → Prop
  | .wait _ => pending s + 1 < word
  | .acquire call => ∀ signal mark, blockedAt s signal mark → relieved s ∨ call < mark ∨
      ∃ other, other ≠ call ∧ attends { s with sema := s.sema - 1 } mark other
  | .expire call => spared s call
  | .leaveAcquired call => s.broadcast = true ∧ s.waiters = 1 ∨ spared s call
  | .signalAll => 0 < s.waiters → relieved s ∨ ∃ call, pcAt s call = some .acquired ∨
      pcAt s call = some .blocked ∧ 0 < WindowsWait.release s.sema s.waiters
  | .wakeSignal signal => ∀ other mark, other ≠ signal → blockedAt s other mark →
      closing s ∨ ∃ call, attends s mark call
  | .endBroadcast _ => ∀ signal mark, blockedAt s signal mark → relieved s
  | _ => True

variable {s s' : WindowsWait} {call other : Nat} {c : WindowsWaitCall} {pc : WindowsWaitPc}

theorem callStep_cases {next : WindowsWaitCall → Option WindowsWait}
    (h : s.callStep call pc next = some s') :
    ∃ c, s.calls[call]? = some c ∧ c.pc = pc ∧ next c = some s' := by
  unfold callStep at h
  split at h
  case h_1 => cases h
  case h_2 c hc =>
    split at h
    case isTrue hpc => exact ⟨c, hc, hpc, h⟩
    case isFalse => cases h

theorem signalStep_cases {signal : Nat} {next : WindowsSignal → Option WindowsWait}
    (h : s.signalStep signal next = some s') :
    ∃ c, s.signals[signal]? = some c ∧ next c = some s' := by
  unfold signalStep at h
  split at h
  case h_1 => cases h
  case h_2 c hc => exact ⟨c, hc, h⟩

theorem pcAt_put (hc : s.calls[call]? = some c) (pc : WindowsWaitPc) (other : Nat) :
    pcAt (s.put call c pc) other = if other = call then some pc else pcAt s other := by
  have hin : call < s.calls.length := (List.getElem?_eq_some_iff.mp hc).1
  unfold pcAt put
  by_cases h : other = call
  · subst h
    rw [if_pos rfl, List.getElem?_set_self hin]
    rfl
  · rw [if_neg h, List.getElem?_set_ne (fun he => h he.symm)]

theorem pending_put (hc : s.calls[call]? = some c) (pc : WindowsWaitPc) :
    pending (s.put call c pc) + (counts c.pc).toNat = pending s + (counts pc).toNat :=
  census_set (fun c : WindowsWaitCall => counts c.pc) hc { c with pc := pc }

/-- A signal_all that waits for nobody would have to find waiters_ at zero. -/
theorem Sized.answered (h : Sized s) (ha : attended s) : Answered s := by
  refine ⟨h, ha, ?_⟩
  intro signal mark hblocked hzero
  rcases ha signal mark hblocked with hrelieved | ⟨t, _, _, hpc⟩
  · exact hrelieved
  · exfalso
    obtain ⟨c, hc, hcounts⟩ : ∃ c, s.calls[t]? = some c ∧ counts c.pc = true := by
      rcases hpc with hpc | ⟨hpc, _⟩
      all_goals
        obtain ⟨c, hc, hpc⟩ := Option.map_eq_some_iff.mp hpc
        exact ⟨c, hc, by rw [hpc]; rfl⟩
    have hpos : 0 < pending s := census_pos (p := fun c : WindowsWaitCall => counts c.pc) hc hcounts
    have hcounted := h.counted
    omega

theorem closing_put (hc : s.calls[call]? = some c) (hold : c.pc ≠ .lastWaiter)
    (pc : WindowsWaitPc) (hnew : pc ≠ .lastWaiter) : closing (s.put call c pc) ↔ closing s := by
  have hat : pcAt s call = some c.pc := by
    unfold pcAt
    rw [hc]
    rfl
  constructor
  · rintro ⟨t, ht⟩
    rw [pcAt_put hc] at ht
    split at ht
    case isTrue => exact absurd (Option.some.inj ht) hnew
    case isFalse => exact ⟨t, ht⟩
  · rintro ⟨t, ht⟩
    refine ⟨t, ?_⟩
    rw [pcAt_put hc]
    split
    case isTrue heq =>
      rw [heq, hat] at ht
      exact absurd (Option.some.inj ht) hold
    case isFalse => exact ht

/-- A call whose time is over, or that has left, attends no broadcast. -/
theorem attends_drop (hc : s.calls[call]? = some c) (hpc : pc = .timedOut ∨ pc = .left)
    (mark : Nat) :
    attends (s.put call c pc) mark other ↔ other ≠ call ∧ attends s mark other := by
  unfold attends
  rw [pcAt_put hc]
  by_cases h : other = call
  · rw [if_pos h]
    rcases hpc with rfl | rfl
    all_goals simp [h]
  · rw [if_neg h]
    simp only [h, ne_eq, not_false_eq_true, true_and]
    exact Iff.rfl

theorem attended_drop (hc : s.calls[call]? = some c) (hold : c.pc ≠ .lastWaiter)
    (hpc : pc = .timedOut ∨ pc = .left) : attended (s.put call c pc) ↔ spared s call := by
  have hnew : pc ≠ .lastWaiter := by
    rcases hpc with rfl | rfl
    all_goals exact fun h => nomatch h
  have hrelieved : relieved (s.put call c pc) ↔ relieved s :=
    or_congr Iff.rfl (closing_put hc hold pc hnew)
  refine forall_congr' fun signal => forall_congr' fun mark => imp_congr Iff.rfl ?_
  exact or_congr hrelieved (exists_congr fun other => attends_drop hc hpc mark)

/-- More tokens, more calls and fewer blocked signals keep every broadcast attended. -/
theorem attended_mono (h : attended s)
    (hsignals : ∀ signal mark, blockedAt s' signal mark → blockedAt s signal mark)
    (hdone : s.waitersDone = true → s'.waitersDone = true)
    (hbroadcast : s.broadcast = true → s'.broadcast = true)
    (hcalls : ∀ t pc, pcAt s t = some pc → pcAt s' t = some pc) (hsema : s.sema ≤ s'.sema) :
    attended s' := by
  intro signal mark hblocked
  rcases h signal mark (hsignals signal mark hblocked) with
    (hset | ⟨t, ht⟩) | ⟨t, hb, hmark, hpc⟩
  · exact Or.inl (Or.inl (hdone hset))
  · exact Or.inl (Or.inr ⟨t, hcalls t _ ht⟩)
  · refine Or.inr ⟨t, hbroadcast hb, hmark, ?_⟩
    rcases hpc with hpc | ⟨hpc, htoken⟩
    · exact Or.inl (hcalls t _ hpc)
    · exact Or.inr ⟨hcalls t _ hpc, Nat.lt_of_lt_of_le htoken hsema⟩

theorem release_le (sema count : Nat) : sema ≤ WindowsWait.release sema count := by
  unfold WindowsWait.release
  split <;> omega

theorem pcAt_append (s : WindowsWait) (c : WindowsWaitCall) {t : Nat}
    (h : pcAt s t = some pc) : (s.calls ++ [c])[t]?.map WindowsWaitCall.pc = some pc := by
  obtain ⟨d, hd, hpc⟩ := Option.map_eq_some_iff.mp h
  have hin : t < s.calls.length := (List.getElem?_eq_some_iff.mp hd).1
  rw [List.getElem?_append_left hin, hd]
  exact congrArg some hpc

theorem wait_answered (h : Answered s) (timeout : Nat) (hs : s.step (.wait timeout) = some s') :
    Answered s' ↔ pending s + 1 < word := by
  obtain rfl := Option.some.inj hs
  obtain ⟨t, ht⟩ : ∃ t : WindowsWait, t = { s with
      waiters := addWord s.waiters 1, calls := s.calls ++ [⟨timeout, .blocked⟩] } := ⟨_, rfl⟩
  rw [← ht]
  have hpending : pending t = pending s + 1 := by
    rw [ht]
    exact census_append _ _ _
  have hwaiters : t.waiters = (pending s + 1) % word := by
    rw [ht, ← h.counted]
    rfl
  constructor
  · intro h'
    have hsmall := h'.small
    rw [h'.counted, hpending] at hsmall
    exact hsmall
  · intro hroom
    rw [Nat.mod_eq_of_lt hroom] at hwaiters
    refine Sized.answered ⟨hwaiters ▸ hroom, hwaiters.trans hpending.symm⟩ ?_
    have hsema : t.sema = s.sema := by rw [ht]
    refine attended_mono h.attended ?_ ?_ ?_ ?_ (Nat.le_of_eq hsema.symm)
    all_goals rw [ht]
    · exact fun _ _ hb => hb
    · exact id
    · exact id
    · exact fun t pc hpc => pcAt_append s _ hpc

/-- A call that keeps its place in waiters_ keeps the count. -/
theorem Sized.put_same (h : Sized s) (hc : s.calls[call]? = some c) (pc : WindowsWaitPc)
    (hsame : counts pc = counts c.pc) : Sized (s.put call c pc) := by
  have hpending := pending_put hc pc
  rw [hsame] at hpending
  have hcounted := h.counted
  refine ⟨h.small, ?_⟩
  show s.waiters = pending (s.put call c pc)
  omega

/-- A call that leaves takes itself off waiters_. -/
theorem Sized.put_less (h : Sized s) (hc : s.calls[call]? = some c) (hold : counts c.pc = true)
    (pc : WindowsWaitPc) (hnew : counts pc = false) {n : Nat} (hn : n = subWord s.waiters 1) :
    Sized ({ s with waiters := n }.put call c pc) ∧ n + 1 = s.waiters := by
  have hpending := pending_put hc pc
  rw [hold, hnew, Bool.toNat_true, Bool.toNat_false] at hpending
  have hsame : pending ({ s with waiters := n }.put call c pc) = pending (s.put call c pc) := rfl
  have hcounted := h.counted
  have hsmall := h.small
  rw [subWord_eq hsmall (by omega)] at hn
  refine ⟨⟨?_, ?_⟩, by omega⟩
  · show n < word
    omega
  · show n = pending ({ s with waiters := n }.put call c pc)
    omega

theorem Sized.answered_iff (h : Sized s) : Answered s ↔ attended s :=
  ⟨fun ha => ha.attended, fun ha => h.answered ha⟩

theorem pcAt_of (hc : s.calls[call]? = some c) : pcAt s call = some c.pc := by
  unfold pcAt
  rw [hc]
  rfl

/-- Taking a token leaves one call more sure to leave, and one token less. -/
theorem acquire_attended (h : attended s) (hc : s.calls[call]? = some c) (hpc : c.pc = .blocked)
    {t : WindowsWait} (ht : t = { s with sema := s.sema - 1 }) :
    attended (t.put call c .acquired) ↔ heeded s (.acquire call) := by
  have hct : t.calls[call]? = some c := by
    rw [ht]
    exact hc
  have hrelieved : relieved (t.put call c .acquired) ↔ relieved s := by
    have hclosing := closing_put hct (by rw [hpc]; decide) .acquired (by decide)
    rw [ht] at hclosing ⊢
    exact or_congr Iff.rfl hclosing
  have hself : ∀ mark, attends (t.put call c .acquired) mark call ↔
      s.broadcast = true ∧ call < mark := by
    intro mark
    unfold attends
    rw [pcAt_put hct, if_pos rfl, ht]
    simp [put]
  have hothers : ∀ mark other, other ≠ call →
      (attends (t.put call c .acquired) mark other ↔ attends t mark other) := by
    intro mark other hne
    unfold attends
    rw [pcAt_put hct, if_neg hne]
    exact Iff.rfl
  constructor
  · intro hnow signal mark hblocked
    rcases hnow signal mark (ht ▸ hblocked) with hr | ⟨other, hother⟩
    · exact Or.inl (hrelieved.mp hr)
    · by_cases hne : other = call
      · rw [hne] at hother
        exact Or.inr (Or.inl ((hself mark).mp hother).2)
      · exact Or.inr (Or.inr ⟨other, hne, ht ▸ (hothers mark other hne).mp hother⟩)
  · intro hheeded signal mark hblocked
    have hblocked : blockedAt s signal mark := by
      rw [ht] at hblocked
      exact hblocked
    rcases hheeded signal mark hblocked with hr | hmark | ⟨other, hne, hother⟩
    · exact Or.inl (hrelieved.mpr hr)
    · rcases h signal mark hblocked with hr | ⟨_, hbroadcast, _⟩
      · exact Or.inl (hrelieved.mpr hr)
      · exact Or.inr ⟨call, (hself mark).mpr ⟨hbroadcast, hmark⟩⟩
    · exact Or.inr ⟨other, (hothers mark other hne).mpr (ht ▸ hother)⟩

theorem leaveAcquired_answered (h : Answered s) (hs : s.step (.leaveAcquired call) = some s') :
    Answered s' ↔ heeded s (.leaveAcquired call) := by
  obtain ⟨c, hc, hpc, hs⟩ := callStep_cases hs
  obtain rfl := Option.some.inj hs
  have hold : counts c.pc = true := by rw [hpc]; rfl
  have hlast : c.pc ≠ .lastWaiter := by rw [hpc]; decide
  unfold leaveAcquired
  obtain ⟨n, hn⟩ : ∃ n, n = subWord s.waiters 1 := ⟨_, rfl⟩
  rw [← hn]
  dsimp only
  by_cases hdone : s.broadcast = true ∧ n = 0
  · obtain ⟨hsized, hone⟩ := h.toSized.put_less hc hold .lastWaiter rfl hn
    rw [if_pos hdone]
    refine iff_of_true (hsized.answered fun _ _ _ => ?_) (Or.inl ⟨hdone.1, by omega⟩)
    have hat := pcAt_put (s := { s with waiters := n }) hc .lastWaiter call
    rw [if_pos rfl] at hat
    exact Or.inl (Or.inr ⟨call, hat⟩)
  · obtain ⟨hsized, hone⟩ := h.toSized.put_less hc hold .left rfl hn
    rw [if_neg hdone, hsized.answered_iff]
    have hdrop := attended_drop (s := { s with waiters := n }) hc hlast (Or.inr rfl)
    refine hdrop.trans ⟨Or.inr, ?_⟩
    rintro (⟨hbroadcast, hwaiters⟩ | hspared)
    · exact absurd ⟨hbroadcast, by omega⟩ hdone
    · exact hspared

theorem leaveTimedOut_answered (h : Answered s) (hs : s.step (.leaveTimedOut call) = some s') :
    Answered s' := by
  obtain ⟨c, hc, hpc, hs⟩ := callStep_cases hs
  obtain rfl := Option.some.inj hs
  have hold : counts c.pc = true := by rw [hpc]; rfl
  have hlast : c.pc ≠ .lastWaiter := by rw [hpc]; decide
  unfold leaveTimedOut
  obtain ⟨n, hn⟩ : ∃ n, n = subWord s.waiters 1 := ⟨_, rfl⟩
  rw [← hn]
  obtain ⟨hsized, hone⟩ := h.toSized.put_less hc hold .left rfl hn
  have hdrop := attended_drop (s := { s with waiters := n }) hc hlast (Or.inr rfl)
  refine hsized.answered (hdrop.mpr ?_)
  intro signal mark hblocked
  rcases h.attended signal mark hblocked with hr | ⟨other, hother⟩
  · exact Or.inl hr
  · refine Or.inr ⟨other, ?_, hother⟩
    rintro rfl
    obtain ⟨_, _, hat | ⟨hat, _⟩⟩ := hother
    all_goals
      rw [pcAt_of hc, hpc] at hat
      cases hat

theorem acquire_answered (h : Answered s) (hs : s.step (.acquire call) = some s') :
    Answered s' ↔ heeded s (.acquire call) := by
  obtain ⟨c, hc, hpc, hs⟩ := callStep_cases hs
  split at hs
  case isTrue => cases hs
  case isFalse =>
    obtain rfl := Option.some.inj hs
    have hless : Sized { s with sema := s.sema - 1 } := ⟨h.small, h.counted⟩
    have hsized := hless.put_same hc .acquired (by rw [hpc]; rfl)
    rw [hsized.answered_iff]
    exact acquire_attended h.attended hc hpc rfl

theorem expire_answered (h : Answered s) (hs : s.step (.expire call) = some s') :
    Answered s' ↔ heeded s (.expire call) := by
  obtain ⟨c, hc, hpc, hs⟩ := callStep_cases hs
  split at hs
  case isTrue => cases hs
  case isFalse =>
    obtain rfl := Option.some.inj hs
    have hsized := h.toSized.put_same hc .timedOut (by rw [hpc]; rfl)
    rw [hsized.answered_iff]
    exact attended_drop hc (by rw [hpc]; decide) (Or.inl rfl)

theorem setDone_answered (h : Answered s) (hs : s.step (.setDone call) = some s') :
    Answered s' := by
  obtain ⟨c, hc, hpc, hs⟩ := callStep_cases hs
  obtain rfl := Option.some.inj hs
  have hset : Sized { s with waitersDone := true } := ⟨h.small, h.counted⟩
  have hsized := hset.put_same hc .left (by rw [hpc]; rfl)
  exact hsized.answered fun _ _ _ => Or.inl (Or.inl rfl)

theorem blockedAt_append {signals : List WindowsSignal} {d : WindowsSignal} {signal mark : Nat} :
    (signals ++ [d])[signal]? = some (.blocked mark) ↔
      signals[signal]? = some (.blocked mark) ∨ signal = signals.length ∧ d = .blocked mark := by
  rcases Nat.lt_trichotomy signal signals.length with hlt | heq | hgt
  · rw [List.getElem?_append_left hlt]
    exact (or_iff_left fun h => absurd h.1 (by omega)).symm
  · subst heq
    simp
  · rw [List.getElem?_eq_none (by rw [List.length_append, List.length_singleton]; omega),
      List.getElem?_eq_none (by omega)]
    refine iff_of_false (fun h => nomatch h) ?_
    rintro (h | ⟨heq, _⟩)
    · cases h
    · omega

theorem signalOne_answered (h : Answered s) (hs : s.step .signalOne = some s') :
    Answered s' := by
  obtain rfl := Option.some.inj hs
  split
  case isTrue =>
    refine Sized.answered ⟨h.small, h.counted⟩ ?_
    refine attended_mono h.attended ?_ id id (fun _ _ hpc => hpc) (Nat.le_refl _)
    intro signal mark hblocked
    rcases blockedAt_append.mp hblocked with hold | ⟨_, hnew⟩
    · exact hold
    · cases hnew
  case isFalse => exact h

/-- A signal that moves on is blocked no longer, the others stay as they are. -/
theorem blockedAt_set {signals : List WindowsSignal} {c d : WindowsSignal}
    {signal other mark : Nat} (hc : signals[signal]? = some c) (hd : ∀ mark, d ≠ .blocked mark) :
    (signals.set signal d)[other]? = some (.blocked mark) ↔
      other ≠ signal ∧ signals[other]? = some (.blocked mark) := by
  have hin : signal < signals.length := (List.getElem?_eq_some_iff.mp hc).1
  by_cases h : other = signal
  · subst h
    rw [List.getElem?_set_self hin, Option.some.injEq]
    exact iff_of_false (hd mark) fun h => h.1 rfl
  · rw [List.getElem?_set_ne fun he => h he.symm]
    exact ⟨fun hb => ⟨h, hb⟩, fun hb => hb.2⟩

theorem release_answered (h : Answered s) {signal : Nat}
    (hs : s.step (.release signal) = some s') : Answered s' := by
  obtain ⟨c, hc, hs⟩ := signalStep_cases hs
  split at hs
  case isFalse => cases hs
  case isTrue =>
    obtain rfl := Option.some.inj hs
    refine Sized.answered ⟨h.small, h.counted⟩ ?_
    refine attended_mono h.attended ?_ id id (fun _ _ hpc => hpc) (release_le _ _)
    intro other mark hblocked
    exact ((blockedAt_set (d := .done) hc (fun _ hd => nomatch hd)).mp hblocked).2

/-- A broadcast has to find a call that can take one of the tokens. -/
theorem signalAll_answered (h : Answered s) (hs : s.step .signalAll = some s') :
    Answered s' ↔ heeded s .signalAll := by
  obtain rfl := Option.some.inj hs
  split
  case isFalse hnone => exact iff_of_true h fun hpos => absurd hpos hnone
  case isTrue hpos =>
    obtain ⟨t, ht⟩ : ∃ t : WindowsWait, t = { s with
        broadcast := true
        sema := WindowsWait.release s.sema s.waiters
        signals := s.signals ++ [.blocked s.calls.length] } := ⟨_, rfl⟩
    rw [← ht]
    have hsized : Sized t := by
      rw [ht]
      exact ⟨h.small, h.counted⟩
    have hblocked : ∀ signal mark, blockedAt t signal mark ↔ blockedAt s signal mark ∨
        signal = s.signals.length ∧ WindowsSignal.blocked s.calls.length = .blocked mark := by
      intro signal mark
      rw [ht]
      exact blockedAt_append
    have hrelieved : relieved t ↔ relieved s := by
      rw [ht]
      exact Iff.rfl
    have hattends : ∀ mark call, attends t mark call ↔ call < mark ∧
        (pcAt s call = some .acquired ∨
          pcAt s call = some .blocked ∧ 0 < WindowsWait.release s.sema s.waiters) := by
      intro mark call
      rw [ht]
      exact ⟨fun h => h.2, fun h => ⟨rfl, h⟩⟩
    rw [hsized.answered_iff]
    constructor
    · intro hnow _
      rcases hnow s.signals.length s.calls.length ((hblocked _ _).mpr (Or.inr ⟨rfl, rfl⟩)) with
        hr | ⟨call, hcall⟩
      · exact Or.inl (hrelieved.mp hr)
      · exact Or.inr ⟨call, ((hattends _ _).mp hcall).2⟩
    · intro hheeded signal mark hb
      rcases (hblocked signal mark).mp hb with hold | ⟨_, hnew⟩
      · rcases h.attended signal mark hold with hr | ⟨call, _, hmark, hpc⟩
        · exact Or.inl (hrelieved.mpr hr)
        · refine Or.inr ⟨call, (hattends _ _).mpr ⟨hmark, ?_⟩⟩
          exact hpc.imp id fun hpc =>
            ⟨hpc.1, Nat.lt_of_lt_of_le hpc.2 (release_le s.sema s.waiters)⟩
      · cases hnew
        rcases hheeded hpos with hr | ⟨call, hpc⟩
        · exact Or.inl (hrelieved.mpr hr)
        · refine Or.inr ⟨call, (hattends _ _).mpr ⟨?_, hpc⟩⟩
          rcases hpc with hpc | ⟨hpc, _⟩
          all_goals
            obtain ⟨c, hc, _⟩ := Option.map_eq_some_iff.mp hpc
            exact (List.getElem?_eq_some_iff.mp hc).1

theorem wakeSignal_answered (h : Answered s) {signal : Nat}
    (hs : s.step (.wakeSignal signal) = some s') :
    Answered s' ↔ heeded s (.wakeSignal signal) := by
  obtain ⟨c, hc, hs⟩ := signalStep_cases hs
  split at hs
  case h_2 => cases hs
  case h_1 mark₀ =>
    split at hs
    case isFalse => cases hs
    case isTrue =>
      obtain rfl := Option.some.inj hs
      have hsized : Sized { s with
          waitersDone := false, signals := s.signals.set signal .ending } := ⟨h.small, h.counted⟩
      refine hsized.answered_iff.trans ?_
      have hblocked : ∀ other mark, blockedAt { s with
          waitersDone := false, signals := s.signals.set signal .ending } other mark ↔
          other ≠ signal ∧ blockedAt s other mark :=
        fun other mark => blockedAt_set hc (fun _ hd => nomatch hd)
      constructor
      · intro hnow other mark hne hb
        rcases hnow other mark ((hblocked other mark).mpr ⟨hne, hb⟩) with
          (hset | hclosing) | hcall
        · cases hset
        · exact Or.inl hclosing
        · exact Or.inr hcall
      · intro hheeded other mark hb
        obtain ⟨hne, hb⟩ := (hblocked other mark).mp hb
        exact (hheeded other mark hne hb).imp Or.inr id

theorem endBroadcast_answered (h : Answered s) {signal : Nat}
    (hs : s.step (.endBroadcast signal) = some s') :
    Answered s' ↔ heeded s (.endBroadcast signal) := by
  obtain ⟨c, hc, hs⟩ := signalStep_cases hs
  split at hs
  case isFalse => cases hs
  case isTrue hending =>
    obtain rfl := Option.some.inj hs
    have hsized : Sized { s with
        broadcast := false, signals := s.signals.set signal .done } := ⟨h.small, h.counted⟩
    refine hsized.answered_iff.trans ?_
    have hblocked : ∀ other mark, blockedAt { s with
        broadcast := false, signals := s.signals.set signal .done } other mark ↔
        other ≠ signal ∧ blockedAt s other mark :=
      fun other mark => blockedAt_set hc (fun _ hd => nomatch hd)
    constructor
    · intro hnow other mark hb
      have hne : other ≠ signal := by
        rintro rfl
        rw [blockedAt, hc, hending] at hb
        cases hb
      rcases hnow other mark ((hblocked other mark).mpr ⟨hne, hb⟩) with hr | ⟨_, hno, _⟩
      · exact hr
      · cases hno
    · intro hheeded other mark hb
      exact Or.inl (hheeded other mark ((hblocked other mark).mp hb).2)

/-- A step leaves every blocked signal_all answered just when it is heeded. -/
theorem step_answered (h : Answered s) {e : Event} (hs : s.step e = some s') :
    Answered s' ↔ heeded s e := by
  cases e with
  | wait timeout => exact wait_answered h timeout hs
  | acquire call => exact acquire_answered h hs
  | expire call => exact expire_answered h hs
  | leaveAcquired call => exact leaveAcquired_answered h hs
  | leaveTimedOut call => exact iff_of_true (leaveTimedOut_answered h hs) trivial
  | setDone call => exact iff_of_true (setDone_answered h hs) trivial
  | signalOne => exact iff_of_true (signalOne_answered h hs) trivial
  | release signal => exact iff_of_true (release_answered h hs) trivial
  | signalAll => exact signalAll_answered h hs
  | wakeSignal signal => exact wakeSignal_answered h hs
  | endBroadcast signal => exact endBroadcast_answered h hs

theorem create_answered : Answered create :=
  Sized.answered ⟨by decide, rfl⟩ fun _ _ hb => nomatch hb

/-- Every blocked signal_all is answered in every state of a run just when no
call times out, leaves or takes a token as the last one it depends on. -/
theorem answered_run_iff {past : List (WindowsWait × Event)} (h : system.Run past s) :
    ((∀ p ∈ past, Answered p.1) ∧ Answered s) ↔ ∀ p ∈ past, heeded p.1 p.2 :=
  h.all_iff (fun _ hinit => hinit ▸ create_answered) (fun _ _ _ ha hs => step_answered ha hs)

/-- A call whose time is over leaves in front of one with a token. -/
theorem answered_run_iff_two : ∃ past s, system.Run past s ∧
    ((∀ p ∈ past, Answered p.1) ∧ Answered s ↔ ∀ p ∈ past, heeded p.1 p.2) ∧
    s.broadcast = false ∧ s.waiters = 0 := by
  have hstart : system.Run [] create := .start rfl
  have hrun := hstart.follow (show follow step [] create [.wait 5, .wait 5, .signalAll, .expire 0,
    .acquire 1, .leaveTimedOut 0, .leaveAcquired 1, .setDone 1, .wakeSignal 0,
    .endBroadcast 0] = some (_, _) from rfl)
  exact ⟨_, _, hrun, answered_run_iff hrun, rfl, rfl⟩

/-- A call whose time is over in front of the broadcast leaves without setting
the event: signal_all stays blocked with waiters_ at zero. -/
theorem broadcast_left_blocked : ∃ past s, system.Run past s ∧ blockedAt s 0 1 ∧
    s.waiters = 0 ∧ s.waitersDone = false ∧ ∀ c ∈ s.calls, c.pc = .left := by
  have hstart : system.Run [] create := .start rfl
  have hrun := hstart.follow (show follow step [] create [.wait 5, .expire 0, .signalAll,
    .leaveTimedOut 0] = some (_, _) from rfl)
  exact ⟨_, _, hrun, rfl, rfl, rfl, by decide⟩

end CkCore.Proofs.Broadcast
