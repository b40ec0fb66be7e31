namespace CkCore.Lib

/-- A labelled transition system: initial states and one step under an event. -/
structure System (σ ε : Type) where
  init : σ → Prop
  step : σ → ε → σ → Prop

/-- The states of the runs all of whose steps meet a condition on the state
before the step and the event. -/
inductive System.Reached {σ ε : Type} (sys : System σ ε) (meets : σ → ε → Prop) : σ → Prop where
  | start {s : σ} (h : sys.init s) : Reached sys meets s
  | next {s s' : σ} {e : ε} (before : Reached sys meets s) (ok : meets s e)
      (step : sys.step s e s') : Reached sys meets s'

/-- A property of the initial states kept by every step that meets the
condition holds in every state of such a run. -/
theorem System.Reached.invariant {σ ε : Type} {sys : System σ ε} {meets : σ → ε → Prop}
    {P : σ → Prop} (init : ∀ s, sys.init s → P s)
    (step : ∀ s e s', P s → meets s e → sys.step s e s' → P s')
    {s : σ} (h : sys.Reached meets s) : P s := by
  induction h with
  | start h => exact init _ h
  | next before ok hs ih => exact step _ _ _ ih ok hs

/-- Weakening the condition on the steps keeps every run. -/
theorem System.Reached.mono {σ ε : Type} {sys : System σ ε} {meets meets' : σ → ε → Prop}
    (weaker : ∀ s e, meets s e → meets' s e) {s : σ} (h : sys.Reached meets s) :
    sys.Reached meets' s := by
  induction h with
  | start h => exact .start h
  | next before ok hs ih => exact .next ih (weaker _ _ ok) hs

/-- A run with its history: each state a step was taken from and its event. -/
inductive System.Run {σ ε : Type} (sys : System σ ε) : List (σ × ε) → σ → Prop where
  | start {s : σ} (h : sys.init s) : Run sys [] s
  | next {s s' : σ} {e : ε} {past : List (σ × ε)} (before : Run sys past s)
      (step : sys.step s e s') : Run sys (past ++ [(s, e)]) s'

/-- A system whose steps are computed: no result means the event cannot happen. -/
def System.machine {σ ε : Type} (init : σ → Prop) (step : σ → ε → Option σ) : System σ ε where
  init := init
  step s e s' := step s e = some s'

/-- The run of a computed system under a list of events. -/
def follow {σ ε : Type} (step : σ → ε → Option σ) :
    List (σ × ε) → σ → List ε → Option (List (σ × ε) × σ)
  | past, s, [] => some (past, s)
  | past, s, e :: es =>
    match step s e with
    | some s' => follow step (past ++ [(s, e)]) s' es
    | none => none

theorem System.Run.follow {σ ε : Type} {init : σ → Prop} {step : σ → ε → Option σ}
    {past past' : List (σ × ε)} {s s' : σ} {es : List ε}
    (h : (System.machine init step).Run past s)
    (hf : Lib.follow step past s es = some (past', s')) :
    (System.machine init step).Run past' s' := by
  induction es generalizing past s with
  | nil =>
    cases hf
    exact h
  | cons e es ih =>
    unfold Lib.follow at hf
    cases hs : step s e with
    | none => simp [hs] at hf
    | some t =>
      rw [hs] at hf
      exact ih (.next h hs) hf

/-- The history of a computed run has the events it was computed under. -/
theorem follow_events {σ ε : Type} {step : σ → ε → Option σ} {past past' : List (σ × ε)}
    {s s' : σ} {es : List ε} (h : follow step past s es = some (past', s')) :
    past'.map Prod.snd = past.map Prod.snd ++ es := by
  induction es generalizing past s with
  | nil =>
    cases h
    exact (List.append_nil _).symm
  | cons e es ih =>
    unfold follow at h
    cases hs : step s e with
    | none => simp [hs] at h
    | some t =>
      rw [hs] at h
      rw [ih h, List.map_append, List.append_assoc]
      rfl

/-- A run all of whose steps meet a condition reaches its last state under it. -/
theorem System.Run.reached {σ ε : Type} {sys : System σ ε} {meets : σ → ε → Prop}
    {past : List (σ × ε)} {s : σ} (h : sys.Run past s) (hm : ∀ p ∈ past, meets p.1 p.2) :
    sys.Reached meets s := by
  induction h with
  | start h => exact .start h
  | @next s s' e past before step ih =>
    have hpast : ∀ p ∈ past, meets p.1 p.2 := fun p hp => hm p (List.mem_append_left _ hp)
    have hlast : meets s e := hm (s, e) (List.mem_append_right _ (List.mem_singleton.mpr rfl))
    exact .next (ih hpast) hlast step

theorem System.Run.invariant {σ ε : Type} {sys : System σ ε} {I : σ → Prop}
    (init : ∀ s, sys.init s → I s) (step : ∀ s e s', I s → sys.step s e s' → I s')
    {past : List (σ × ε)} {s : σ} (h : sys.Run past s) : I s := by
  induction h with
  | start h => exact init _ h
  | next before hs ih => exact step _ _ _ ih hs

/-- An invariant holds in every state a step of a run was taken from. -/
theorem System.Run.invariant_past {σ ε : Type} {sys : System σ ε} {I : σ → Prop}
    (init : ∀ s, sys.init s → I s) (step : ∀ s e s', I s → sys.step s e s' → I s')
    {past : List (σ × ε)} {s : σ} (h : sys.Run past s) : ∀ p ∈ past, I p.1 := by
  induction h with
  | start h =>
    intro p hp
    cases hp
  | next before hs ih =>
    rw [List.forall_mem_append, List.forall_mem_singleton]
    exact ⟨ih, before.invariant init step⟩

/-- A property that, from the states where it holds with all that goes with it,
a step keeps just when it meets a condition holds all along a run just when all
steps of the run meet the condition. -/
theorem System.Run.all_iff_with {σ ε : Type} {sys : System σ ε} {meets : σ → ε → Prop}
    {P Q : σ → Prop} (init : ∀ s, sys.init s → Q s) (weaker : ∀ s, Q s → P s)
    (step : ∀ s e s', Q s → sys.step s e s' → (P s' ↔ meets s e) ∧ (P s' → Q s'))
    {past : List (σ × ε)} {s : σ} (h : sys.Run past s) :
    ((∀ p ∈ past, P p.1) ∧ P s) ↔ ∀ p ∈ past, meets p.1 p.2 := by
  have hboth : (((∀ p ∈ past, P p.1) ∧ P s) ↔ ∀ p ∈ past, meets p.1 p.2) ∧
      ((∀ p ∈ past, P p.1) ∧ P s → Q s) := by
    induction h with
    | start h =>
      refine ⟨iff_of_true ⟨fun _ hp => ?_, weaker _ (init _ h)⟩ (fun _ hp => ?_), fun _ => init _ h⟩
      · cases hp
      · cases hp
    | @next s s' e past before hs ih =>
      obtain ⟨hiff, hstrong⟩ := ih
      simp only [List.mem_append, List.mem_singleton, or_imp, forall_and, forall_eq]
      refine ⟨⟨?_, ?_⟩, ?_⟩
      · rintro ⟨hpast, hnow⟩
        exact ⟨hiff.mp hpast, (step s e s' (hstrong hpast) hs).1.mp hnow⟩
      · rintro ⟨hpast, hmeets⟩
        have hall := hiff.mpr hpast
        exact ⟨hall, (step s e s' (hstrong hall) hs).1.mpr hmeets⟩
      · rintro ⟨hpast, hnow⟩
        exact (step s e s' (hstrong hpast) hs).2 hnow
  exact hboth.1

/-- When a step keeps a property just when it meets a condition, for states
that satisfy an invariant, the property holds all along a run just when all
steps of the run meet the condition. -/
theorem System.Run.all_iff_of {σ ε : Type} {sys : System σ ε} {meets : σ → ε → Prop}
    {I P : σ → Prop} (init : ∀ s, sys.init s → I s ∧ P s)
    (inv : ∀ s e s', I s → sys.step s e s' → I s')
    (step : ∀ s e s', I s → P s → sys.step s e s' → (P s' ↔ meets s e))
    {past : List (σ × ε)} {s : σ} (h : sys.Run past s) :
    ((∀ p ∈ past, P p.1) ∧ P s) ↔ ∀ p ∈ past, meets p.1 p.2 :=
  h.all_iff_with (Q := fun s => I s ∧ P s) init (fun _ hs => hs.2)
    fun s e s' hs hstep => ⟨step s e s' hs.1 hs.2 hstep, fun hp => ⟨inv s e s' hs.1 hstep, hp⟩⟩

/-- The same for states that need no invariant. -/
theorem System.Run.all_iff {σ ε : Type} {sys : System σ ε} {meets : σ → ε → Prop}
    {P : σ → Prop} (init : ∀ s, sys.init s → P s)
    (step : ∀ s e s', P s → sys.step s e s' → (P s' ↔ meets s e))
    {past : List (σ × ε)} {s : σ} (h : sys.Run past s) :
    ((∀ p ∈ past, P p.1) ∧ P s) ↔ ∀ p ∈ past, meets p.1 p.2 :=
  h.all_iff_of (I := fun _ => True) (fun s h => ⟨trivial, init s h⟩) (fun _ _ _ _ _ => trivial)
    (fun s e s' _ => step s e s')

/-- When a property holds after a step just when it held before and the step
meets a condition, it holds at the end of a run just when all steps meet it. -/
theorem System.Run.iff_of {σ ε : Type} {sys : System σ ε} {meets : σ → ε → Prop} {I P : σ → Prop}
    (init : ∀ s, sys.init s → I s ∧ P s) (inv : ∀ s e s', I s → sys.step s e s' → I s')
    (step : ∀ s e s', I s → sys.step s e s' → (P s' ↔ P s ∧ meets s e))
    {past : List (σ × ε)} {s : σ} (h : sys.Run past s) : P s ↔ ∀ p ∈ past, meets p.1 p.2 := by
  induction h with
  | start h => exact iff_of_true (init _ h).2 (fun _ hp => nomatch hp)
  | @next s s' e past before hs ih =>
    have hinv : I s := before.invariant (fun s h => (init s h).1) inv
    simp only [List.forall_mem_append, List.forall_mem_singleton]
    rw [step s e s' hinv hs, ih]

/-- One state leads to another by some steps. -/
inductive System.Leads {σ ε : Type} (sys : System σ ε) : σ → σ → Prop where
  | refl (s : σ) : Leads sys s s
  | head {s t u : σ} {e : ε} (step : sys.step s e t) (rest : Leads sys t u) : Leads sys s u

/-- A property every step keeps is kept all the way. -/
theorem System.Leads.keeps {σ ε : Type} {sys : System σ ε} {I : σ → Prop}
    (step : ∀ s e s', I s → sys.step s e s' → I s') {s t : σ} (h : sys.Leads s t) (hi : I s) :
    I t := by
  induction h with
  | refl => exact hi
  | head hs _ ih => exact ih (step _ _ _ hi hs)

/-- The part of a system that runs under some of its events. -/
def System.only {σ ε : Type} (sys : System σ ε) (allowed : ε → Prop) : System σ ε where
  init := sys.init
  step s e s' := allowed e ∧ sys.step s e s'

/-- The part of a system whose steps meet a condition on the state before the
step and the event. -/
def System.under {σ ε : Type} (sys : System σ ε) (meets : σ → ε → Prop) : System σ ε where
  init := sys.init
  step s e s' := meets s e ∧ sys.step s e s'

/-- Whatever steps are taken, the goal comes: no sequence of steps goes on for
ever or ends before it. -/
inductive System.Comes {σ ε : Type} (sys : System σ ε) (goal : σ → Prop) : σ → Prop where
  | here {s : σ} (h : goal s) : Comes sys goal s
  | next {s : σ} (moves : ∃ e s', sys.step s e s')
      (all : ∀ e s', sys.step s e s' → Comes sys goal s') : Comes sys goal s

/-- When every step keeps an invariant and leaves less work, and only the goal
is a place to stop, the goal comes from every state of the invariant. -/
theorem System.comes {σ ε : Type} {sys : System σ ε} {I goal : σ → Prop} (work : σ → Nat)
    (step : ∀ s e s', I s → sys.step s e s' → I s' ∧ work s' < work s)
    (moves : ∀ s, I s → ¬ goal s → ∃ e s', sys.step s e s') {s : σ} (h : I s) :
    sys.Comes goal s := by
  generalize hn : work s = n
  induction n using Nat.strongRecOn generalizing s with
  | ind n ih =>
    by_cases hgoal : goal s
    · exact .here hgoal
    · refine .next (moves s h hgoal) fun e s' hs => ?_
      obtain ⟨hi, hless⟩ := step s e s' h hs
      exact ih (work s') (hn ▸ hless) hi rfl

/-- A run whose steps are matched by steps of another system, or by none, is a
run of that system with their labels. -/
theorem System.Run.simulated {σ ε α β : Type} {sys : System σ ε} {abs : System α β}
    {R : σ → α → Prop} {label : σ × ε → Option β}
    (init : ∀ s, sys.init s → ∃ a, abs.init a ∧ R s a)
    (silent : ∀ s e s' a, R s a → sys.step s e s' → label (s, e) = none → R s' a)
    (visible : ∀ s e s' a b, R s a → sys.step s e s' → label (s, e) = some b →
      ∃ a', abs.step a b a' ∧ R s' a')
    {past : List (σ × ε)} {s : σ} (h : sys.Run past s) :
    ∃ past' a, abs.Run past' a ∧ R s a ∧ past'.map Prod.snd = past.filterMap label := by
  induction h with
  | start h =>
    obtain ⟨a, ha, hr⟩ := init _ h
    exact ⟨[], a, .start ha, hr, rfl⟩
  | @next s s' e past before hs ih =>
    obtain ⟨past', a, hrun, hr, hevents⟩ := ih
    rw [List.filterMap_append, ← hevents]
    cases hlabel : label (s, e) with
    | none => exact ⟨past', a, hrun, silent s e s' a hr hs hlabel, by simp [hlabel]⟩
    | some b =>
      obtain ⟨a', ha, hr'⟩ := visible s e s' a b hr hs hlabel
      exact ⟨past' ++ [(a, b)], a', .next hrun ha, hr', by simp [hlabel]⟩

end CkCore.Lib
