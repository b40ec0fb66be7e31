namespace CkCore.Lib

/-- The two ways a modelled computation can fail to return: the loop bound of
the model ran out, or a copy left the array it works on. -/
inductive Fault where
  | outOfFuel
  | outOfBounds
deriving DecidableEq, Repr

/-- One pass over a loop body either goes round again or leaves the loop. -/
inductive Pass (σ ρ : Type) where
  | again (s : σ)
  | leave (r : ρ)

/-- A loop whose number of passes is bounded by the fuel only. -/
def loop {σ ρ : Type} (body : σ → Except Fault (Pass σ ρ)) : Nat → σ → Except Fault ρ
  | 0, _ => .error .outOfFuel
  | n + 1, s =>
    match body s with
    | .error e => .error e
    | .ok (.again s') => loop body n s'
    | .ok (.leave r) => .ok r

/-- The second state comes after some passes that went round again. -/
inductive Passes {σ ρ : Type} (body : σ → Except Fault (Pass σ ρ)) : σ → σ → Prop where
  | here (s : σ) : Passes body s s
  | again {s s' s'' : σ} (head : body s = .ok (.again s')) (tail : Passes body s' s'') :
      Passes body s s''

section
variable {σ ρ : Type} {body : σ → Except Fault (Pass σ ρ)}

theorem loop_again {n : Nat} {s s' : σ} (h : body s = .ok (.again s')) :
    loop body (n + 1) s = loop body n s' := by
  simp [loop, h]

theorem loop_leave {n : Nat} {s : σ} {r : ρ} (h : body s = .ok (.leave r)) :
    loop body (n + 1) s = .ok r := by
  simp [loop, h]

theorem loop_fails {n : Nat} {s : σ} {e : Fault} (h : body s = .error e) :
    loop body (n + 1) s = .error e := by
  simp [loop, h]

/-- With fuel left the loop makes its next pass. -/
theorem loop_next {n : Nat} (hn : 0 < n) {s s' : σ} (h : body s = .ok (.again s')) :
    loop body n s = loop body (n - 1) s' := by
  obtain ⟨m, rfl⟩ : ∃ m, n = m + 1 := ⟨n - 1, by omega⟩
  exact loop_again h

theorem loop_last {n : Nat} (hn : 0 < n) {s : σ} {r : ρ} (h : body s = .ok (.leave r)) :
    loop body n s = .ok r := by
  obtain ⟨m, rfl⟩ : ∃ m, n = m + 1 := ⟨n - 1, by omega⟩
  exact loop_leave h

/-- A returned loop made a first pass, and what that pass did. -/
theorem loop_ok {n : Nat} {s : σ} {r : ρ} (h : loop body n s = .ok r) :
    ∃ m, n = m + 1 ∧ (body s = .ok (.leave r) ∨
      ∃ s', body s = .ok (.again s') ∧ loop body m s' = .ok r) := by
  cases n with
  | zero => cases h
  | succ m =>
    refine ⟨m, rfl, ?_⟩
    cases hb : body s with
    | error e => simp [loop, hb] at h
    | ok p =>
      cases p with
      | again s' =>
        rw [loop_again hb] at h
        exact Or.inr ⟨s', rfl, h⟩
      | leave r' =>
        rw [loop_leave hb] at h
        cases h
        exact Or.inl rfl

/-- An invariant of the passes holds wherever they lead. -/
theorem Passes.invariant {P : σ → Prop}
    (pass : ∀ s s', P s → body s = .ok (.again s') → P s') {s s' : σ} (h : Passes body s s')
    (hs : P s) : P s' := by
  induction h with
  | here s => exact hs
  | again head tail ih => exact ih (pass _ _ hs head)

/-- A returned loop left at the end of some passes. -/
theorem loop_passes {n : Nat} {s : σ} {r : ρ} (h : loop body n s = .ok r) :
    ∃ s', Passes body s s' ∧ body s' = .ok (.leave r) := by
  induction n generalizing s with
  | zero => cases h
  | succ n ih =>
    obtain ⟨m, hm, hl | ⟨s', hb, hl⟩⟩ := loop_ok h
    · exact ⟨s, .here s, hl⟩
    · cases hm
      obtain ⟨s'', hp, hl⟩ := ih hl
      exact ⟨s'', .again hb hp, hl⟩

/-- A loop that returned returns the same with more fuel, and with any body
that agrees wherever the first one succeeds. -/
theorem loop_mono_body {body' : σ → Except Fault (Pass σ ρ)}
    (agree : ∀ s p, body s = .ok p → body' s = .ok p) {m n : Nat} {s : σ} {r : ρ}
    (h : loop body m s = .ok r) (hmn : m ≤ n) : loop body' n s = .ok r := by
  induction m generalizing n s with
  | zero => cases h
  | succ m ih =>
    obtain ⟨k, rfl⟩ : ∃ k, n = k + 1 := ⟨n - 1, by omega⟩
    obtain ⟨m', hm, hl | ⟨s', hb, hl⟩⟩ := loop_ok h
    · exact loop_leave (agree _ _ hl)
    · cases hm
      rw [loop_again (agree _ _ hb)]
      exact ih hl (by omega)

/-- More fuel does not change what a loop returned. -/
theorem loop_mono {m n : Nat} {s : σ} {r : ρ} (h : loop body m s = .ok r) (hmn : m ≤ n) :
    loop body n s = .ok r :=
  loop_mono_body (fun _ _ hb => hb) h hmn

/-- A loop whose every pass goes round again and keeps the invariant never returns. -/
theorem loop_diverges {P : σ → Prop}
    (pass : ∀ s, P s → ∃ s', body s = .ok (.again s') ∧ P s') {s : σ} (hs : P s) (n : Nat) :
    loop body n s = .error .outOfFuel := by
  induction n generalizing s with
  | zero => rfl
  | succ n ih =>
    obtain ⟨s', hb, hs'⟩ := pass s hs
    rw [loop_again hb]
    exact ih hs'

/-- With enough fuel the loop returns. -/
def Returns (body : σ → Except Fault (Pass σ ρ)) (s : σ) : Prop :=
  ∃ fuel r, loop body fuel s = .ok r

theorem returns_leave {s : σ} {r : ρ} (h : body s = .ok (.leave r)) : Returns body s :=
  ⟨1, r, loop_leave h⟩

theorem returns_again {s s' : σ} (h : body s = .ok (.again s')) (hs : Returns body s') :
    Returns body s := by
  obtain ⟨fuel, r, hloop⟩ := hs
  exact ⟨fuel + 1, r, (loop_again h).trans hloop⟩

/-- Partial correctness: when every pass keeps the invariant or leaves with a
good result, the loop has no other result and no other fault. -/
theorem loop_partial {P : σ → Prop} {Q : ρ → Prop}
    (pass : ∀ s, P s →
      (∃ s', body s = .ok (.again s') ∧ P s') ∨ ∃ r, body s = .ok (.leave r) ∧ Q r)
    {s : σ} (hs : P s) (n : Nat) :
    loop body n s = .error .outOfFuel ∨ ∃ r, loop body n s = .ok r ∧ Q r := by
  induction n generalizing s with
  | zero => exact Or.inl rfl
  | succ n ih =>
    rcases pass s hs with ⟨s', hb, hs'⟩ | ⟨r, hb, hq⟩
    · rw [loop_again hb]
      exact ih hs'
    · exact Or.inr ⟨r, loop_leave hb, hq⟩

/-- Total correctness: when every pass keeps the invariant and decreases the
variant, enough fuel makes the loop return. -/
theorem loop_total {P : σ → Prop} {Q : ρ → Prop} (variant : σ → Nat)
    (pass : ∀ s, P s →
      (∃ s', body s = .ok (.again s') ∧ P s' ∧ variant s' < variant s) ∨
      ∃ r, body s = .ok (.leave r) ∧ Q r)
    (n : Nat) (s : σ) (hs : P s) (hn : variant s < n) :
    ∃ r, loop body n s = .ok r ∧ Q r := by
  induction n generalizing s with
  | zero => omega
  | succ n ih =>
    rcases pass s hs with ⟨s', hb, hs', hv⟩ | ⟨r, hb, hq⟩
    · rw [loop_again hb]
      exact ih s' hs' (by omega)
    · exact ⟨r, loop_leave hb, hq⟩

/-- Two loops in lockstep: when related states go round together or leave
together, and going round decreases the variant, both loops return. -/
theorem loop_lockstep {σ' ρ' : Type} {body' : σ' → Except Fault (Pass σ' ρ')}
    {R : σ → σ' → Prop} {Q : ρ → ρ' → Prop} (variant : σ → Nat)
    (pass : ∀ s s', R s s' →
      (∃ t t', body s = .ok (.again t) ∧ body' s' = .ok (.again t') ∧ R t t' ∧
        variant t < variant s) ∨
      ∃ r r', body s = .ok (.leave r) ∧ body' s' = .ok (.leave r') ∧ Q r r')
    (n : Nat) (s : σ) (s' : σ') (hs : R s s') (hn : variant s < n) :
    ∃ r r', loop body n s = .ok r ∧ loop body' n s' = .ok r' ∧ Q r r' := by
  induction n generalizing s s' with
  | zero => omega
  | succ n ih =>
    rcases pass s s' hs with ⟨t, t', hb, hb', ht, hv⟩ | ⟨r, r', hb, hb', hq⟩
    · rw [loop_again hb, loop_again hb']
      exact ih t t' ht (by omega)
    · exact ⟨r, r', loop_leave hb, loop_leave hb', hq⟩

end

end CkCore.Lib
