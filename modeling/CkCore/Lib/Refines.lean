import CkCore.Lib.Memory

namespace CkCore.Lib

section
variable {α β γ δ : Type}

/-- Whenever the first computation returns, so does the second, with a related
result. A failure of the first promises nothing. -/
def Refines (Q : α → β → Prop) (x : Except Fault α) (y : Except Fault β) : Prop :=
  ∀ a, x = .ok a → ∃ b, y = .ok b ∧ Q a b

variable {Q : α → β → Prop} {x : Except Fault α} {y : Except Fault β}

theorem refines_ok {a : α} {b : β} (h : Q a b) : Refines Q (.ok a) (.ok b) := by
  intro a' ha
  cases ha
  exact ⟨b, rfl, h⟩

theorem refines_error {e : Fault} : Refines Q (.error e) y := fun _ h => nomatch h

/-- A computation that both sides make in the same way. -/
theorem refines_same (x : Except Fault α) : Refines Eq x x := fun a h => ⟨a, h, rfl⟩

theorem refines_known (x : Except Fault α) : Refines (fun a b => a = b ∧ x = .ok a) x x :=
  fun a h => ⟨a, h, rfl, h⟩

theorem Refines.bind {S : γ → δ → Prop} {f : α → Except Fault γ} {g : β → Except Fault δ}
    (h : Refines Q x y) (hf : ∀ a b, Q a b → Refines S (f a) (g b)) :
    Refines S (x >>= f) (y >>= g) := by
  intro c hc
  obtain ⟨a, hx, hfa⟩ := bind_ok hc
  obtain ⟨b, hy, hab⟩ := h a hx
  rw [hy]
  exact hf a b hab c hfa

/-- Refinements compose along the composition of their relations. -/
theorem Refines.trans {z : Except Fault γ} {S : β → γ → Prop} (h : Refines Q x y)
    (h' : Refines S y z) : Refines (fun a c => ∃ b, Q a b ∧ S b c) x z := by
  intro a ha
  obtain ⟨b, hb, hab⟩ := h a ha
  obtain ⟨c, hc, hbc⟩ := h' b hb
  exact ⟨c, hc, b, hab, hbc⟩

theorem Refines.mono {S : α → β → Prop} (h : Refines Q x y) (hqs : ∀ a b, Q a b → S a b) :
    Refines S x y := by
  intro a ha
  obtain ⟨b, hb, hab⟩ := h a ha
  exact ⟨b, hb, hqs a b hab⟩

/-- Both sides answer alike and leave related states. -/
def Alike {σ τ : Type} (R : σ → τ → Prop) (p : α × σ) (q : α × τ) : Prop :=
  p.1 = q.1 ∧ R p.2 q.2

/-- Two passes that go round together, or leave together. -/
inductive Goes {σ τ : Type} (R : σ → τ → Prop) (Q : α → β → Prop) :
    Pass σ α → Pass τ β → Prop where
  | again {s : σ} {t : τ} (related : R s t) : Goes R Q (.again s) (.again t)
  | leave {a : α} {b : β} (related : Q a b) : Goes R Q (.leave a) (.leave b)

/-- Loops refine each other when their passes do. -/
theorem refines_loop {σ τ : Type} {R : σ → τ → Prop} {body : σ → Except Fault (Pass σ α)}
    {body' : τ → Except Fault (Pass τ β)}
    (pass : ∀ s t, R s t → Refines (Goes R Q) (body s) (body' t)) (n : Nat) {s : σ} {t : τ}
    (h : R s t) : Refines Q (loop body n s) (loop body' n t) := by
  induction n generalizing s t with
  | zero => exact refines_error
  | succ n ih =>
    intro a ha
    obtain ⟨m, hm, hl | ⟨s', hb, hl⟩⟩ := loop_ok ha
    · obtain ⟨p, hp, hg⟩ := pass s t h _ hl
      cases hg with
      | leave hab => exact ⟨_, loop_leave hp, hab⟩
    · cases hm
      obtain ⟨p, hp, hg⟩ := pass s t h _ hb
      cases hg with
      | again hst =>
        rw [loop_again hp]
        exact ih hst a hl

end

end CkCore.Lib
