import CkCore.Spec.Progress
import CkCore.Spec.Sending

namespace CkCore
open Lib Copy

section
variable {σ τ : Type}

/-- A source that is dry after as many more reads as its rank at most: from then
on it delivers nothing. Nothing is said of its end. -/
structure Drains (src : InStream σ) (rank : σ → Nat) : Prop where
  flowing : ∀ s n, 0 < rank s → 0 < n →
    (∃ data s', src.read s n = .ok (⟨-1, data⟩, s') ∧ data.length ≤ n) ∨
    ∃ data s', src.read s n = .ok (⟨data.length, data⟩, s') ∧ data.length ≤ n ∧
      rank s' < rank s
  dry : ∀ s n, rank s = 0 → 0 < n → ∃ s', src.read s n = .ok (⟨0, []⟩, s') ∧ rank s' = 0

/-- Reading on from a dry source brings its end to be true, or writing what was
read, which is nothing, fails. -/
inductive Comes (src : InStream σ) (out : OutStream τ) (n : Nat) : σ → τ → Prop where
  | ended {s : σ} {t : τ} (last : src.end s = true) : Comes src out n s t
  | refused {s : σ} {t t' : τ} (refuses : out.write t [] = .ok (-1, t')) : Comes src out n s t
  | later {s s' : σ} {t t' : τ} (read : src.read s n = .ok (⟨0, []⟩, s'))
      (write : out.write t [] = .ok (0, t')) (rest : Comes src out n s' t') : Comes src out n s t

/-- The sink does not answer 0 for ever to writes of `n` zeros. -/
inductive Accepts (out : OutStream τ) (n : Nat) : τ → Prop where
  | moves {t t' : τ} {r : Int} (write : out.write t (List.replicate n 0) = .ok (r, t'))
      (some : r ≠ 0) : Accepts out n t
  | again {t t' : τ} (write : out.write t (List.replicate n 0) = .ok (0, t'))
      (rest : Accepts out n t') : Accepts out n t

/-- All six copies return, wherever the two streams stand. A trap ends the one
that reports percentages, too. -/
structure CopiesReturn (src : InStream σ) (out : OutStream τ) : Prop where
  copy : ∀ s t, ∃ fuel r, Copy.copy src out fuel s t = .ok r
  progress : ∀ (π : Type) (progress : Progress π) s t p,
    ∃ fuel r, copyProgress src out progress fuel s t p = .ok r
  progresser : ∀ (π : Type) (progresser : Progresser π) s t p,
    ∃ fuel r, copyProgresser src out progresser fuel s t p = .ok r
  sized : ∀ (π : Type) (progresser : Progresser π) s t p size, size < longWord →
    ∃ fuel r, copySized src out progresser fuel s t p size = .ok r
  canex : ∀ (π : Type) (progresser : Progresser π) ident ident' s t p,
    ∃ fuel r, Canexstream.copy ⟨src, ident⟩ ⟨out, ident'⟩ progresser fuel s t p = .ok r
  canexSized : ∀ (π : Type) (progresser : Progresser π) ident ident' s t p size,
    size < longWord →
    ∃ fuel r, Canexstream.copySized ⟨src, ident⟩ ⟨out, ident'⟩ progresser fuel s t p size = .ok r

end

end CkCore
