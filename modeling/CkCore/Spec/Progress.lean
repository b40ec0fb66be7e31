import CkCore.Model.Progress

namespace CkCore
open Lib

section
variable {τ π : Type}

/-- A sink whose writes fail or answer with no more than the count. -/
def Counts (out : OutStream τ) : Prop :=
  ∀ t data, ∃ (r : Int) (t' : τ), out.write t data = .ok (r, t') ∧
    (r = -1 ∨ 0 ≤ r ∧ r ≤ data.length)

theorem Consumes.counts {out : OutStream τ} {consumed : τ → List Byte}
    (h : Consumes out consumed) : Counts out := by
  intro t data
  rcases h t data with ⟨t', hw⟩ | ⟨k, t', hk, hw, _⟩
  · exact ⟨-1, t', hw, Or.inl rfl⟩
  · exact ⟨k, t', hw, Or.inr ⟨Int.natCast_nonneg k, by omega⟩⟩

theorem AcceptsAll.counts {out : OutStream τ} {received : τ → List Byte}
    (h : AcceptsAll out received) : Counts out := by
  intro t data
  obtain ⟨t', hw, _⟩ := h t data
  exact ⟨data.length, t', hw, Or.inr ⟨Int.natCast_nonneg _, Int.le_refl _⟩⟩

/-- A Progress object together with the percentages it has been given. -/
def Progress.recorded (progress : Progress π) : Progress (π × List Byte) where
  setMarquee p enable := (progress.setMarquee p.1 enable, p.2)
  setProgress p percent := (progress.setProgress p.1 percent, p.2 ++ [percent])
  cancelled p :=
    let (cancelled, q) := progress.cancelled p.1
    (cancelled, (q, p.2))

/-- Percentages that never decrease and never exceed 100. -/
structure Rising (percents : List Byte) : Prop where
  ordered : percents.Pairwise (· ≤ ·)
  most : ∀ percent ∈ percents, percent ≤ 100

theorem Rising.none : Rising [] := ⟨.nil, nofun⟩

/-- A percentage no smaller than those in front of it goes behind them. -/
theorem Rising.snoc {percents : List Byte} {percent : Byte} (h : Rising percents)
    (hle : ∀ past ∈ percents, past ≤ percent) (hmost : percent ≤ 100) :
    Rising (percents ++ [percent]) := by
  refine ⟨List.pairwise_append.mpr ⟨h.ordered, List.pairwise_singleton _ _, ?_⟩, ?_⟩
  · intro past hpast last hlast
    rw [List.mem_singleton.mp hlast]
    exact hle past hpast
  · exact List.forall_mem_append.mpr ⟨h.most, List.forall_mem_singleton.mpr hmost⟩

end

end CkCore
