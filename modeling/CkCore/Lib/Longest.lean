import Mathlib.Data.List.Infix
import Mathlib.Data.List.Induction

namespace CkCore.Lib

section
variable {α β : Type} [DecidableEq α] {fallback : β} {table : List (List α × β)}
  {text other : List α}

/-- The longest prefix of a text in a table, by its value and its length; of
two that are as long the later one. -/
def longest (fallback : β) (table : List (List α × β)) (text : List α) : β × Nat :=
  (table.filter fun entry => decide (entry.1 <+: text)).foldl
    (fun best entry => if best.2 ≤ entry.1.length then (entry.2, entry.1.length) else best)
    (fallback, 0)

/-- The value and the length belong to an entry no other prefix exceeds, or no
entry is a prefix. -/
def IsLongest (fallback : β) (table : List (List α × β)) (text : List α) (best : β × Nat) : Prop :=
  (∃ entry ∈ table, entry.1 <+: text ∧ best = (entry.2, entry.1.length) ∧
    ∀ other ∈ table, other.1 <+: text → other.1.length ≤ entry.1.length) ∨
  (∀ entry ∈ table, ¬ entry.1 <+: text) ∧ best = (fallback, 0)

theorem longest_congr (h : ∀ entry ∈ table, (entry.1 <+: text ↔ entry.1 <+: other)) :
    longest fallback table text = longest fallback table other := by
  have hfilter : (table.filter fun entry => decide (entry.1 <+: text)) =
      table.filter fun entry => decide (entry.1 <+: other) := by
    apply List.filter_congr
    intro entry hentry
    rw [decide_eq_decide]
    exact h entry hentry
  unfold longest
  rw [hfilter]

theorem longest_miss (fallback : β) (table : List (List α × β)) {entries : List (List α × β)}
    (h : ∀ entry ∈ entries, ¬ entry.1 <+: text) :
    longest fallback (table ++ entries) text = longest fallback table text := by
  have hnone : (entries.filter fun entry => decide (entry.1 <+: text)) = [] := by
    rw [List.filter_eq_nil_iff]
    intro entry hentry
    simp [h entry hentry]
  unfold longest
  rw [List.filter_append, hnone, List.append_nil]

theorem longest_snoc (fallback : β) (table : List (List α × β)) {entry : List α × β}
    (h : entry.1 <+: text) :
    longest fallback (table ++ [entry]) text =
      if (longest fallback table text).2 ≤ entry.1.length then (entry.2, entry.1.length)
      else longest fallback table text := by
  have hentry : ([entry].filter fun entry => decide (entry.1 <+: text)) = [entry] := by simp [h]
  unfold longest
  rw [List.filter_append, hentry, List.foldl_append]
  rfl

/-- Entries no longer than a prefix of the text are its own prefixes as well. -/
theorem longest_of_prefix (fallback : β) (h : other <+: text)
    (hle : ∀ entry ∈ table, entry.1.length ≤ other.length) :
    longest fallback table text = longest fallback table other := by
  apply longest_congr
  intro entry hentry
  constructor
  · intro hp
    exact List.prefix_of_prefix_length_le hp h (hle entry hentry)
  · intro hp
    exact hp.trans h

/-- One more entry is either the longest prefix so far or changes nothing. -/
theorem IsLongest.snoc {best : β × Nat} (h : IsLongest fallback table text best)
    (entry : List α × β) :
    IsLongest fallback (table ++ [entry]) text
      (if entry.1 <+: text ∧ best.2 ≤ entry.1.length then (entry.2, entry.1.length)
        else best) := by
  have hlast : entry ∈ table ++ [entry] := List.mem_append_right _ (List.mem_singleton.mpr rfl)
  rcases h with ⟨top, htop, hp, rfl, hmax⟩ | ⟨hnone, rfl⟩
  · split
    · next h =>
      refine Or.inl ⟨entry, hlast, h.1, rfl, List.forall_mem_append.mpr ⟨?_, ?_⟩⟩
      · intro other hother hop
        exact Nat.le_trans (hmax other hother hop) h.2
      · exact List.forall_mem_singleton.mpr fun _ => Nat.le_refl _
    · next h =>
      refine Or.inl ⟨top, List.mem_append_left _ htop, hp, rfl, ?_⟩
      refine List.forall_mem_append.mpr ⟨hmax, List.forall_mem_singleton.mpr ?_⟩
      intro hentry
      have hlt := Nat.lt_of_not_le fun hle => h ⟨hentry, hle⟩
      exact Nat.le_of_lt hlt
  · by_cases hentry : entry.1 <+: text
    · rw [if_pos ⟨hentry, Nat.zero_le _⟩]
      refine Or.inl ⟨entry, hlast, hentry, rfl, List.forall_mem_append.mpr ⟨?_, ?_⟩⟩
      · intro other hother hop
        exact absurd hop (hnone other hother)
      · exact List.forall_mem_singleton.mpr fun _ => Nat.le_refl _
    · rw [if_neg fun h => hentry h.1]
      exact Or.inr ⟨List.forall_mem_append.mpr ⟨hnone, List.forall_mem_singleton.mpr hentry⟩, rfl⟩

theorem longest_isLongest (fallback : β) (table : List (List α × β)) (text : List α) :
    IsLongest fallback table text (longest fallback table text) := by
  induction table using List.reverseRecOn with
  | nil => exact Or.inr ⟨nofun, rfl⟩
  | append_singleton table entry ih =>
    have hsnoc := ih.snoc entry
    by_cases hp : entry.1 <+: text
    · rw [longest_snoc _ _ hp]
      simpa only [hp, true_and] using hsnoc
    · rw [longest_miss _ _ (List.forall_mem_singleton.mpr hp)]
      simpa only [hp, false_and, if_false] using hsnoc

end

end CkCore.Lib
