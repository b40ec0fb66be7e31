namespace CkCore.Lib

variable {α : Type}

/-- Strong induction on the length of a list. -/
theorem length_induction {P : List α → Prop}
    (step : ∀ xs, (∀ ys : List α, ys.length < xs.length → P ys) → P xs) (xs : List α) : P xs := by
  generalize hn : xs.length = n
  induction n using Nat.strongRecOn generalizing xs with
  | ind n ih =>
    apply step
    intro ys hy
    exact ih ys.length (by omega) ys rfl

/-- The full blocks of size `b` that leave a buffer of that size when `xs` is
pushed through it. A buffer that is just full keeps its block. -/
def spills (b : Nat) (xs : List α) : List (List α) :=
  if 0 < b ∧ b < xs.length then xs.take b :: spills b (xs.drop b) else []
termination_by xs.length
decreasing_by simp only [List.length_drop]; omega

/-- What stays in the buffer after the spills. -/
def kept (b : Nat) (xs : List α) : List α :=
  if 0 < b ∧ b < xs.length then kept b (xs.drop b) else xs
termination_by xs.length
decreasing_by simp only [List.length_drop]; omega

theorem spills_short {b : Nat} {xs : List α} (h : xs.length ≤ b) : spills b xs = [] := by
  rw [spills, if_neg (by omega)]

theorem kept_short {b : Nat} {xs : List α} (h : xs.length ≤ b) : kept b xs = xs := by
  rw [kept, if_neg (by omega)]

theorem spills_long {b : Nat} {xs : List α} (hb : 0 < b) (h : b < xs.length) :
    spills b xs = xs.take b :: spills b (xs.drop b) := by
  rw [spills, if_pos ⟨hb, h⟩]

theorem kept_long {b : Nat} {xs : List α} (hb : 0 < b) (h : b < xs.length) :
    kept b xs = kept b (xs.drop b) := by
  rw [kept, if_pos ⟨hb, h⟩]

/-- Pushing one full block through an empty buffer. -/
theorem spills_block {b : Nat} {xs ys : List α} (hb : 0 < b) (hx : xs.length = b)
    (hy : ys ≠ []) : spills b (xs ++ ys) = xs :: spills b ys := by
  have hl := List.length_pos_iff.mpr hy
  rw [spills_long hb (by simp only [List.length_append]; omega), ← hx, List.take_left,
    List.drop_left]

theorem kept_block {b : Nat} {xs ys : List α} (hb : 0 < b) (hx : xs.length = b)
    (hy : ys ≠ []) : kept b (xs ++ ys) = kept b ys := by
  have hl := List.length_pos_iff.mpr hy
  rw [kept_long hb (by simp only [List.length_append]; omega), ← hx, List.drop_left]

/-- Nothing is lost: the spills and what is kept are the input in order. -/
theorem spills_kept (b : Nat) (xs : List α) : (spills b xs).flatten ++ kept b xs = xs := by
  induction xs using length_induction with
  | step xs ih =>
    by_cases h : 0 < b ∧ b < xs.length
    · rw [spills_long h.1 h.2, kept_long h.1 h.2, List.flatten_cons, List.append_assoc,
        ih _ (by simp only [List.length_drop]; omega), List.take_append_drop]
    · rw [spills, if_neg h, kept, if_neg h]
      rfl

theorem spills_length (b : Nat) (xs : List α) : ∀ block ∈ spills b xs, block.length = b := by
  induction xs using length_induction with
  | step xs ih =>
    by_cases h : 0 < b ∧ b < xs.length
    · rw [spills_long h.1 h.2]
      intro block hm
      rcases List.mem_cons.mp hm with rfl | hm
      · simp only [List.length_take]
        omega
      · exact ih _ (by simp only [List.length_drop]; omega) block hm
    · rw [spills, if_neg h]
      simp

/-- Pushing data in two portions spills the same blocks as pushing it at once. -/
theorem spills_append {b : Nat} (xs ys : List α) :
    spills b (xs ++ ys) = spills b xs ++ spills b (kept b xs ++ ys) := by
  induction xs using length_induction with
  | step xs ih =>
    by_cases h : 0 < b ∧ b < xs.length
    · rw [spills_long h.1 h.2, kept_long h.1 h.2, List.cons_append,
        ← ih _ (by simp only [List.length_drop]; omega),
        spills_long h.1 (by simp only [List.length_append]; omega),
        List.take_append_of_le_length (by omega), List.drop_append_of_le_length (by omega)]
    · rw [show spills b xs = [] by rw [spills, if_neg h],
        show kept b xs = xs by rw [kept, if_neg h], List.nil_append]

end CkCore.Lib
