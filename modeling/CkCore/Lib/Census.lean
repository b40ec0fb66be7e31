namespace CkCore.Lib

section
variable {α : Type} {p q : α → Bool} {xs : List α} {i : Nat} {x : α}

/-- Replacing one cell moves the count by what the old and the new cell are
worth. -/
theorem census_set (p : α → Bool) (h : xs[i]? = some x) (y : α) :
    (xs.set i y).countP p + (p x).toNat = xs.countP p + (p y).toNat := by
  induction xs generalizing i with
  | nil => cases h
  | cons z xs ih =>
    cases i with
    | zero =>
      cases h
      simp only [List.set_cons_zero, List.countP_cons]
      cases p x <;> cases p y <;> simp
    | succ i =>
      have hi := ih (i := i) h
      simp only [List.set_cons_succ, List.countP_cons]
      omega

/-- Replacing a cell by one worth the same keeps the count. -/
theorem census_same (p : α → Bool) (h : xs[i]? = some x) {y : α} (hy : p y = p x) :
    (xs.set i y).countP p = xs.countP p := by
  have := census_set p h y
  rw [hy] at this
  omega

/-- A cell that counts is there to be counted. -/
theorem census_pos (h : xs[i]? = some x) (hx : p x = true) : 0 < xs.countP p :=
  List.countP_pos_iff.mpr ⟨x, List.mem_of_getElem? h, hx⟩

theorem census_append (p : α → Bool) (xs : List α) (y : α) :
    (xs ++ [y]).countP p = xs.countP p + (p y).toNat := by
  rw [List.countP_append, List.countP_singleton]
  cases p y <;> rfl

/-- Properties no cell has together share the cells among them. -/
theorem census_disjoint (h : ∀ x, ¬ (p x = true ∧ q x = true)) (xs : List α) :
    xs.countP p + xs.countP q = xs.countP (fun x => p x || q x) := by
  induction xs with
  | nil => rfl
  | cons x xs ih =>
    have hx := h x
    simp only [List.countP_cons]
    cases hp : p x <;> cases hq : q x <;> simp_all <;> omega

end

section
variable {α β : Type} {f : α → β} {xs : List α} {i j : Nat} {x y z : α}

/-- With one cell replaced, each cell is the new one or one of the others. -/
theorem cell_set (hx : xs[i]? = some x) (hz : (xs.set i y)[j]? = some z) :
    (j = i ∧ z = y) ∨ (j ≠ i ∧ xs[j]? = some z) := by
  by_cases hj : j = i
  · subst hj
    rw [List.getElem?_set_self (List.getElem?_eq_some_iff.mp hx).1] at hz
    exact Or.inl ⟨rfl, (Option.some.inj hz).symm⟩
  · rw [List.getElem?_set_ne fun he => hj he.symm] at hz
    exact Or.inr ⟨hj, hz⟩

/-- A cell that does not change its value leaves the list of the values alone. -/
theorem map_set_same (hx : xs[i]? = some x) (hy : f y = f x) : (xs.set i y).map f = xs.map f := by
  obtain ⟨hlt, hget⟩ := List.getElem?_eq_some_iff.mp hx
  have hsame : xs.map f = (xs.set i xs[i]).map f := by rw [List.set_getElem_self]
  rw [hsame, List.map_set, List.map_set, hget, hy]

/-- Cells whose values are distinct are known by their values. -/
theorem same_cell (hd : (xs.map f).Nodup) (hx : xs[i]? = some x) (hy : xs[j]? = some y)
    (he : f x = f y) : i = j := by
  have hlt : i < (xs.map f).length := by
    rw [List.length_map]
    exact (List.getElem?_eq_some_iff.mp hx).1
  apply (List.getElem?_inj hlt hd).mp
  rw [List.getElem?_map, List.getElem?_map, hx, hy, Option.map_some, Option.map_some, he]

end

/-- What the cells weigh together. -/
def weight {α : Type} (f : α → Nat) : List α → Nat
  | [] => 0
  | x :: xs => f x + weight f xs

section
variable {α : Type} {f : α → Nat} {xs : List α} {i n : Nat} {x : α}

theorem weight_set (f : α → Nat) (h : xs[i]? = some x) (y : α) :
    weight f (xs.set i y) + f x = weight f xs + f y := by
  induction xs generalizing i with
  | nil => cases h
  | cons z xs ih =>
    cases i with
    | zero =>
      cases h
      simp only [List.set_cons_zero, weight]
      omega
    | succ i =>
      have hi := ih (i := i) h
      simp only [List.set_cons_succ, weight]
      omega

theorem weight_eraseIdx (f : α → Nat) (h : xs[i]? = some x) :
    weight f (xs.eraseIdx i) + f x = weight f xs := by
  induction xs generalizing i with
  | nil => cases h
  | cons z xs ih =>
    cases i with
    | zero =>
      cases h
      simp only [List.eraseIdx_cons_zero, weight]
      omega
    | succ i =>
      have hi := ih (i := i) h
      simp only [List.eraseIdx_cons_succ, weight]
      omega

theorem weight_append (f : α → Nat) (xs : List α) (y : α) :
    weight f (xs ++ [y]) = weight f xs + f y := by
  induction xs with
  | nil => simp [weight]
  | cons x xs ih =>
    simp only [List.cons_append, weight, ih]
    omega

theorem weight_map {g : α → α} (h : ∀ x ∈ xs, f (g x) = f x) :
    weight f (xs.map g) = weight f xs := by
  induction xs with
  | nil => rfl
  | cons x xs ih =>
    rw [List.map_cons, weight, weight, h x List.mem_cons_self,
      ih fun y hy => h y (List.mem_cons_of_mem _ hy)]

theorem weight_mem (f : α → Nat) (h : x ∈ xs) : f x ≤ weight f xs := by
  induction h with
  | head => exact Nat.le_add_right _ _
  | tail _ _ ih => exact Nat.le_trans ih (Nat.le_add_left _ _)

theorem weight_zero (h : ∀ x ∈ xs, f x = 0) : weight f xs = 0 := by
  induction xs with
  | nil => rfl
  | cons x xs ih =>
    rw [weight, h x List.mem_cons_self, ih fun y hy => h y (List.mem_cons_of_mem _ hy)]

/-- Cells that weigh the same or nothing weigh as much as they are many. -/
theorem weight_count (p : α → Bool) (h : ∀ x ∈ xs, f x = if p x then n else 0) :
    weight f xs = xs.countP p * n := by
  induction xs with
  | nil => exact (Nat.zero_mul n).symm
  | cons x xs ih =>
    rw [weight, h x List.mem_cons_self, ih fun y hy => h y (List.mem_cons_of_mem _ hy),
      List.countP_cons, Nat.add_mul]
    cases p x <;> simp [Nat.add_comm]

end

end CkCore.Lib
