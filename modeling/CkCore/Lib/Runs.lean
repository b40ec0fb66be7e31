import Mathlib.Data.List.Induction

namespace CkCore.Lib

variable {α : Type} {p : α → Bool}

/-- The runs of a sequence that a delimiter has closed, the empty ones left out. -/
def closedRuns (p : α → Bool) (xs : List α) : List (List α) :=
  (xs.splitOnP p).dropLast.filter fun run => !run.isEmpty

/-- The run behind the last delimiter. -/
def openRun (p : α → Bool) (xs : List α) : List α := (xs.splitOnP p).getLastD []

@[simp] theorem closedRuns_nil : closedRuns p [] = [] := rfl

@[simp] theorem openRun_nil : openRun p [] = [] := rfl

/-- The pieces a sequence is split into are the ones in front of its last
delimiter and the open one. -/
theorem splitOnP_open (xs : List α) :
    xs.splitOnP p = (xs.splitOnP p).dropLast ++ [openRun p xs] := by
  have hne := List.splitOnP_ne_nil p xs
  rw [openRun, List.getLastD_eq_getLast?, List.getLast?_eq_some_getLast hne]
  exact (List.dropLast_concat_getLast hne).symm

theorem splitOnP_delim (xs : List α) {c : α} (hc : p c = true) :
    (xs ++ [c]).splitOnP p = xs.splitOnP p ++ [[]] := by
  rw [List.splitOnP_append_cons xs [] hc, List.splitOnP_nil]

theorem splitOnP_extend (xs : List α) {c : α} (hc : p c = false) :
    (xs ++ [c]).splitOnP p = (xs.splitOnP p).dropLast ++ [openRun p xs ++ [c]] := by
  induction xs with
  | nil => simp [openRun, List.splitOnP_cons_eq_if_modifyHead, hc]
  | cons x xs ih =>
    have hopen := splitOnP_open (p := p) xs
    generalize (xs.splitOnP p).dropLast = front at hopen ih
    generalize openRun p xs = run at hopen ih
    rw [List.cons_append, List.splitOnP_cons_eq_if_modifyHead, ih]
    unfold openRun
    rw [List.splitOnP_cons_eq_if_modifyHead, hopen]
    cases p x <;> cases front <;> simp [List.dropLast_cons_of_ne_nil, List.getLast?_cons]

theorem closedRuns_delim (xs : List α) {c : α} (hc : p c = true) :
    closedRuns p (xs ++ [c]) =
      closedRuns p xs ++ if openRun p xs = [] then [] else [openRun p xs] := by
  unfold closedRuns
  rw [splitOnP_delim xs hc, List.dropLast_concat]
  conv => lhs; rw [splitOnP_open xs]
  rw [List.filter_append]
  congr 1
  cases openRun p xs <;> simp

theorem openRun_delim (xs : List α) {c : α} (hc : p c = true) : openRun p (xs ++ [c]) = [] := by
  simp [openRun, splitOnP_delim xs hc]

theorem closedRuns_extend (xs : List α) {c : α} (hc : p c = false) :
    closedRuns p (xs ++ [c]) = closedRuns p xs := by
  unfold closedRuns
  rw [splitOnP_extend xs hc, List.dropLast_concat]

theorem openRun_extend (xs : List α) {c : α} (hc : p c = false) :
    openRun p (xs ++ [c]) = openRun p xs ++ [c] := by
  conv => lhs; rw [openRun, splitOnP_extend xs hc]
  simp

/-- Every element but the delimiters is in a closed run or in the open one. -/
theorem runs_flatten (xs : List α) :
    (closedRuns p xs).flatten ++ openRun p xs = xs.filter fun c => !p c := by
  induction xs using List.reverseRecOn with
  | nil => rfl
  | append_singleton xs c ih =>
    rw [List.filter_append, ← ih]
    cases hc : p c with
    | true =>
      rw [closedRuns_delim xs hc, openRun_delim xs hc]
      split
      · next hopen => simp [hopen, hc]
      · simp [hc]
    | false =>
      rw [closedRuns_extend xs hc, openRun_extend xs hc]
      simp [hc]

/-- No run is open just when the last element, if there is one, is a delimiter. -/
theorem openRun_eq_nil_iff (xs : List α) : openRun p xs = [] ↔ ∀ c ∈ xs.getLast?, p c = true := by
  induction xs using List.reverseRecOn with
  | nil => simp
  | append_singleton xs c ih =>
    cases hc : p c with
    | true => simp [openRun_delim xs hc, hc]
    | false => simp [openRun_extend xs hc, hc]

end CkCore.Lib
