import CkCore.Spec.CommandLine

namespace CkCore.Proofs.CommandLine
open Lib Process CkCore.CommandLine

/-- What parse_cmd_line can give back: an argument without characters leaves no
trace. -/
def present (args : List (List Byte)) : List (List Byte) := args.filter fun arg => !arg.isEmpty

/-- Inside quotes every character but the quote itself is taken, spaces too. -/
theorem fold_inside {arg : List Byte} (hq : quote ∉ arg) (res : List (List Byte))
    (curArg : List Byte) :
    arg.foldl parsePass ⟨res, curArg, true⟩ = ⟨res, curArg ++ arg, true⟩ := by
  induction arg generalizing curArg with
  | nil => simp
  | cons c arg ih =>
    have hc : ¬ c = quote := fun he => hq (he ▸ List.mem_cons_self)
    have hrest : quote ∉ arg := fun he => hq (List.mem_cons_of_mem _ he)
    rw [List.foldl_cons]
    simp only [parsePass, hc, ↓reduceIte, Bool.true_eq_false, and_false]
    rw [ih hrest, List.append_assoc, List.singleton_append]

theorem fold_quoted {arg : List Byte} (hq : quote ∉ arg) (res : List (List Byte)) :
    (quoted arg).foldl parsePass ⟨res, [], false⟩ = ⟨res, arg, false⟩ := by
  rw [quoted, List.cons_append, List.foldl_cons, List.foldl_append]
  simp only [parsePass, ↓reduceIte, Bool.not_false]
  rw [fold_inside hq]
  simp [parsePass]

/-- Between two arguments the first space ends the one in front, and any more
change nothing. -/
theorem fold_gap {gap : Nat} (hgap : 0 < gap) (res : List (List Byte)) (arg : List Byte) :
    (List.replicate gap space).foldl parsePass ⟨res, arg, false⟩ =
      ⟨res ++ present [arg], [], false⟩ := by
  have hne : ¬ space = quote := by decide
  have hidle : ∀ n res,
      (List.replicate n space).foldl parsePass ⟨res, [], false⟩ = ⟨res, [], false⟩ := by
    intro n res
    induction n with
    | zero => rfl
    | succ n ih =>
      rw [List.replicate_succ, List.foldl_cons]
      simpa [parsePass, hne] using ih
  obtain ⟨n, rfl⟩ : ∃ n, gap = n + 1 := ⟨gap - 1, by omega⟩
  rw [List.replicate_succ, List.foldl_cons]
  cases arg with
  | nil => simpa [parsePass, hne, present] using hidle n res
  | cons c arg => simpa [parsePass, hne, present] using hidle n (res ++ [c :: arg])

theorem finish_last (res : List (List Byte)) (arg : List Byte) :
    Parsing.finish ⟨res, arg, false⟩ = res ++ present [arg] := by
  cases arg <;> simp [Parsing.finish, present]

/-- Reading a line back gives its arguments, but for the empty ones. -/
theorem fold_line {args : List (List Byte)} {line : List Byte} (h : Line args line)
    (hq : ∀ arg ∈ args, quote ∉ arg) (res : List (List Byte)) :
    (line.foldl parsePass ⟨res, [], false⟩).finish = res ++ present args := by
  induction h generalizing res with
  | empty => simp [Parsing.finish, present]
  | last arg => rw [fold_quoted (hq arg List.mem_cons_self), finish_last]
  | more arg apart rest ih =>
    rw [List.foldl_append, List.foldl_append, fold_quoted (hq arg List.mem_cons_self),
      fold_gap apart, ih fun arg harg => hq arg (List.mem_cons_of_mem _ harg), List.append_assoc]
    congr 1
    exact (List.filter_append [arg] _).symm

theorem parse_line {args : List (List Byte)} {line : List Byte} (h : Line args line)
    (hq : ∀ arg ∈ args, quote ∉ arg) : parseCmdLine line = present args := by
  rw [parseCmdLine, fold_line h hq, List.nil_append]

/-- The fixed array takes the first arguments, and no arguments are not passed on
at all. -/
theorem argList_eq (cmdLine : List Byte) :
    argList cmdLine = if parseCmdLine cmdLine = [] then none
      else some ((parseCmdLine cmdLine).take maxArgCount) := by
  unfold argList
  by_cases hnone : parseCmdLine cmdLine = []
  · simp [hnone]
  · have hpos := List.length_pos_iff.mpr hnone
    have hmax : 0 < maxArgCount := by decide
    simp only [hnone, ↓reduceIte]
    split
    · rw [if_neg (by omega)]
    · rw [if_neg (by omega), List.take_of_length_le (Nat.le_refl _),
        List.take_of_length_le (by omega)]

theorem present_all {args : List (List Byte)} (hne : ∀ arg ∈ args, arg ≠ []) :
    present args = args := by
  apply List.filter_eq_self.mpr
  intro arg harg
  simp [hne arg harg]

/-- Arguments that have any characters, but no quotes, survive being quoted and
put on a line, as many of them as the fixed array has room for. -/
theorem arguments_round_trip {args : List (List Byte)} {line : List Byte} (h : Line args line)
    (hq : ∀ arg ∈ args, quote ∉ arg) (hne : ∀ arg ∈ args, arg ≠ []) :
    argList line = if args = [] then none else some (args.take maxArgCount) := by
  rw [argList_eq, parse_line h hq, present_all hne]

/-- Two arguments, the second with a space in it, three spaces apart. -/
theorem arguments_round_trip_two :
    argList [34, 97, 34, 32, 32, 32, 34, 98, 32, 99, 34] = some [[97], [98, 32, 99]] :=
  arguments_round_trip
    (.more [97] (show 0 < 3 by decide) (.last [98, 32, 99])) (by decide) (by decide)

/-- Of 128 arguments the last one is not passed on. -/
theorem argument_128_is_cut_off :
    ∃ args cmdLine, Line args cmdLine ∧ (∀ arg ∈ args, quote ∉ arg) ∧
      argList cmdLine = some (args.take 127) ∧ argList cmdLine ≠ some args := by
  have hmem : ∀ arg ∈ List.replicate 128 ([97] : List Byte), arg = [97] :=
    fun _ harg => List.eq_of_mem_replicate harg
  have hq : ∀ arg ∈ List.replicate 128 ([97] : List Byte), quote ∉ arg := by
    intro arg harg
    rw [hmem arg harg]
    decide
  have hparse := parse_line (line_line (List.replicate 128 [97])) hq
  rw [present_all fun arg harg => by rw [hmem arg harg]; decide] at hparse
  have hlist : argList (line (List.replicate 128 [97])) =
      some ((List.replicate 128 [97]).take 127) := by
    rw [argList_eq, hparse]
    rfl
  refine ⟨List.replicate 128 [97], line (List.replicate 128 [97]), line_line _, hq, hlist, ?_⟩
  intro hall
  rw [hlist] at hall
  have hlength := congrArg List.length (Option.some.inj hall)
  simp at hlength

section
variable {p : Parsing} {c : Byte} {s t cmdLine : List Byte}

/-- The same parse with arguments in front of those it has pushed. -/
def behind (res : List (List Byte)) (p : Parsing) : Parsing := { p with res := res ++ p.res }

theorem parsePass_behind (res : List (List Byte)) (p : Parsing) (c : Byte) :
    parsePass (behind res p) c = behind res (parsePass p c) := by
  unfold parsePass behind
  split
  · rfl
  · split
    · split
      · simp only [List.append_assoc]
      · rfl
    · rfl

/-- Arguments already pushed have no say in what follows. -/
theorem fold_behind (res : List (List Byte)) (p : Parsing) (cmdLine : List Byte) :
    cmdLine.foldl parsePass (behind res p) = behind res (cmdLine.foldl parsePass p) := by
  induction cmdLine generalizing p with
  | nil => rfl
  | cons c rest ih => rw [List.foldl_cons, List.foldl_cons, parsePass_behind, ih]

theorem finish_behind (res : List (List Byte)) (p : Parsing) :
    (behind res p).finish = res ++ p.finish := by
  unfold Parsing.finish behind
  split
  · exact List.append_assoc _ _ _
  · rfl

theorem parsePass_inQuote (p : Parsing) (c : Byte) :
    (parsePass p c).inQuote = if c = quote then !p.inQuote else p.inQuote := by
  unfold parsePass
  split
  · rfl
  · split
    · split
      · rfl
      · rfl
    · rfl

/-- Only an even number of quotes leaves the flag as it was. -/
theorem fold_inQuote (p : Parsing) (cmdLine : List Byte) :
    (cmdLine.foldl parsePass p).inQuote =
      if cmdLine.count quote % 2 = 0 then p.inQuote else !p.inQuote := by
  induction cmdLine generalizing p with
  | nil => rfl
  | cons c rest ih =>
    rw [List.foldl_cons, ih, parsePass_inQuote, List.count_cons]
    by_cases hc : c = quote
    · by_cases heven : rest.count quote % 2 = 0
      · rw [if_pos heven, if_pos hc, if_neg (by simp [hc]; omega)]
      · rw [if_neg heven, if_pos hc, if_pos (by simp [hc]; omega), Bool.not_not]
    · simp [hc]

/-- Outside quotes a space ends the argument in front of it as the end of the
line does. -/
theorem parsePass_space (h : p.inQuote = false) :
    parsePass p space = behind p.finish ⟨[], [], false⟩ := by
  have hne : ¬ space = quote := by decide
  obtain ⟨res, curArg, inQuote⟩ := p
  dsimp only at h
  subst h
  cases curArg with
  | nil => simp [parsePass, behind, Parsing.finish, hne]
  | cons c rest => simp [parsePass, behind, Parsing.finish, hne]

/-- A space behind balanced quotes parts a line into two that are read alone. -/
theorem parse_append (h : s.count quote % 2 = 0) (t : List Byte) :
    parseCmdLine (s ++ [space] ++ t) = parseCmdLine s ++ parseCmdLine t := by
  have hquote : (s.foldl parsePass ⟨[], [], false⟩).inQuote = false := by
    rw [fold_inQuote, if_pos h]
  unfold parseCmdLine
  rw [List.foldl_append, List.foldl_append, List.foldl_cons, List.foldl_nil,
    parsePass_space hquote, fold_behind, finish_behind]

/-- No quote has been taken, and no argument without characters been pushed. -/
structure Clean (p : Parsing) : Prop where
  res : ∀ arg ∈ p.res, arg ≠ [] ∧ quote ∉ arg
  curArg : quote ∉ p.curArg

theorem Clean.push (h : Clean p) (hpos : p.curArg.length > 0) :
    ∀ arg ∈ p.res ++ [p.curArg], arg ≠ [] ∧ quote ∉ arg := by
  intro arg harg
  rcases List.mem_append.mp harg with hres | hlast
  · exact h.res arg hres
  · rw [List.mem_singleton.mp hlast]
    exact ⟨List.length_pos_iff.mp hpos, h.curArg⟩

theorem Clean.pass (h : Clean p) (c : Byte) : Clean (parsePass p c) := by
  unfold parsePass
  split
  · exact ⟨h.res, h.curArg⟩
  · next hc =>
    split
    · split
      · next hpos => exact ⟨h.push hpos, List.not_mem_nil⟩
      · exact h
    · refine ⟨h.res, ?_⟩
      intro hmem
      rcases List.mem_append.mp hmem with hcur | hlast
      · exact h.curArg hcur
      · exact hc (List.mem_singleton.mp hlast).symm

theorem Clean.fold (h : Clean p) (cmdLine : List Byte) : Clean (cmdLine.foldl parsePass p) := by
  induction cmdLine generalizing p with
  | nil => exact h
  | cons c rest ih => exact ih (h.pass c)

theorem Clean.finish (h : Clean p) : ∀ arg ∈ p.finish, arg ≠ [] ∧ quote ∉ arg := by
  unfold Parsing.finish
  split
  · next hpos => exact h.push hpos
  · exact h.res

theorem parse_clean (cmdLine : List Byte) :
    ∀ arg ∈ parseCmdLine cmdLine, arg ≠ [] ∧ quote ∉ arg := by
  have hstart : Clean ⟨[], [], false⟩ := ⟨nofun, List.not_mem_nil⟩
  exact (hstart.fold cmdLine).finish

/-- Behind balanced quotes a line is read on from anew, and whatever the line,
its arguments have characters and no quotes. -/
theorem parse_homomorphism (h : s.count quote % 2 = 0) (t cmdLine : List Byte) :
    parseCmdLine (s ++ [space] ++ t) = parseCmdLine s ++ parseCmdLine t ∧
      ∀ arg ∈ parseCmdLine cmdLine, arg ≠ [] ∧ quote ∉ arg :=
  ⟨parse_append h t, parse_clean cmdLine⟩

/-- In front of the space stands a quoted one, behind it a quote left open. -/
theorem parse_homomorphism_quoted :
    parseCmdLine ([34, 97, 32, 34] ++ [32] ++ [34, 98]) = [[97, 32], [98]] :=
  (parse_homomorphism (s := [34, 97, 32, 34]) (by decide) [34, 98] []).1

end

end CkCore.Proofs.CommandLine
