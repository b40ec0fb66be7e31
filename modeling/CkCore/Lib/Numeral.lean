import Mathlib.Data.Nat.Digits.Lemmas

namespace CkCore.Lib

/-- What digits read back as, the first one weighing most. -/
def valueOf (b : Nat) (ds : List Nat) : Nat := ds.foldl (fun n d => b * n + d) 0

/-- The digits of a number in the base, with no zero in front except for zero
itself. -/
structure IsNumeral (b n : Nat) (ds : List Nat) : Prop where
  nonempty : ds ≠ []
  small : ∀ d ∈ ds, d < b
  leading : ds.head? = some 0 → ds = [0]
  value : valueOf b ds = n

def numeral (b n : Nat) : List Nat := if n = 0 then [0] else (Nat.digits b n).reverse

section
variable {b n : Nat} {ds : List Nat}

theorem valueOf_append (ds : List Nat) (d : Nat) :
    valueOf b (ds ++ [d]) = b * valueOf b ds + d := by
  simp only [valueOf, List.foldl_append, List.foldl_cons, List.foldl_nil]

theorem valueOf_reverse (ds : List Nat) : valueOf b ds.reverse = Nat.ofDigits b ds := by
  induction ds with
  | nil => rfl
  | cons d ds ih =>
    rw [List.reverse_cons, valueOf_append, ih, Nat.ofDigits_cons, Nat.add_comm]

theorem numeral_isNumeral (hb : 1 < b) (n : Nat) : IsNumeral b n (numeral b n) := by
  unfold numeral
  by_cases hn : n = 0
  · rw [if_pos hn, hn]
    refine ⟨List.cons_ne_nil _ _, ?_, fun _ => rfl, rfl⟩
    intro d hd
    rw [List.mem_singleton.mp hd]
    omega
  · rw [if_neg hn]
    have hsome : Nat.digits b n ≠ [] := Nat.digits_ne_nil_iff_ne_zero.mpr hn
    refine ⟨by simpa using hsome, ?_, ?_, ?_⟩
    · intro d hd
      exact Nat.digits_lt_base hb (List.mem_reverse.mp hd)
    · intro hzero
      rw [List.head?_reverse, List.getLast?_eq_some_getLast hsome] at hzero
      exact absurd (Option.some.inj hzero) (Nat.getLast_digit_ne_zero b hn)
    · rw [valueOf_reverse, Nat.ofDigits_digits]

/-- A number has one numeral only. -/
theorem IsNumeral.unique (hb : 1 < b) (h : IsNumeral b n ds) : ds = numeral b n := by
  obtain ⟨hsome, hsmall, hleading, hvalue⟩ := h
  by_cases hzero : ds.head? = some 0
  · have hds := hleading hzero
    subst hds
    subst hvalue
    rfl
  · have hdigits : Nat.digits b (Nat.ofDigits b ds.reverse) = ds.reverse := by
      refine Nat.digits_ofDigits b hb ds.reverse ?_ ?_
      · intro d hd
        exact hsmall d (List.mem_reverse.mp hd)
      · intro hne
        rw [List.getLast_reverse]
        intro hhead
        exact hzero (by rw [List.head?_eq_some_head hsome, hhead])
    rw [← valueOf_reverse, List.reverse_reverse, hvalue] at hdigits
    have hn : n ≠ 0 := by
      rintro rfl
      rw [Nat.digits_zero] at hdigits
      exact hsome (List.reverse_eq_nil_iff.mp hdigits.symm)
    rw [numeral, if_neg hn, hdigits, List.reverse_reverse]

/-- A number below a power of the base has no more digits than that. -/
theorem numeral_length (hb : 1 < b) {k : Nat} (hk : 0 < k) (h : n < b ^ k) :
    (numeral b n).length ≤ k := by
  unfold numeral
  by_cases hn : n = 0
  · rw [if_pos hn]
    exact hk
  · rw [if_neg hn, List.length_reverse]
    exact (Nat.digits_length_le_iff hb n).mpr h

end

end CkCore.Lib
