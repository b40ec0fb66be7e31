import CkCore.Lib.Crc
import Mathlib.Algebra.Polynomial.Div
import Mathlib.Algebra.Polynomial.Degree.Lemmas
import Mathlib.Algebra.Field.ZMod
import Mathlib.Algebra.CharP.Two
import Mathlib.Tactic.LinearCombination
import Mathlib.Data.List.Induction

namespace CkCore.Lib.Gf2
open Polynomial Crc

noncomputable section

variable {w : Nat}

/-- A bit as an element of the field with two elements. -/
def coefficient (b : Bool) : ZMod 2 := if b then 1 else 0

/-- The polynomial a register stands for: bit `i` is the coefficient of `X ^ i`. -/
def ofRegister (r : BitVec w) : (ZMod 2)[X] :=
  ∑ i ∈ Finset.range w, C (coefficient (r.getLsbD i)) * X ^ i

/-- The polynomial of a bit sequence, highest power first. -/
def ofBits (bits : List Bool) : (ZMod 2)[X] :=
  bits.foldl (fun p b => p * X + C (coefficient b)) 0

/-- The divisor a register of width `w` leaves its top coefficient out of. -/
def divisor (poly : BitVec w) : (ZMod 2)[X] := X ^ w + ofRegister poly

theorem coefficient_xor (a b : Bool) :
    coefficient (a ^^ b) = coefficient a + coefficient b := by
  cases a <;> cases b <;> decide

theorem ofRegister_coeff (r : BitVec w) (n : Nat) :
    (ofRegister r).coeff n = coefficient (r.getLsbD n) := by
  simp only [ofRegister, finsetSum_coeff, coeff_C_mul, coeff_X_pow]
  by_cases hn : n < w
  · rw [Finset.sum_eq_single n]
    · simp
    · intro i _ hi
      simp [Ne.symm hi]
    · intro hout
      exact absurd (Finset.mem_range.mpr hn) hout
  · rw [Finset.sum_eq_zero]
    · simp [BitVec.getLsbD_of_ge r n (by omega), coefficient]
    · intro i hi
      have := Finset.mem_range.mp hi
      have hne : ¬ n = i := by omega
      simp [hne]

theorem ofRegister_degree (r : BitVec w) : (ofRegister r).degree < w := by
  rw [degree_lt_iff_coeff_zero]
  intro n hn
  rw [ofRegister_coeff, BitVec.getLsbD_of_ge r n hn]
  rfl

theorem ofRegister_xor (a b : BitVec w) :
    ofRegister (a ^^^ b) = ofRegister a + ofRegister b := by
  ext n
  simp only [ofRegister_coeff, coeff_add, BitVec.getLsbD_xor, coefficient_xor]

/-- Moving a register left multiplies by `X`; the bit that falls out is the
coefficient that leaves. -/
theorem ofRegister_shift (r : BitVec w) :
    ofRegister (r <<< 1) + C (coefficient r.msb) * X ^ w = ofRegister r * X := by
  ext n
  cases n with
  | zero =>
    cases w with
    | zero => simp [ofRegister_coeff, BitVec.of_length_zero, coefficient]
    | succ w =>
      simp only [coeff_add, ofRegister_coeff, coeff_C_mul, coeff_X_pow, coeff_mul_X_zero]
      simp [coefficient]
  | succ n =>
    simp only [coeff_add, ofRegister_coeff, coeff_C_mul, coeff_X_pow, coeff_mul_X]
    rcases Nat.lt_trichotomy (n + 1) w with hlt | heq | hgt
    · have hne : ¬ n + 1 = w := by omega
      rw [BitVec.getLsbD_shiftLeft]
      simp [hlt, hne]
    · subst heq
      simp [BitVec.msb_eq_getLsbD_last, coefficient]
    · have hne : ¬ n + 1 = w := by omega
      have hout : ¬ n + 1 < w := by omega
      simp [hne, hout, BitVec.getLsbD_of_ge r n (by omega), coefficient]

theorem divisor_monic (poly : BitVec w) : (divisor poly).Monic :=
  monic_X_pow_add (ofRegister_degree poly)

theorem divisor_degree (poly : BitVec w) : (divisor poly).degree = w := by
  rw [divisor, degree_add_eq_left_of_degree_lt, degree_X_pow]
  rw [degree_X_pow]
  exact ofRegister_degree poly

/-- One step of long division: the bit enters at the top and a multiple of the
divisor is taken away. -/
theorem ofRegister_feed (poly r : BitVec w) (bit : Bool) :
    ofRegister (feed poly r bit) = ofRegister r * X + C (coefficient bit) * X ^ w +
      divisor poly * C (coefficient (r.msb ^^ bit)) := by
  have htwo : ∀ p : (ZMod 2)[X], p + p = 0 := CharTwo.add_self_eq_zero
  have hmoved : ofRegister (feed poly r bit) =
      ofRegister (r <<< 1) + C (coefficient (r.msb ^^ bit)) * ofRegister poly := by
    unfold feed
    split
    case isTrue h => rw [ofRegister_xor, h]; simp [coefficient]
    case isFalse h => simp [h, coefficient]
  rw [hmoved, ← ofRegister_shift r, coefficient_xor, C_add, divisor]
  linear_combination - htwo (C (coefficient r.msb) * X ^ w) - htwo (C (coefficient bit) * X ^ w)

/-- A register equal to a polynomial up to a multiple of the divisor holds its
remainder. -/
theorem remainder_eq {poly r : BitVec w} {p q : (ZMod 2)[X]}
    (h : ofRegister r = p + divisor poly * q) : ofRegister r = p %ₘ divisor poly := by
  have hp : ofRegister r + divisor poly * (- q) = p := by
    rw [h]
    ring
  have hdegree : (ofRegister r).degree < (divisor poly).degree := by
    rw [divisor_degree]
    exact ofRegister_degree r
  exact (div_modByMonic_unique (- q) (ofRegister r) (divisor_monic poly) ⟨hp, hdegree⟩).2.symm

theorem ofBits_append_bit (bits : List Bool) (bit : Bool) :
    ofBits (bits ++ [bit]) = ofBits bits * X + C (coefficient bit) := by
  simp [ofBits]

/-- The register and the message so far agree up to a multiple of the divisor. -/
theorem feeds_congruent (poly r : BitVec w) (bits : List Bool) :
    ∃ q, ofRegister (feeds poly r bits) =
      ofRegister r * X ^ bits.length + ofBits bits * X ^ w + divisor poly * q := by
  induction bits using List.reverseRecOn with
  | nil => exact ⟨0, by simp [ofBits]⟩
  | append_singleton bits bit ih =>
    obtain ⟨q, hq⟩ := ih
    have hlast : feeds poly r (bits ++ [bit]) = feed poly (feeds poly r bits) bit :=
      feeds_append poly r bits [bit]
    refine ⟨q * X + C (coefficient ((feeds poly r bits).msb ^^ bit)), ?_⟩
    rw [hlast, ofRegister_feed, hq, ofBits_append_bit, List.length_append, List.length_singleton]
    ring

/-- Feeding bits is long division: the register holds the remainder of its old
contents and the message, moved up by the width of the register. -/
theorem feeds_remainder (poly r : BitVec w) (bits : List Bool) :
    ofRegister (feeds poly r bits) =
      (ofRegister r * X ^ bits.length + ofBits bits * X ^ w) %ₘ divisor poly := by
  obtain ⟨q, hq⟩ := feeds_congruent poly r bits
  exact remainder_eq hq

end
end CkCore.Lib.Gf2
