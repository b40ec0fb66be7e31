import CkCore.Spec.Decimal

namespace CkCore.Proofs.Convert
open Lib CkCore.Convert

section
variable {value : BitVec 64} {buffer : List Byte} {start : Nat}

theorem digit_eq (value : BitVec 64) : digit value = UInt8.ofNat (48 + value.toNat % 10) := by
  have hmod : (48 + value % 10).toNat = 48 + value.toNat % 10 := by
    rw [BitVec.toNat_add, BitVec.toNat_umod]
    change (48 + value.toNat % 10) % 2 ^ 64 = _
    omega
  apply UInt8.toNat_inj.mp
  change ((48 + value % 10).setWidth 8).toNat = _
  rw [BitVec.toNat_setWidth, hmod]
  rfl

/-- The digits the loop writes, the last one of the number first. -/
def written (n : Nat) : List Byte := characters (Nat.digits 10 n)

theorem written_step {n : Nat} (hn : 0 < n) :
    written n = UInt8.ofNat (48 + n % 10) :: written (n / 10) := by
  unfold written characters
  rw [Nat.digits_def' (by decide) hn, List.map_cons]

/-- A pass puts one digit behind those in front of it. -/
theorem digit_pass (value : BitVec 64) {p : Nat} (hp : p < buffer.length) :
    ∃ b, store buffer p [UInt8.ofNat (48 + value.toNat % 10)] = .ok b ∧
      digitPass ⟨value, p, buffer⟩ = if value / 10 ≠ 0 then .ok (.again ⟨value / 10, p + 1, b⟩)
        else .ok (.leave ⟨value / 10, p + 1, b⟩) := by
  have hfits : p + [UInt8.ofNat (48 + value.toNat % 10)].length ≤ buffer.length := hp
  have hstore := store_ok hfits
  refine ⟨_, hstore, ?_⟩
  simp only [digitPass, digit_eq, hstore, ok_bind]
  rfl

/-- The loop writes the digits backwards. The induction is on the number. -/
theorem digits_loop (hv : 0 < value.toNat) {p : Nat}
    (hfits : p + (written value.toNat).length ≤ buffer.length) :
    ∃ fuel, loop digitPass fuel ⟨value, p, buffer⟩ = .ok ⟨0, p + (written value.toNat).length,
      buffer.take p ++ written value.toNat ++ buffer.drop (p + (written value.toNat).length)⟩ := by
  generalize hn : value.toNat = n at hv hfits
  induction n using Nat.strongRecOn generalizing value p buffer with
  | ind n ih =>
    have hstep := written_step hv
    have hlen : (written n).length = (written (n / 10)).length + 1 := by
      rw [hstep, List.length_cons]
    have hnext : (value / 10).toNat = n / 10 := by
      rw [BitVec.toNat_udiv, hn]
      rfl
    obtain ⟨b, hstore, hpass⟩ := digit_pass value (show p < buffer.length by omega)
    rw [hn] at hstore
    have hfront := store_take hstore
    by_cases hzero : value / 10 = 0
    · rw [if_neg (not_not_intro hzero), hzero] at hpass
      have hnone : n / 10 = 0 := by
        rw [← hnext, hzero]
        rfl
      have hlast : written (n / 10) = [] := by
        rw [hnone]
        rfl
      refine ⟨1, (loop_leave hpass).trans ?_⟩
      rw [hstep, hlast, (store_inside hstore).2]
      rfl
    · rw [if_pos hzero] at hpass
      have hpos : 0 < n / 10 := by
        apply Nat.pos_of_ne_zero
        intro hnone
        apply hzero
        apply BitVec.eq_of_toNat_eq
        rw [hnext, hnone]
        rfl
      have hb := store_length hstore
      have hend : p + 1 + (written (n / 10)).length = p + (written n).length := by omega
      have hback : b.drop (p + (written n).length) = buffer.drop (p + (written n).length) := by
        refine store_drop hstore ?_
        rw [List.length_singleton]
        omega
      have hrest : p + 1 + (written (n / 10)).length ≤ b.length := by omega
      obtain ⟨fuel, hloop⟩ := ih (n / 10) (by omega) hnext hpos hrest
      refine ⟨fuel + 1, (loop_again hpass).trans (hloop.trans ?_)⟩
      rw [List.length_singleton] at hfront
      rw [hend, hfront, hback, hstep, List.append_assoc (buffer.take p)]
      rfl

theorem reverse_middle (xs ys zs : List Byte) :
    reverse (xs ++ ys ++ zs) xs.length (xs.length + ys.length) = xs ++ ys.reverse ++ zs := by
  have hl : xs.length + ys.length = (xs ++ ys).length := List.length_append.symm
  unfold reverse
  rw [Nat.add_sub_cancel_left, hl, List.drop_left, List.append_assoc xs, List.take_left,
    List.drop_left, List.take_left]

theorem written_numeral {n : Nat} (hn : 0 < n) :
    (written n).reverse = characters (numeral 10 n) := by
  unfold written characters numeral
  rw [if_neg (Nat.pos_iff_ne_zero.mp hn), List.map_reverse]

/-- Numbers of 64 bits have 20 digits at most. -/
theorem numeral_short (value : BitVec 64) : (numeral 10 value.toNat).length ≤ 20 := by
  have hlt := value.isLt
  refine numeral_length (by decide) (by decide) ?_
  omega

/-- The digits and a NUL are put behind what is in front of `start`. -/
theorem ui64_writes (value : BitVec 64) (front back : List Byte) (hfront : front.length = start)
    (hback : (numeral 10 value.toNat).length + 1 ≤ back.length) :
    ∃ fuel, ui64ToStr2 value (front ++ back) start fuel =
      .ok (some (front ++ characters (numeral 10 value.toNat) ++ [0] ++
        back.drop ((numeral 10 value.toNat).length + 1))) := by
  subst hfront
  by_cases hzero : value = 0
  · subst hzero
    obtain ⟨c, d, back, rfl⟩ : ∃ c d rest, back = c :: d :: rest := by
      match back, hback with
      | c :: d :: rest, _ => exact ⟨c, d, rest, rfl⟩
    have hfirst : store (front ++ c :: d :: back) front.length [zero] =
        .ok (front ++ [zero] ++ d :: back) := store_behind rfl (by simp)
    have hsecond : store (front ++ [zero] ++ d :: back) (front.length + 1) [0] =
        .ok (front ++ [zero] ++ [0] ++ back) := store_behind (by simp) (by simp)
    refine ⟨0, ?_⟩
    rw [ui64ToStr2, if_pos rfl, hfirst, ok_bind, hsecond]
    rfl
  · have hpos : 0 < value.toNat := by
      apply Nat.pos_of_ne_zero
      intro hn
      exact hzero (BitVec.eq_of_toNat_eq hn)
    have hnumeral := written_numeral hpos
    have hlen : (written value.toNat).length = (numeral 10 value.toNat).length := by
      rw [← List.length_reverse, hnumeral, characters, List.length_map]
    have hshort := numeral_short value
    have hlimit : 20 < intToStrBuflen := by decide
    have hfits : front.length + (written value.toNat).length ≤ (front ++ back).length := by
      rw [List.length_append]
      omega
    obtain ⟨fuel, hloop⟩ := digits_loop hpos hfits
    rw [List.take_left, ← List.drop_drop, List.drop_left] at hloop
    refine ⟨fuel, ?_⟩
    rw [ui64ToStr2, if_neg hzero, hloop, ok_bind]
    simp only [reverse_middle, hnumeral]
    rw [store_behind (by simp [characters, hlen]) (by simp; omega), ok_bind, if_pos (by omega),
      List.drop_drop, hlen]
    rfl

theorem sign_length (i : Int) : (sign i).length ≤ 1 := by
  unfold sign
  split
  · exact Nat.le_refl _
  · exact Nat.zero_le _

/-- A conversion that writes the sign and the digits writes the number. -/
theorem writes_numeral {conversion : List Byte → Nat → Except Fault (Option (List Byte))} {i : Int}
    (fuel : Nat) (hn : (numeral 10 i.natAbs).length ≤ 20)
    (h : conversion buffer fuel = .ok (some (sign i ++ characters (numeral 10 i.natAbs) ++ [0] ++
      buffer.drop ((sign i).length + (numeral 10 i.natAbs).length + 1)))) :
    Writes conversion i buffer := by
  have hsign := sign_length i
  have hlimit : 22 < intToStrBuflen := by decide
  have hlen : (sign i ++ characters (numeral 10 i.natAbs)).length =
      (sign i).length + (numeral 10 i.natAbs).length := by
    rw [List.length_append, characters, List.length_map]
  have hdecimal : Decimal i (sign i ++ characters (numeral 10 i.natAbs)) :=
    ⟨_, numeral_isNumeral (by decide) _, rfl⟩
  refine ⟨fuel, _, ?_, hdecimal, fun _ hother => hdecimal.unique hother, ?_⟩
  · rw [hlen]
    exact h
  · rw [hlen]
    omega

theorem ui64_canonical (value : BitVec 64) (hroom : intToStrBuflen ≤ buffer.length) :
    Writes (fun buffer fuel => ui64ToStr2 value buffer 0 fuel) value.toNat buffer := by
  have hshort := numeral_short value
  have hlimit : 20 < intToStrBuflen := by decide
  obtain ⟨fuel, hwrites⟩ := ui64_writes value [] buffer rfl (by omega)
  have hpositive : sign (value.toNat : Int) = [] := if_neg (by omega)
  refine writes_numeral fuel hshort ?_
  rw [hpositive, Int.natAbs_natCast, List.length_nil, Nat.zero_add]
  exact hwrites

/-- The negation of a negative value is its absolute value, at the least value too. -/
theorem neg_toNat {value : BitVec 64} (h : ¬ value.toInt ≥ 0) :
    (-value).toNat = value.toInt.natAbs := by
  rw [BitVec.toNat_neg, BitVec.toInt_eq_toNat_bmod]
  rw [BitVec.toInt_eq_toNat_bmod, Int.bmod_def] at h
  rw [Int.bmod_def]
  have hlt := value.isLt
  omega

theorem i64_canonical (value : BitVec 64) (hroom : intToStrBuflen ≤ buffer.length) :
    Writes (fun buffer fuel => i64ToStr2 value buffer fuel) value.toInt buffer := by
  by_cases hpos : value.toInt ≥ 0
  · obtain ⟨fuel, text, hwrites, hrest⟩ := ui64_canonical value hroom
    have hvalue : (value.toNat : Int) = value.toInt := by
      rw [BitVec.toInt_eq_toNat_bmod, Int.bmod_def] at hpos ⊢
      have hlt := value.isLt
      omega
    rw [hvalue] at hrest
    refine ⟨fuel, text, ?_, hrest⟩
    dsimp only
    rw [i64ToStr2, if_pos hpos]
    exact hwrites
  · have hneg := neg_toNat hpos
    have hshort := numeral_short (-value)
    have hlimit : 22 < intToStrBuflen := by decide
    have hsome : [minus].length ≤ buffer.length := by
      rw [List.length_singleton]
      omega
    have hstore : store ([] ++ buffer) 0 [minus] = .ok ([] ++ [minus] ++ buffer.drop 1) :=
      store_behind rfl hsome
    rw [List.nil_append, List.nil_append] at hstore
    obtain ⟨fuel, hwrites⟩ := ui64_writes (-value) [minus] (buffer.drop 1)
      (show [minus].length = 1 from rfl) (by rw [List.length_drop]; omega)
    have hsign : sign value.toInt = [minus] := if_pos (by omega)
    rw [hneg] at hshort hwrites
    refine writes_numeral fuel hshort ?_
    rw [i64ToStr2, if_neg hpos, hstore, ok_bind, hwrites, hsign, List.drop_drop]
    congr 3

end

/-- All four conversions write the canonical decimal representation of their
value into a buffer of INT_TO_STR_BUFLEN characters. -/
theorem decimal_canonical {buffer : List Byte} (hroom : intToStrBuflen ≤ buffer.length) :
    (∀ value : BitVec 64,
      Writes (fun buffer fuel => ui64ToStr2 value buffer 0 fuel) value.toNat buffer) ∧
    (∀ value : BitVec 64,
      Writes (fun buffer fuel => i64ToStr2 value buffer fuel) value.toInt buffer) ∧
    (∀ value : BitVec 32,
      Writes (fun buffer fuel => ui32ToStr2 value buffer fuel) value.toNat buffer) ∧
    ∀ value : BitVec 32,
      Writes (fun buffer fuel => i32ToStr2 value buffer fuel) value.toInt buffer := by
  refine ⟨fun value => ui64_canonical value hroom, fun value => i64_canonical value hroom, ?_, ?_⟩
  · intro value
    have h := ui64_canonical (value.setWidth 64) hroom
    rw [BitVec.toNat_setWidth_of_le (by decide)] at h
    exact h
  · intro value
    have h := i64_canonical (value.signExtend 64) hroom
    rw [BitVec.toInt_signExtend_of_le (by decide)] at h
    exact h

/-- The least tint64, whose negation is itself. -/
theorem decimal_canonical_least : -BitVec.intMin 64 = BitVec.intMin 64 ∧
    Writes (fun buffer fuel => i64ToStr2 (BitVec.intMin 64) buffer fuel) (-9223372036854775808)
      (List.replicate 30 0) := by
  have hroom : intToStrBuflen ≤ (List.replicate 30 (0 : Byte)).length := by decide
  exact ⟨by decide, (decimal_canonical hroom).2.1 (BitVec.intMin 64)⟩

end CkCore.Proofs.Convert
