namespace CkCore.Lib.Crc

variable {w : Nat}

/-- The register moves one place left; a bit that falls out brings the
polynomial in. -/
def shift (poly r : BitVec w) : BitVec w :=
  if r.msb then (r <<< 1) ^^^ poly else r <<< 1

def shifts (poly : BitVec w) : Nat → BitVec w → BitVec w
  | 0, r => r
  | n + 1, r => shifts poly n (shift poly r)

/-- The bit-by-bit definition: a message bit is compared with the bit that
falls out. -/
def feed (poly r : BitVec w) (bit : Bool) : BitVec w :=
  if r.msb ^^ bit then (r <<< 1) ^^^ poly else r <<< 1

def feeds (poly r : BitVec w) (bits : List Bool) : BitVec w :=
  bits.foldl (feed poly) r

/-- The first `n` bits of a word, most significant first. -/
def topBits : Nat → BitVec w → List Bool
  | 0, _ => []
  | n + 1, x => x.msb :: topBits n (x <<< 1)

@[simp] theorem feeds_nil (poly r : BitVec w) : feeds poly r [] = r := rfl

@[simp] theorem feeds_cons (poly r : BitVec w) (bit : Bool) (bits : List Bool) :
    feeds poly r (bit :: bits) = feeds poly (feed poly r bit) bits := rfl

theorem feeds_append (poly r : BitVec w) (xs ys : List Bool) :
    feeds poly r (xs ++ ys) = feeds poly (feeds poly r xs) ys :=
  List.foldl_append

/-- Xoring a word into the register feeds its top bit and keeps the rest. -/
theorem shift_xor (poly r x : BitVec w) :
    shift poly (r ^^^ x) = feed poly r x.msb ^^^ (x <<< 1) := by
  have hs : (r ^^^ x) <<< 1 = (r <<< 1) ^^^ (x <<< 1) := BitVec.shiftLeft_xor_distrib r x 1
  simp only [shift, feed, BitVec.msb_xor, hs]
  split
  · rw [BitVec.xor_assoc, BitVec.xor_comm (x <<< 1), ← BitVec.xor_assoc]
  · rfl

/-- Xoring a word into the register is feeding its bits one after another; what
has not been fed yet is still above. -/
theorem shifts_xor (poly : BitVec w) (n : Nat) (r x : BitVec w) :
    shifts poly n (r ^^^ x) = feeds poly r (topBits n x) ^^^ (x <<< n) := by
  induction n generalizing r x with
  | zero => simp [shifts, topBits]
  | succ n ih =>
    rw [shifts, shift_xor, ih, topBits, feeds_cons, ← BitVec.shiftLeft_add, Nat.add_comm n 1]

/-- A word with no bits left below the first `n` is fed completely. -/
theorem shifts_xor_all {poly : BitVec w} {n : Nat} {x : BitVec w} (hx : x <<< n = 0#w)
    (r : BitVec w) : shifts poly n (r ^^^ x) = feeds poly r (topBits n x) := by
  rw [shifts_xor, hx, BitVec.xor_zero]

/-- The first `n` bits of a word depend on those bits alone. -/
theorem topBits_eq {v : Nat} {x : BitVec w} {y : BitVec v} (n : Nat)
    (h : ∀ i, i < n → x.getMsbD i = y.getMsbD i) : topBits n x = topBits n y := by
  induction n generalizing x y with
  | zero => rfl
  | succ n ih =>
    have hhead : x.msb = y.msb := h 0 (Nat.succ_pos n)
    have htail : topBits n (x <<< 1) = topBits n (y <<< 1) := by
      apply ih
      intro i hi
      rw [BitVec.getMsbD_shiftLeft, BitVec.getMsbD_shiftLeft]
      exact h (i + 1) (by omega)
    rw [topBits, topBits, hhead, htail]

theorem topBits_getMsbD (n : Nat) (x : BitVec w) :
    topBits n x = (List.range n).map fun i => x.getMsbD i := by
  induction n generalizing x with
  | zero => rfl
  | succ n ih =>
    rw [topBits, ih, List.range_succ_eq_map, List.map_cons, List.map_map]
    congr 1
    apply List.map_congr_left
    intro i _
    rw [BitVec.getMsbD_shiftLeft]
    rfl

/-- A word is known from its bits. -/
theorem topBits_injective {x y : BitVec w} (h : topBits w x = topBits w y) : x = y := by
  rw [topBits_getMsbD, topBits_getMsbD] at h
  apply BitVec.eq_of_getMsbD_eq
  intro i hi
  exact List.map_inj_left.mp h i (List.mem_range.mpr hi)

/-- Moving a register `n` places is moving its first `n` bits and shifting the
others behind them. -/
theorem shifts_split {poly x high : BitVec w} {n : Nat}
    (hsame : ∀ i, i < n → high.getMsbD i = x.getMsbD i) (hend : high <<< n = 0#w) :
    shifts poly n x = shifts poly n high ^^^ (x <<< n) := by
  have hx : shifts poly n x = feeds poly 0#w (topBits n x) ^^^ (x <<< n) := by
    simpa only [BitVec.zero_xor] using shifts_xor poly n 0#w x
  have hh : shifts poly n high = feeds poly 0#w (topBits n high) := by
    simpa only [BitVec.zero_xor] using shifts_xor_all hend 0#w
  rw [hx, hh, topBits_eq n hsame]

/-- A chunk of bits placed at the top of a register. -/
def atTop (w : Nat) {k : Nat} (b : BitVec k) : BitVec w :=
  b.setWidth w <<< (w - k)

/-- The `k` bits at the top of a register. -/
def top (k : Nat) (r : BitVec w) : BitVec k :=
  (r >>> (w - k)).setWidth k

section
variable {k : Nat}

theorem atTop_getMsbD (hk : k ≤ w) (b : BitVec k) (i : Nat) :
    (atTop w b).getMsbD i = b.getMsbD i := by
  simp only [atTop, BitVec.getMsbD_eq_getLsbD, BitVec.getLsbD_shiftLeft, BitVec.getLsbD_setWidth]
  by_cases hi : i < k
  · have hpos : w - 1 - i - (w - k) = k - 1 - i := by omega
    have hw : i < w := by omega
    have hl : w - 1 - i < w := by omega
    have hs : ¬ w - 1 - i < w - k := by omega
    have hin : k - 1 - i < w := by omega
    simp [hpos, hi, hw, hl, hs, hin]
  · have hlow : w - 1 - i < w - k ∨ ¬ i < w := by omega
    rcases hlow with hlow | hlow <;> simp [hi, hlow]

theorem atTop_shiftLeft (hk : k ≤ w) (b : BitVec k) : atTop w b <<< k = 0#w := by
  rw [atTop, ← BitVec.shiftLeft_add, Nat.sub_add_cancel hk]
  exact BitVec.shiftLeft_eq_zero (Nat.le_refl w)

theorem atTop_xor (a b : BitVec k) : atTop w (a ^^^ b) = atTop w a ^^^ atTop w b := by
  simp only [atTop, BitVec.setWidth_xor, BitVec.shiftLeft_xor_distrib]

theorem top_getMsbD (hk : k ≤ w) (r : BitVec w) {i : Nat} (hi : i < k) :
    (top k r).getMsbD i = r.getMsbD i := by
  have hpos : w - k + (k - 1 - i) = w - 1 - i := by omega
  have hw : i < w := by omega
  have hl : k - 1 - i < k := by omega
  simp [top, BitVec.getMsbD_eq_getLsbD, hpos, hi, hw, hl]

theorem topBits_atTop (hk : k ≤ w) (b : BitVec k) : topBits k (atTop w b) = topBits k b :=
  topBits_eq k fun i _ => atTop_getMsbD hk b i

/-- Feeding the bits of a chunk is moving the register with the chunk xored into
its top. -/
theorem feeds_topBits (hk : k ≤ w) (poly r : BitVec w) (b : BitVec k) :
    feeds poly r (topBits k b) = shifts poly k (r ^^^ atTop w b) := by
  rw [shifts_xor_all (atTop_shiftLeft hk b), topBits_atTop hk]

/-- The table step: a chunk of message bits is fed by moving the old top bits
xor the chunk, which a table can hold, and shifting the rest. -/
theorem feeds_chunk (hk : k ≤ w) (poly r : BitVec w) (b : BitVec k) :
    feeds poly r (topBits k b) = (r <<< k) ^^^ shifts poly k (atTop w (top k r ^^^ b)) := by
  have hsame : ∀ i, i < k →
      (atTop w (top k r ^^^ b)).getMsbD i = (r ^^^ atTop w b).getMsbD i := by
    intro i hi
    rw [atTop_xor, BitVec.getMsbD_xor, BitVec.getMsbD_xor, atTop_getMsbD hk, top_getMsbD hk r hi]
  have hrest : (r ^^^ atTop w b) <<< k = r <<< k := by
    rw [BitVec.shiftLeft_xor_distrib, atTop_shiftLeft hk, BitVec.xor_zero]
  rw [feeds_topBits hk, shifts_split hsame (atTop_shiftLeft hk _), hrest, BitVec.xor_comm]

end

section
variable {poly : BitVec w}

/-- A register is known from where it moved to: the constant term of the
polynomial tells which bit fell out. -/
theorem shift_injective (hp : poly.getLsbD 0 = true) {r r' : BitVec w}
    (h : shift poly r = shift poly r') : r = r' := by
  have hlow : ∀ r : BitVec w, (shift poly r).getLsbD 0 = r.msb := by
    intro r
    unfold shift
    split
    case isTrue hm => simp [hp, hm]
    case isFalse hm => simp [hm]
  have hmsb : r.msb = r'.msb := by rw [← hlow, h, hlow]
  have hrest : r <<< 1 = r' <<< 1 := by
    unfold shift at h
    rw [hmsb] at h
    split at h
    · exact (BitVec.xor_left_inj poly).mp h
    · exact h
  apply BitVec.eq_of_getLsbD_eq
  intro i hi
  by_cases hlast : i + 1 = w
  · rw [BitVec.msb_eq_getLsbD_last, BitVec.msb_eq_getLsbD_last] at hmsb
    rw [show i = w - 1 by omega]
    exact hmsb
  · have hbit := congrArg (BitVec.getLsbD · (i + 1)) hrest
    have hin : i + 1 < w := by omega
    simpa only [BitVec.getLsbD_shiftLeft, hin, decide_true, Bool.true_and, Nat.add_sub_cancel,
      Nat.not_lt.mpr (Nat.le_add_left 1 i), decide_false, Bool.not_false] using hbit

theorem shifts_injective (hp : poly.getLsbD 0 = true) {n : Nat} {r r' : BitVec w}
    (h : shifts poly n r = shifts poly n r') : r = r' := by
  induction n generalizing r r' with
  | zero => exact h
  | succ n ih => exact shift_injective hp (ih h)

/-- A sequence of bits at the top of a register. -/
def placed (w : Nat) (bits : List Bool) : BitVec w := atTop w (BitVec.ofBoolListBE bits)

theorem topBits_placed {bits : List Bool} (hk : bits.length ≤ w) :
    topBits bits.length (placed w bits) = bits := by
  rw [placed, topBits_atTop hk, topBits_getMsbD]
  apply List.ext_getElem
  · simp
  · intro i _ hi
    simp [hi]

/-- No more bits than the register is wide are fed by xoring them into its top. -/
theorem feeds_short (poly r : BitVec w) {bits : List Bool} (hk : bits.length ≤ w) :
    feeds poly r bits = shifts poly bits.length (r ^^^ placed w bits) := by
  conv => lhs; rw [← topBits_placed hk]
  rw [placed, topBits_atTop hk, feeds_topBits hk]

/-- Feeding the same bits keeps different registers apart. -/
theorem feeds_injective (hp : poly.getLsbD 0 = true) (hw : 0 < w) {bits : List Bool}
    {r r' : BitVec w} (h : feeds poly r bits = feeds poly r' bits) : r = r' := by
  induction bits generalizing r r' with
  | nil => exact h
  | cons bit bits ih =>
    have hfirst : feeds poly r [bit] = feeds poly r' [bit] := ih h
    have hone : [bit].length ≤ w := hw
    rw [feeds_short poly r hone, feeds_short poly r' hone] at hfirst
    exact (BitVec.xor_left_inj _).mp (shifts_injective hp hfirst)

/-- A register tells apart any two sequences of bits no longer than itself. -/
theorem feeds_window (hp : poly.getLsbD 0 = true) {r : BitVec w} {xs ys : List Bool}
    (hlen : xs.length = ys.length) (hk : xs.length ≤ w) (h : feeds poly r xs = feeds poly r ys) :
    xs = ys := by
  have hk' : ys.length ≤ w := hlen ▸ hk
  rw [feeds_short poly r hk, feeds_short poly r hk', ← hlen] at h
  have hsame := (BitVec.xor_right_inj r).mp (shifts_injective hp h)
  calc xs = topBits xs.length (placed w xs) := (topBits_placed hk).symm
    _ = topBits ys.length (placed w ys) := by rw [hsame, hlen]
    _ = ys := topBits_placed hk'

end

section

theorem topBits_append (m n : Nat) (x : BitVec w) :
    topBits (m + n) x = topBits m x ++ topBits n (x <<< m) := by
  induction m generalizing x with
  | zero => simp [topBits]
  | succ m ih =>
    rw [Nat.add_right_comm, topBits, topBits, ih, ← BitVec.shiftLeft_add, Nat.add_comm 1 m]
    rfl

/-- The bits of a word, a chunk at a time. -/
theorem topBits_chunks (k n : Nat) (x : BitVec w) :
    topBits (n * k) x = (List.range n).flatMap fun i => topBits k (x <<< (i * k)) := by
  induction n with
  | zero => simp [topBits]
  | succ n ih => simp [Nat.succ_mul, topBits_append, List.range_succ, ih]

/-- A register that is fed itself, up to a mask, forgets what it was. -/
theorem feeds_itself (poly r mask : BitVec w) :
    feeds poly r (topBits w (r ^^^ mask)) = shifts poly w mask := by
  have hend : (r ^^^ mask) <<< w = 0#w := BitVec.shiftLeft_eq_zero (Nat.le_refl w)
  rw [← shifts_xor_all hend, ← BitVec.xor_assoc, BitVec.xor_self, BitVec.zero_xor]

end
end CkCore.Lib.Crc
