import CkCore.Lib.Loop

namespace CkCore.Lib

/-- Machine words of 32 bits, as numbers below 2^32. -/
def word : Nat := 0x100000000

/-- Conversion of a signed 64-bit value to a 32-bit word. -/
def toWord (i : Int) : Nat := (i % (word : Int)).toNat

def addWord (a b : Nat) : Nat := (a + b) % word

def subWord (a b : Nat) : Nat := (a + word - b) % word

def mulWord (a b : Nat) : Nat := a * b % word

theorem toWord_nat {n : Nat} (h : n < word) : toWord n = n := by
  unfold toWord
  rw [← Int.natCast_emod, Nat.mod_eq_of_lt h]
  rfl

theorem addWord_eq {a b : Nat} (h : a + b < word) : addWord a b = a + b :=
  Nat.mod_eq_of_lt h

theorem addWord_wrap {a b : Nat} (ha : a < word) (hb : b < word) (h : word ≤ a + b) :
    addWord a b = a + b - word := by
  unfold addWord
  rw [Nat.mod_eq_sub_mod h, Nat.mod_eq_of_lt (by omega)]

theorem subWord_eq {a b : Nat} (ha : a < word) (hb : b ≤ a) : subWord a b = a - b := by
  unfold subWord
  rw [show a + word - b = (a - b) + word by omega, Nat.add_mod_right,
    Nat.mod_eq_of_lt (by omega)]

theorem mulWord_eq {a b : Nat} (h : a * b < word) : mulWord a b = a * b :=
  Nat.mod_eq_of_lt h

section
variable {α : Type}

/-- Read `n` elements of an array from index `i` on. -/
def load (xs : List α) (i n : Nat) : Except Fault (List α) :=
  if i + n ≤ xs.length then .ok ((xs.drop i).take n) else .error .outOfBounds

/-- Overwrite an array from index `i` on. -/
def store (xs : List α) (i : Nat) (ys : List α) : Except Fault (List α) :=
  if i + ys.length ≤ xs.length then .ok (xs.take i ++ ys ++ xs.drop (i + ys.length))
  else .error .outOfBounds

theorem load_ok {xs : List α} {i n : Nat} (h : i + n ≤ xs.length) :
    load xs i n = .ok ((xs.drop i).take n) := if_pos h

theorem store_ok {xs ys : List α} {i : Nat} (h : i + ys.length ≤ xs.length) :
    store xs i ys = .ok (xs.take i ++ ys ++ xs.drop (i + ys.length)) := if_pos h

theorem store_out {xs ys : List α} {i : Nat} (h : xs.length < i + ys.length) :
    store xs i ys = .error .outOfBounds := if_neg (by omega)

theorem load_all (xs : List α) : load xs 0 xs.length = .ok xs := by
  simp [load]

/-- A successful read lies inside the array. -/
theorem load_inside {xs ys : List α} {i n : Nat} (h : load xs i n = .ok ys) :
    i + n ≤ xs.length ∧ ys = (xs.drop i).take n := by
  unfold load at h
  split at h
  · cases h
    exact ⟨by assumption, rfl⟩
  · cases h

/-- A successful write lies inside the array and keeps its length. -/
theorem store_inside {xs ys zs : List α} {i : Nat} (h : store xs i ys = .ok zs) :
    i + ys.length ≤ xs.length ∧ zs = xs.take i ++ ys ++ xs.drop (i + ys.length) := by
  unfold store at h
  split at h
  · cases h
    exact ⟨by assumption, rfl⟩
  · cases h

theorem store_length {xs ys zs : List α} {i : Nat} (h : store xs i ys = .ok zs) :
    zs.length = xs.length := by
  obtain ⟨hi, rfl⟩ := store_inside h
  simp only [List.length_append, List.length_take, List.length_drop]
  omega

/-- What was just written at the front of an array is read back. -/
theorem store_take {xs ys zs : List α} {i : Nat} (h : store xs i ys = .ok zs) :
    zs.take (i + ys.length) = xs.take i ++ ys := by
  obtain ⟨hi, rfl⟩ := store_inside h
  have hl : (xs.take i ++ ys).length = i + ys.length := by
    simp only [List.length_append, List.length_take]
    omega
  rw [← hl, List.take_left]

/-- A write leaves everything behind it alone. -/
theorem store_drop {xs ys zs : List α} {i n : Nat} (h : store xs i ys = .ok zs)
    (hn : i + ys.length ≤ n) : zs.drop n = xs.drop n := by
  obtain ⟨hi, rfl⟩ := store_inside h
  have hl : (xs.take i ++ ys).length = i + ys.length := by
    simp only [List.length_append, List.length_take]
    omega
  obtain ⟨k, rfl⟩ := Nat.exists_eq_add_of_le hn
  rw [← List.drop_drop, List.drop_left' hl, List.drop_drop]

/-- A write right behind the front of an array. -/
theorem store_behind {front back ys : List α} {i : Nat} (hi : front.length = i)
    (h : ys.length ≤ back.length) :
    store (front ++ back) i ys = .ok (front ++ ys ++ back.drop ys.length) := by
  subst hi
  rw [store_ok (by rw [List.length_append]; omega), List.take_left, ← List.drop_drop,
    List.drop_left]

/-- What fits the array is stored at its front and read back. -/
theorem store_load (xs ys : List α) (h : ys.length ≤ xs.length) :
    ∃ zs, store xs 0 ys = .ok zs ∧ zs.length = xs.length ∧ load zs 0 ys.length = .ok ys := by
  have hstore : store xs 0 ys = .ok (xs.take 0 ++ ys ++ xs.drop (0 + ys.length)) :=
    store_ok (by omega)
  have hlength := store_length hstore
  have htake := store_take hstore
  refine ⟨_, hstore, hlength, ?_⟩
  rw [load_ok (by omega), List.drop_zero]
  simp

/-- A write leaves everything in front of it alone. -/
theorem store_front {xs ys zs : List α} {i n : Nat} (h : store xs i ys = .ok zs) (hn : n ≤ i) :
    zs.take n = xs.take n := by
  have hz := store_take h
  have hi := (store_inside h).1
  calc zs.take n = (zs.take (i + ys.length)).take n := by
        rw [List.take_take, Nat.min_eq_left (by omega)]
    _ = xs.take n := by
        rw [hz, List.take_append_of_le_length (by simp only [List.length_take]; omega),
          List.take_take, Nat.min_eq_left hn]

end

/-- A returned sequence of two computations returned at both. -/
theorem bind_ok {α β : Type} {x : Except Fault α} {f : α → Except Fault β} {b : β}
    (h : x >>= f = .ok b) : ∃ a, x = .ok a ∧ f a = .ok b := by
  cases x with
  | error e => cases h
  | ok a => exact ⟨a, rfl, h⟩

theorem ok_of_toOption {α : Type} {x : Except Fault α} {a : α} (h : x.toOption = some a) :
    x = .ok a := by
  cases x with
  | error e => cases h
  | ok b => exact congrArg Except.ok (Option.some.inj h)

@[simp] theorem ok_bind {α β : Type} (a : α) (f : α → Except Fault β) :
    ((.ok a : Except Fault α) >>= f) = f a := rfl

@[simp] theorem pure_ok {α : Type} (a : α) : (pure a : Except Fault α) = .ok a := rfl

end CkCore.Lib
