import CkCore.Model.Stream

namespace CkCore
open Lib

/-- The values of size_t, as numbers below 2^64. -/
def sizeWord : Nat := 0x10000000000000000

def addSize (a b : Nat) : Nat := (a + b) % sizeWord

def subSize (a b : Nat) : Nat := (a + sizeWord - b) % sizeWord

/-- The position that stands for no position, size_t(-1). -/
def npos : Nat := sizeWord - 1

/-- A string of characters of one byte; its size stays below npos. -/
structure TString where
  chars : List Byte
  small : chars.length < npos
deriving DecidableEq

namespace TString

def empty : TString := ⟨[], by decide⟩

def size (self : TString) : Nat := self.chars.length

/-- The first position of the character from `pos` on, or npos. -/
def find (self : TString) (c : Byte) (pos : Nat) : Nat :=
  let index := pos + (self.chars.drop pos).idxOf c
  if index < self.size then index else npos

/-- The last position of the character up to `pos`, or npos. -/
def rfind (self : TString) (c : Byte) (pos : Nat) : Nat :=
  let front := self.chars.take (pos + 1)
  let back := front.reverse.idxOf c
  if back < front.length then front.length - 1 - back else npos

/-- operator[]; right behind the last character there is a zero. -/
def get (self : TString) (pos : Nat) : Except Fault Byte :=
  if pos ≤ self.size then .ok (self.chars.getD pos 0) else .error .outOfBounds

/-- At most `n` characters from `pos` on; a position behind the end throws. -/
def substr (self : TString) (pos n : Nat) : Except Fault TString :=
  if pos ≤ self.size then
    .ok ⟨(self.chars.drop pos).take n, by
      have h := self.small
      simp only [List.length_take, List.length_drop]
      omega⟩
  else .error .outOfBounds

/-- resize to no more characters than there are. -/
def resize (self : TString) (n : Nat) : TString :=
  ⟨self.chars.take n, by
    have h := self.small
    simp only [List.length_take]
    omega⟩

/-- What c_str() hands on as a text: the characters in front of the first zero. -/
def cStr (self : TString) : TString :=
  ⟨self.chars.takeWhile (· ≠ 0),
    Nat.lt_of_le_of_lt (List.takeWhile_prefix _).length_le self.small⟩

/-- operator+ and operator+=; a text too long for a string throws. -/
def append (self other : TString) : Except Fault TString :=
  if h : (self.chars ++ other.chars).length < npos then .ok ⟨self.chars ++ other.chars, h⟩
  else .error .outOfBounds

/-- A text as a string, when it is not too long for one. -/
def fit (chars : List Byte) : Except Fault TString :=
  if h : chars.length < npos then .ok ⟨chars, h⟩ else .error .outOfBounds

theorem append_fit (self other : TString) :
    self.append other = fit (self.chars ++ other.chars) := rfl

theorem fit_eq {chars : List Byte} {name : TString} (h : fit chars = .ok name) :
    name.chars = chars := by
  unfold fit at h
  split at h
  · cases h
    rfl
  · cases h

theorem fit_chars (self : TString) : fit self.chars = .ok self := dif_pos self.small

/-- What is too long already stays so with more behind it. -/
theorem fit_append (front : List Byte) (other : TString) :
    (fit front >>= fun name => name.append other) = fit (front ++ other.chars) := by
  unfold fit
  split
  · rfl
  · next h =>
    rw [dif_neg]
    · rfl
    · rw [List.length_append]
      omega

theorem append_chars {a b c : TString} (h : a.append b = .ok c) : c.chars = a.chars ++ b.chars := by
  unfold append at h
  split at h
  · cases h
    rfl
  · cases h

end TString

theorem addSize_eq {a b : Nat} (h : a + b < sizeWord) : addSize a b = a + b :=
  Nat.mod_eq_of_lt h

theorem subSize_eq {a b : Nat} (ha : a < sizeWord) (hb : b ≤ a) : subSize a b = a - b := by
  unfold subSize
  rw [show a + sizeWord - b = (a - b) + sizeWord by omega, Nat.add_mod_right,
    Nat.mod_eq_of_lt (by omega)]

end CkCore
