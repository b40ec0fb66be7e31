import CkCore.Lib.Numeral
import CkCore.Model.Convert

namespace CkCore.Convert
open Lib

/-- The characters '0' to '9' for digits. -/
def characters (ds : List Nat) : List Byte := ds.map fun d => UInt8.ofNat (48 + d)

def sign (value : Int) : List Byte := if value < 0 then [minus] else []

/-- The canonical decimal representation: a minus sign for negative numbers
only, and digits with no leading zero except for 0 itself. -/
def Decimal (value : Int) (text : List Byte) : Prop :=
  ∃ ds, IsNumeral 10 value.natAbs ds ∧ text = sign value ++ characters ds

/-- There is one such text for each number. -/
theorem Decimal.unique {value : Int} {text other : List Byte} (h : Decimal value text)
    (ho : Decimal value other) : other = text := by
  obtain ⟨ds, hds, rfl⟩ := h
  obtain ⟨ds', hds', rfl⟩ := ho
  rw [hds.unique (by decide), hds'.unique (by decide)]

/-- With enough passes the conversion puts the number and a NUL in front of what
the buffer held, in at most INT_TO_STR_BUFLEN characters. -/
def Writes (conversion : List Byte → Nat → Except Fault (Option (List Byte))) (value : Int)
    (buffer : List Byte) : Prop :=
  ∃ fuel text, conversion buffer fuel =
      .ok (some (text ++ [0] ++ buffer.drop (text.length + 1))) ∧
    Decimal value text ∧ (∀ other, Decimal value other → other = text) ∧
    text.length + 1 ≤ intToStrBuflen

end CkCore.Convert
