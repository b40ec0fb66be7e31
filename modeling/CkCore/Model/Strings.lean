import CkCore.Model.TString

namespace CkCore.Strings
open Lib

/-- A wchar_t. -/
abbrev WChar := BitVec 32

/-- What a pointer to a zero-terminated string points to, in front of the zero. -/
structure CString (α : Type) [OfNat α 0] where
  chars : List α
  ended : ∀ c ∈ chars, c ≠ 0
  small : chars.length < sizeWord

section
variable {α β : Type} [OfNat α 0] [OfNat β 0]

/-- strlen and wcslen. -/
def CString.strlen (str : CString α) : Nat := str.chars.length

/-- The loop of both conversions; the element behind the characters is the zero. -/
def convertPass (conv : α → β) (str : CString α) (outLen : Nat) :
    Nat × List β → Except Fault (Pass (Nat × List β) (List β))
  | (i, out) => do
    if i < outLen then
      let c ← load (str.chars ++ [0]) i 1
      let out ← store out i (c.map conv)
      return .again (i + 1, out)
    else return .leave out

/-- The part the two conversions share; the length is an int from 0 on. In the
subtraction it becomes a size_t, which 0 - 1 wraps around. -/
def convert (conv : α → β) (str : CString α) (out : List β) (len fuel : Nat) :
    Except Fault (List β) := do
  let outLen := if str.strlen ≥ len then subSize len 1 else str.strlen
  let out ← loop (convertPass conv str outLen) fuel (0, out)
  store out outLen [0]

end

/-- A char becomes a wchar_t with its sign. -/
def widen (c : Byte) : WChar := c.toBitVec.signExtend 32

/-- utf[i] & 0xff. -/
def narrow (c : WChar) : Byte := ⟨(c &&& 0xff).setWidth 8⟩

def ansiToUtf16 (ansi : CString Byte) (utf : List WChar) (utfLen fuel : Nat) :
    Except Fault (List WChar) :=
  convert widen ansi utf utfLen fuel

def utf16ToAnsi (utf : CString WChar) (ansi : List Byte) (ansiLen fuel : Nat) :
    Except Fault (List Byte) :=
  convert narrow utf ansi ansiLen fuel

/-- At most `n` characters, padded with zeros up to `n`. -/
def strncpy (str1 : List Byte) (str2 : CString Byte) (n : Nat) : Except Fault (List Byte) :=
  store str1 0 (str2.chars.take n ++ List.replicate (n - str2.strlen) 0)

def ansiToAuto (ansi : CString Byte) (out : List Byte) (outLen : Nat) : Except Fault (List Byte) :=
  strncpy out ansi outLen

end CkCore.Strings
