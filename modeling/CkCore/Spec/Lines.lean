import CkCore.Lib.Longest
import CkCore.Model.LineReader

namespace CkCore
open Lib

/-- The byte order marks encoding looks for. -/
def byteOrderMarks : List (List Byte) :=
  [[0xfe, 0xff], [0xff, 0xfe], [0xf7, 0x64, 0x4c], [0xef, 0xbb, 0xbf], [0x0e, 0xfe, 0xff],
    [0xfb, 0xee, 0x28], [0x00, 0x00, 0xfe, 0xff], [0xff, 0xfe, 0x00, 0x00],
    [0xdd, 0x73, 0x66, 0x73], [0xfb, 0xee, 0x28, 0xff]]

def unmarked (content : List Byte) : Prop := ∀ mark ∈ byteOrderMarks, ¬ mark <+: content

instance (content : List Byte) : Decidable (unmarked content) :=
  inferInstanceAs (Decidable (∀ mark ∈ byteOrderMarks, ¬ mark <+: content))

/-- The marks in the order they are looked for, and what they stand for. -/
def marks : List (List Byte × Encoding) :=
  [([0xfe, 0xff], .utf16be), ([0xff, 0xfe], .utf16le), ([0xf7, 0x64, 0x4c], .utf1),
    ([0xef, 0xbb, 0xbf], .utf8), ([0x0e, 0xfe, 0xff], .scsu), ([0xfb, 0xee, 0x28], .bocu1),
    ([0x00, 0x00, 0xfe, 0xff], .utf32be), ([0xff, 0xfe, 0x00, 0x00], .utf32le),
    ([0xdd, 0x73, 0x66, 0x73], .utfebcdic), ([0xfb, 0xee, 0x28, 0xff], .bocu1)]

theorem marks_byteOrderMarks : marks.map Prod.fst = byteOrderMarks := rfl

section
variable {T : Type} [DecidableEq T]

/-- A unit in front of the first line. -/
def onFirst (c : T) : List (List T) → List (List T)
  | [] => [[c]]
  | line :: lines => (c :: line) :: lines

/-- The lines of a text: each ends at LF, at CR LF or at a CR without LF, and
what follows the last terminator is a line if there is any of it. -/
def linesOf (cr lf : T) : List T → List (List T)
  | [] => []
  | [c] => if c = lf ∨ c = cr then [[]] else [[c]]
  | c :: next :: rest =>
    if c = lf then [] :: linesOf cr lf (next :: rest)
    else if c = cr then
      if next = lf then [] :: linesOf cr lf rest else [] :: linesOf cr lf (next :: rest)
    else onFirst c (linesOf cr lf (next :: rest))

end

namespace LineReader
variable {T σ : Type} [DecidableEq T]

/-- One pass of a client that reads until end: a line is appended. -/
def drainPass (type : CharType T) (src : InStream σ) (fuel : Nat) :
    List (List T) × LineReader T σ →
      Except Fault (Pass (List (List T) × LineReader T σ) (List (List T)))
  | (lines, self) => do
    if self.end src then return .leave lines
    let (line, self) ← readLine type src fuel self
    return .again (lines ++ [line], self)

/-- All lines a client gets from a reader built on the stream. -/
def drain (type : CharType T) (src : InStream σ) (stale : Nat → Byte) (fuel : Nat)
    (stream : σ) : Except Fault (List (List T)) := do
  let self ← create src stale stream
  loop (drainPass type src fuel) fuel ([], self)

end LineReader
end CkCore
