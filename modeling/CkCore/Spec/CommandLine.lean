import CkCore.Model.CommandLine

namespace CkCore.CommandLine
open Lib Process

def quoted (arg : List Byte) : List Byte := quote :: arg ++ [quote]

/-- The line gives the arguments in double quotes, one or more spaces apart. -/
inductive Line : List (List Byte) → List Byte → Prop where
  | empty : Line [] []
  | last (arg : List Byte) : Line [arg] (quoted arg)
  | more (arg : List Byte) {gap : Nat} (apart : 0 < gap) {next : List Byte}
      {args : List (List Byte)} {line : List Byte} (rest : Line (next :: args) line) :
      Line (arg :: next :: args) (quoted arg ++ List.replicate gap space ++ line)

/-- The line with one space between two arguments. -/
def line : List (List Byte) → List Byte
  | [] => []
  | [arg] => quoted arg
  | arg :: next :: args => quoted arg ++ List.replicate 1 space ++ line (next :: args)

theorem line_line (args : List (List Byte)) : Line args (line args) := by
  induction args with
  | nil => exact .empty
  | cons arg args ih =>
    cases args with
    | nil => exact .last arg
    | cons next args => exact .more arg (Nat.succ_pos 0) ih

end CkCore.CommandLine
