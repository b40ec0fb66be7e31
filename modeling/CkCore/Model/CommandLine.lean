import CkCore.Model.Stream

namespace CkCore.Process
open Lib

def quote : Byte := 34

def space : Byte := 32

def maxArgCount : Nat := 127

/-- The local variables of parse_cmd_line. -/
structure Parsing where
  res : List (List Byte)
  curArg : List Byte
  inQuote : Bool

def parsePass (p : Parsing) (c : Byte) : Parsing :=
  if c = quote then { p with inQuote := !p.inQuote }
  else if c = space ∧ p.inQuote = false then
    if p.curArg.length > 0 then { p with res := p.res ++ [p.curArg], curArg := [] } else p
  else { p with curArg := p.curArg ++ [c] }

/-- The last argument is pushed when the line is over. -/
def Parsing.finish (p : Parsing) : List (List Byte) :=
  if p.curArg.length > 0 then p.res ++ [p.curArg] else p.res

/-- The characters of the command line in front of its terminating zero. -/
def parseCmdLine (cmdLine : List Byte) : List (List Byte) :=
  (cmdLine.foldl parsePass ⟨[], [], false⟩).finish

/-- The arguments create passes to execv in front of the null pointer; none when
it returns false instead. -/
def argList (cmdLine : List Byte) : Option (List (List Byte)) :=
  let argVec := parseCmdLine cmdLine
  let numArgs := if argVec.length > maxArgCount then maxArgCount else argVec.length
  if numArgs = 0 then none else some (argVec.take numArgs)

end CkCore.Process
