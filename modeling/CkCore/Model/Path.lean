import CkCore.Model.TString

namespace CkCore
open Lib

/-- The Unix path delimiter. -/
def slash : Byte := 47

structure Path where
  pathName : TString
deriving DecidableEq

/-- The path_ of an end iterator is not set, and never read; here it is empty. -/
structure PathIterator where
  atEnd : Bool
  posStart : Nat
  posEnd : Nat
  path : Path
deriving DecidableEq

namespace PathIterator

def next (self : PathIterator) : PathIterator :=
  let name := self.path.pathName
  if self.posEnd = name.size ∨ self.posEnd = subSize name.size 1 then { self with atEnd := true }
  else
    let delim := name.find slash (addSize self.posStart 1)
    -- A delimiter in front of everything else is skipped.
    let posStart := if delim = 0 then addSize self.posStart 1 else self.posStart
    let delim := if delim = 0 then name.find slash (addSize posStart 1) else delim
    { self with posStart := posStart, posEnd := if delim = npos then name.size else delim }

/-- operator*; at the end it is the text "NULL". -/
def get (self : PathIterator) : Except Fault TString :=
  if self.atEnd then .ok ⟨[78, 85, 76, 76], by decide⟩
  else
    self.path.pathName.substr (addSize self.posStart 1)
      (subSize (subSize self.posEnd self.posStart) 1)

/-- operator++, in front and behind. -/
def advance (self : PathIterator) : PathIterator :=
  { self with posStart := self.posEnd }.next

/-- operator==; unless both are at the end, the names decide. -/
def equals (self it : PathIterator) : Except Fault Bool :=
  if self.atEnd ∧ it.atEnd then .ok true
  else do
    let name ← self.get
    let other ← it.get
    return name = other

/-- operator!=, written out a second time. -/
def differs (self it : PathIterator) : Except Fault Bool :=
  if self.atEnd ∧ it.atEnd then .ok false
  else do
    let name ← self.get
    let other ← it.get
    return name ≠ other

end PathIterator

namespace Path

def begin (self : Path) : PathIterator :=
  PathIterator.next { atEnd := false, posStart := npos, posEnd := 0, path := self }

def «end» : PathIterator :=
  { atEnd := true, posStart := npos, posEnd := 0, path := ⟨TString.empty⟩ }

theorem slash_small : [slash].length < npos := by decide

def rootName (self : Path) : TString :=
  if self.pathName.chars.head? = some slash then ⟨[slash], slash_small⟩ else TString.empty

/-- The default constructor. -/
def empty : Path := ⟨TString.empty⟩

/-- The constructor from a C string. -/
def make (pathName : TString) : Path := ⟨pathName.cStr⟩

def dirName (self : Path) : Except Fault TString :=
  let name := self.pathName
  let «end» := subSize name.size 1
  let delim := name.rfind slash npos
  let delim := if delim = «end» then name.rfind slash (subSize «end» 1) else delim
  if delim = npos then .ok TString.empty else name.substr 0 (addSize delim 1)

/-- Here the end moves in front of a delimiter at the end. -/
def baseName (self : Path) : Except Fault TString :=
  let name := self.pathName
  let «end» := subSize name.size 1
  let delim := name.rfind slash npos
  let (delim, «end») :=
    if delim = «end» then (name.rfind slash (subSize «end» 1), subSize «end» 1) else (delim, «end»)
  if delim = npos then name.substr 0 (addSize «end» 1)
  else name.substr (addSize delim 1) (subSize «end» delim)

/-- What operator+ and operator+= do alike to the left operand: a delimiter at
its end is taken off, or one is put there. -/
def joint (name other : TString) : Except Fault TString := do
  let «end» := subSize name.size 1
  let last ← name.get «end»
  let first ← other.get 0
  let delimP1 := last = slash
  let delimP2 := first = slash
  if delimP1 ∧ delimP2 then pure (name.resize «end»)
  else if ¬ delimP1 ∧ ¬ delimP2 then name.append ⟨[slash], slash_small⟩
  else pure name

/-- operator+; with an operand that is empty it returns the right one. -/
def plus (self p : Path) : Except Fault Path :=
  if self.pathName.size < 1 then .ok (make p.pathName)
  else if p.pathName.size < 1 then .ok (make p.pathName)
  else do
    let newPathName ← joint self.pathName p.pathName
    let newPathName ← newPathName.append p.pathName
    return make newPathName

/-- What the reference on the right of operator+= is to: another path or the
left one. -/
inductive Operand where
  | other (p : Path)
  | itself
deriving DecidableEq

/-- The path on the right before the call. -/
def Operand.path (self : Path) : Operand → Path
  | .other p => p
  | .itself => self

/-- operator+=; the left path as its own right operand is read again behind the
change at its end. -/
def plusAssign (self : Path) (p : Operand) : Except Fault Path := do
  let pathName ← joint self.pathName (p.path self).pathName
  let pathName ← pathName.append (p.path ⟨pathName⟩).pathName
  return ⟨pathName⟩

/-- One pass of the loop of operator==, the test behind it included. -/
def equalsPass (its : PathIterator × PathIterator) :
    Except Fault (Pass (PathIterator × PathIterator) Bool) := do
  let more ← its.1.differs Path.end
  let more ← if more then its.2.differs Path.end else pure false
  if more then
    if ← its.1.differs its.2 then return .leave false
    else return .again (its.1.advance, its.2.advance)
  else
    let first ← its.1.equals Path.end
    let both ← if first then its.2.equals Path.end else pure false
    return .leave both

/-- operator==. -/
def equals (self p : Path) (fuel : Nat) : Except Fault Bool :=
  loop equalsPass fuel (self.begin, p.begin)

end Path

end CkCore
