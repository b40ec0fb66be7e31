import CkCore.Lib.System
import CkCore.Model.Stream

namespace CkCore
open Lib

/-- A directory stream is known by its number; none is a null pointer. -/
structure DirectoryIterator where
  dirHandle : Option Nat
  curEnt : Option (List Byte)
deriving DecidableEq, Repr

/-- A loop from begin() to end() and the names its iterator has stood on. -/
structure DirectoryLoop where
  it : DirectoryIterator
  visited : List (List Byte)
deriving DecidableEq, Repr

/-- A Directory object with the loops over it: the content of the directory, the
streams opened for the addresses of iterators, and what readdir has still to
return from each stream. -/
structure DirectoryScan where
  entries : List (List Byte)
  dirHandles : List (Nat × Nat)
  streams : List (List (List Byte))
  loops : List DirectoryLoop
deriving DecidableEq, Repr

/-- begin() constructs its iterator at some address. -/
inductive DirectoryEvent where
  | begin (address : Nat)
  | advance (loop : Nat)
deriving DecidableEq, Repr

namespace DirectoryIterator

def «end» : DirectoryIterator := { dirHandle := none, curEnt := none }

/-- operator==. -/
def equal (a b : DirectoryIterator) : Bool :=
  match a.curEnt, b.curEnt with
  | none, none => true
  | some name, some name' => name = name'
  | some _, none | none, some _ => false

/-- The names "." and "..". -/
def dots (name : List Byte) : Bool := name = [46] || name = [46, 46]

/-- The loop of next on what readdir has still to return: cur_ent_ and what is
left after it. -/
def skip : List (List Byte) → Option (List Byte) × List (List Byte)
  | [] => (none, [])
  | name :: rest => if dots name then skip rest else (some name, rest)

end DirectoryIterator

namespace DirectoryScan
open DirectoryIterator

def next (s : DirectoryScan) (dirHandle : Nat) : Option (List Byte) × DirectoryScan :=
  match s.streams[dirHandle]? with
  | none => (none, s)
  | some left => ((skip left).1, { s with streams := s.streams.set dirHandle (skip left).2 })

/-- The stream the constructor uses: the one kept for the address or a new one,
which opendir starts at the first entry. -/
def handle (s : DirectoryScan) (address : Nat) : Nat × DirectoryScan :=
  match s.dirHandles.lookup address with
  | some dirHandle => (dirHandle, s)
  | none => (s.streams.length, { s with
      dirHandles := s.dirHandles ++ [(address, s.streams.length)]
      streams := s.streams ++ [s.entries] })

def begin (s : DirectoryScan) (address : Nat) : DirectoryScan :=
  let (dirHandle, s) := s.handle address
  let (curEnt, s) := s.next dirHandle
  { s with loops := s.loops ++ [⟨⟨some dirHandle, curEnt⟩, curEnt.toList⟩] }

/-- operator++ on the iterator of a loop. -/
def advance (s : DirectoryScan) (i : Nat) : Option DirectoryScan :=
  match s.loops[i]? with
  | none => none
  | some l =>
    match l.it.dirHandle, l.it.curEnt with
    | some dirHandle, some _ =>
      let (curEnt, s) := s.next dirHandle
      some { s with loops := s.loops.set i ⟨⟨some dirHandle, curEnt⟩, l.visited ++ curEnt.toList⟩ }
    | _, _ => some s

def step (s : DirectoryScan) : DirectoryEvent → Option DirectoryScan
  | .begin address => some (s.begin address)
  | .advance loop => s.advance loop

/-- A fresh Directory object on a directory with these entries. -/
def create (entries : List (List Byte)) : DirectoryScan :=
  { entries := entries, dirHandles := [], streams := [], loops := [] }

/-- Every number of loops over one Directory object, one after another or at the
same time, with their iterators at any addresses. -/
def system : System DirectoryScan DirectoryEvent :=
  .machine (fun s => ∃ entries, s = create entries) step

end DirectoryScan
end CkCore
