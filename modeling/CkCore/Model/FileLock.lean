import CkCore.Lib.System

namespace CkCore
open Lib

inductive FileMode where
  | read
  | write
  | readWrite
deriving DecidableEq, Repr

/-- What a descriptor of a process refers to. -/
structure Opened where
  inode : Nat
  mode : FileMode
deriving DecidableEq, Repr

/-- A lock of a process on a whole file, F_WRLCK when exclusive, else F_RDLCK. -/
structure FileLock where
  process : Nat
  inode : Nat
  exclusive : Bool
deriving DecidableEq, Repr

/-- Where the code of a File object is: in open2 between open and the lock, in
open2 about to close after a refused lock, or in remove with the descriptor it
tests the file with, before and after the lock. -/
inductive FilePlace where
  | idle
  | opening
  | refused
  | removing (fd : Nat)
  | removed (fd : Nat)
deriving DecidableEq, Repr

/-- A File object of some process; no handle is -1. -/
structure FileObject where
  process : Nat
  fileHandle : Option Nat
  place : FilePlace
deriving DecidableEq, Repr

/-- The File objects of all processes, the descriptor tables of the processes
and the advisory locks of the system. -/
structure OpenFiles where
  objects : Nat → Option FileObject
  table : Nat → Nat → Option Opened
  locks : List FileLock

inductive LockAnswer where
  | granted
  | refused
  | failed
deriving DecidableEq, Repr

/-- What ::close does and returns: it succeeds, or it fails behind the release of
the descriptor, as on Linux, or fails and releases nothing. -/
inductive CloseAnswer where
  | closed
  | released
  | failed
deriving DecidableEq, Repr

/-- One system call of a File object, or the making of one. A failed open
changes nothing. -/
inductive FileEvent where
  | construct (id process : Nat)
  | copy (id copied : Nat)
  | opens (id fd inode : Nat) (mode : FileMode)
  | locks (id : Nat) (answer : LockAnswer)
  | closes (id : Nat) (answer : CloseAnswer)
  | removes (id fd inode : Nat)
  | forget (id : Nat)
deriving DecidableEq, Repr

/-- Open for its client: open2 is through, or has not closed what it opened. -/
def FileObject.settled (o : FileObject) : Bool := o.place ≠ .opening && o.place ≠ .refused

namespace OpenFiles

def setObject (s : OpenFiles) (id : Nat) (o : FileObject) : OpenFiles :=
  { s with objects := fun i => if i = id then some o else s.objects i }

def setOpened (s : OpenFiles) (p fd : Nat) (d : Option Opened) : OpenFiles :=
  { s with table := fun q n => if q = p ∧ n = fd then d else s.table q n }

/-- The locks that are not the process's own on the file. -/
def withoutLocks (s : OpenFiles) (p inode : Nat) : List FileLock :=
  s.locks.filter fun l => ¬ (l.process = p ∧ l.inode = inode)

/-- fcntl with F_SETLK replaces the lock of the process on the file. -/
def setLock (s : OpenFiles) (p inode : Nat) (exclusive : Bool) : OpenFiles :=
  { s with locks := ⟨p, inode, exclusive⟩ :: s.withoutLocks p inode }

/-- Closing any descriptor of a file gives up the locks of the process on it. -/
def closeFd (s : OpenFiles) (p fd inode : Nat) : OpenFiles :=
  { s.setOpened p fd none with locks := s.withoutLocks p inode }

/-- Another process holds a lock that excludes this one. -/
def conflict (s : OpenFiles) (p inode : Nat) (exclusive : Bool) : Bool :=
  s.locks.any fun l => l.process ≠ p ∧ l.inode = inode ∧ (l.exclusive ∨ exclusive)

/-- The lock type of open2: F_RDLCK for ckOPEN_READ, else F_WRLCK. -/
def exclusive (mode : FileMode) : Bool := mode ≠ .read

def construct (s : OpenFiles) (id process : Nat) : Option OpenFiles :=
  if s.objects id = none then some (s.setObject id ⟨process, none, .idle⟩) else none

/-- The implicit copy constructor copies the handle. -/
def copy (s : OpenFiles) (id copied : Nat) : Option OpenFiles :=
  match s.objects copied, s.objects id with
  | none, some o => if o.place = .idle then some (s.setObject copied o) else none
  | _, _ => none

def opens (s : OpenFiles) (id fd inode : Nat) (mode : FileMode) : Option OpenFiles :=
  match s.objects id with
  | some o =>
    if o.place = .idle ∧ o.fileHandle = none ∧ s.table o.process fd = none then
      some ((s.setOpened o.process fd (some ⟨inode, mode⟩)).setObject id
        { o with fileHandle := some fd, place := .opening })
    else none
  | none => none

/-- The lock call on a descriptor. The state does not fit an answer that there
is no reason for. -/
def lockCall (s : OpenFiles) (p : Nat) (d : Opened) (exclusive : Bool) :
    LockAnswer → Option OpenFiles
  | .granted =>
    if s.conflict p d.inode exclusive then none else some (s.setLock p d.inode exclusive)
  | .refused => if s.conflict p d.inode exclusive then some s else none
  | .failed => some s

/-- The lock of open2: EACCES and EAGAIN lead to a close, any other failure is
ignored. -/
def lockOpening (s : OpenFiles) (id : Nat) (o : FileObject) (d : Opened) (answer : LockAnswer) :
    Option OpenFiles :=
  (s.lockCall o.process d (exclusive d.mode) answer).map fun s =>
    s.setObject id { o with place := if answer = .refused then .refused else .idle }

def lockRemoving (s : OpenFiles) (id : Nat) (o : FileObject) (fd : Nat) (d : Opened)
    (answer : LockAnswer) : Option OpenFiles :=
  (s.lockCall o.process d true answer).map fun s => s.setObject id { o with place := .removed fd }

def lock (s : OpenFiles) (id : Nat) (answer : LockAnswer) : Option OpenFiles :=
  match s.objects id with
  | none => none
  | some o =>
    match o.place, o.fileHandle with
    | .opening, some fd =>
      match s.table o.process fd with
      | some d => s.lockOpening id o d answer
      | none => if answer = .failed then some (s.setObject id { o with place := .idle }) else none
    | .removing fd, _ =>
      match s.table o.process fd with
      | some d => s.lockRemoving id o fd d answer
      | none =>
        if answer = .failed then some (s.setObject id { o with place := .removed fd }) else none
    | _, _ => none

/-- The close call on a descriptor, and what becomes of the object when it
succeeds and when it fails. -/
def closeCall (s : OpenFiles) (id p fd : Nat) (answer : CloseAnswer) (closed kept : FileObject) :
    Option OpenFiles :=
  match answer, s.table p fd with
  | .closed, some d => some ((s.setObject id closed).closeFd p fd d.inode)
  | .released, some d => some ((s.setObject id kept).closeFd p fd d.inode)
  | .failed, _ => some (s.setObject id kept)
  | .closed, none | .released, none => none

/-- close() of the client, the one in open2 after a refused lock and the one at
the end of the test in remove. -/
def close (s : OpenFiles) (id : Nat) (answer : CloseAnswer) : Option OpenFiles :=
  match s.objects id with
  | none => none
  | some o =>
    match o.place, o.fileHandle with
    | .idle, some fd => s.closeCall id o.process fd answer { o with fileHandle := none } o
    | .refused, some fd =>
      s.closeCall id o.process fd answer { o with fileHandle := none, place := .idle }
        { o with place := .idle }
    | .removed fd, _ =>
      s.closeCall id o.process fd answer { o with place := .idle } { o with place := .idle }
    | _, _ => none

/-- The open of remove. A File whose close failed before may still be open. -/
def removes (s : OpenFiles) (id fd inode : Nat) : Option OpenFiles :=
  match s.objects id with
  | some o =>
    if o.place = .idle ∧ s.table o.process fd = none then
      some ((s.setOpened o.process fd (some ⟨inode, .write⟩)).setObject id
        { o with place := .removing fd })
    else none
  | none => none

def forget (s : OpenFiles) (id : Nat) : Option OpenFiles :=
  match s.objects id with
  | some o =>
    if o.place = .idle then
      some { s with objects := fun i => if i = id then none else s.objects i }
    else none
  | none => none

/-- open2 on an open File begins with its close, and so do remove and the
destructor, so that these are steps of their own. -/
def step (s : OpenFiles) : FileEvent → Option OpenFiles
  | .construct id process => s.construct id process
  | .copy id copied => s.copy id copied
  | .opens id fd inode mode => s.opens id fd inode mode
  | .locks id answer => s.lock id answer
  | .closes id answer => s.close id answer
  | .removes id fd inode => s.removes id fd inode
  | .forget id => s.forget id

def start : OpenFiles := ⟨fun _ => none, fun _ _ => none, []⟩

/-- All runs of any number of processes, each with any number of File objects,
in any order of their system calls. -/
def system : System OpenFiles FileEvent := .machine (· = start) step

end OpenFiles
end CkCore
