import CkCore.Lib.System
import CkCore.Model.Stream

namespace CkCore
open Lib

/-- A File object on a regular file of some number of bytes. Of its handle only
the offset matters; none is the handle -1. -/
structure File where
  bytes : Nat
  fileHandle : Option Nat
deriving DecidableEq, Repr

inductive FileWhence where
  | current
  | begin
  | end
deriving DecidableEq, Repr

/-- What the system calls of one open answer, true for success: stat, close,
open, the lock and the close after a refused lock. -/
structure OpenCalls where
  stat : Bool
  closed : Bool
  opened : Bool
  locked : Bool
  closedAgain : Bool
deriving DecidableEq, Repr

namespace File

/-- Offsets are below 2^63. -/
def offLimit : Int := 0x8000000000000000

/-- Conversion of an offset to int. -/
def toInt (off : Int) : Int := off.bmod word

def target (self : File) (off : Nat) (distance : Int) : FileWhence → Int
  | .current => off + distance
  | .begin => distance
  | .end => self.bytes + distance

def lseek (self : File) (distance : Int) (whence : FileWhence) : Int × File :=
  match self.fileHandle with
  | none => (-1, self)
  | some off =>
    let goal := self.target off distance whence
    if 0 ≤ goal ∧ goal < offLimit then (goal, { self with fileHandle := some goal.toNat })
    else (-1, self)

/-- The offset seek2 returns; none when it throws. -/
def seek2 (self : File) (distance : Int) (whence : FileWhence) : Option Int × File :=
  if self.fileHandle = none then (none, self)
  else
    let (off, self) := self.lseek distance whence
    let ret := toInt off
    (if ret = -1 then none else some ret, self)

/-- Throws on the offset 1: that is what the source compares with. -/
def tell2 (self : File) : Option Int :=
  if self.fileHandle = none then none
  else
    let ret := toInt (self.lseek 0 .current).1
    if ret = 1 then none else some ret

def size2 (self : File) (stat : Bool) : Option Int × File :=
  if self.fileHandle = none then (if stat then some self.bytes else none, self)
  else
    match self.tell2 with
    | none => (none, self)
    | some curPos =>
      match self.seek2 0 .end with
      | (none, self) => (none, self)
      | (some size, self) =>
        match self.seek2 curPos .begin with
        | (none, self) => (none, self)
        | (some _, self) => (some size, self)

def close (self : File) (ok : Bool) : Bool × File :=
  if self.fileHandle = none then (false, self)
  else if ok then (true, { self with fileHandle := none })
  else (false, self)

/-- Opening for reading; false when open2 throws. -/
def open2 (self : File) (calls : OpenCalls) : Bool × File :=
  let (closed, file) := self.close calls.closed
  if self.fileHandle ≠ none ∧ closed = false then (false, file)
  else if calls.opened then
    let file := { file with fileHandle := some 0 }
    if calls.locked then (true, file) else (false, (file.close calls.closedAgain).2)
  else (false, { file with fileHandle := none })

/-- The result of the system call is the number of bytes read, or none for -1. -/
def read (self : File) (result : Option Nat) : Int × File :=
  match self.fileHandle, result with
  | some off, some n => (n, { self with fileHandle := some (off + n) })
  | some _, none | none, _ => (-1, self)

end File

structure FileInStream where
  file : File
  size_ : Int
  read_ : Int
deriving DecidableEq, Repr

/-- A call on the stream with the answers of the system calls it makes. -/
inductive FileCall where
  | open (calls : OpenCalls)
  | close (ok : Bool)
  | read (count : Nat) (result : Option Nat)
  | seek (distance : Nat) (whence : StreamWhence)
deriving DecidableEq, Repr

namespace FileInStream

def create (bytes : Nat) (stat : Bool) : FileInStream :=
  let file : File := { bytes := bytes, fileHandle := none }
  { file := file, size_ := (file.size2 stat).1.getD (-1), read_ := 0 }

def «open» (self : FileInStream) (calls : OpenCalls) : Bool × FileInStream :=
  let (size, file) := self.file.size2 calls.stat
  let (opened, file) := file.open2 calls
  (opened, { self with file := file, size_ := size.getD (-1) })

def close (self : FileInStream) (ok : Bool) : Bool × FileInStream :=
  let (closed, file) := self.file.close ok
  if closed then (true, { self with file := file, read_ := 0 })
  else (false, { self with file := file })

def «end» (self : FileInStream) : Bool := self.read_ ≥ self.size_

def fileWhence : StreamWhence → FileWhence
  | .current => .current
  | .begin => .begin

def seek (self : FileInStream) (distance : Nat) (whence : StreamWhence) : Bool × FileInStream :=
  match self.file.seek2 distance (fileWhence whence) with
  | (some result, file) => (true, { self with file := file, read_ := result })
  | (none, file) => (false, { self with file := file })

def read (self : FileInStream) (result : Option Nat) : Int × FileInStream :=
  let (res, file) := self.file.read result
  if res = -1 then (res, { self with file := file })
  else (res, { self with file := file, read_ := self.read_ + res })

/-- A read returns no more than was asked for and no more than there is behind
the offset. -/
def answers (self : FileInStream) (count : Nat) : Option Nat → Prop
  | none => True
  | some n => n ≤ count ∧ n ≤ self.file.bytes - self.file.fileHandle.getD 0

instance (self : FileInStream) (count : Nat) (result : Option Nat) :
    Decidable (self.answers count result) :=
  match result with
  | none => isTrue trivial
  | some _ => inferInstanceAs (Decidable (_ ∧ _))

def step (self : FileInStream) : FileCall → Option FileInStream
  | .open calls => some (self.open calls).2
  | .close ok => some (self.close ok).2
  | .read count result =>
    if count < word ∧ self.answers count result then some (self.read result).2 else none
  | .seek distance whence => if distance < word then some (self.seek distance whence).2 else none

/-- The size of the largest file an int can measure. -/
def largest : Nat := 0x7fffffff

/-- All sequences of calls on a stream over a file of up to 2^31 - 1 bytes. -/
def system : System FileInStream FileCall :=
  .machine (fun self => ∃ bytes stat, bytes ≤ largest ∧ self = create bytes stat) step

/-- The stream as a copy sees it. The content is what the file holds by now; a
regular file is read in full, up to its end. -/
def inStream (content : List Byte) : InStream FileInStream where
  read self count :=
    let data := (content.drop (self.file.fileHandle.getD 0)).take count
    let (ret, self) := self.read (some data.length)
    .ok (⟨ret, if ret = -1 then [] else data⟩, self)
  size self := self.size_
  «end» := «end»
  seek self distance whence := .ok (self.seek distance whence)

end FileInStream

/-- A FileOutStream and what its file holds on the disk. -/
structure FileOutStream where
  file : File
  content : List Byte
deriving DecidableEq, Repr

/-- A call on the stream with the answers of the system calls it makes. A file
that does not exist yet is opened as an empty one. -/
inductive FileOutCall where
  | open (calls : OpenCalls)
  | close (ok : Bool)
  | write (data : List Byte) (result : Option Nat)
deriving DecidableEq, Repr

namespace FileOutStream

/-- What writing at an offset of a file leaves. -/
def overlay (content : List Byte) (off : Nat) (data : List Byte) : List Byte :=
  content.take off ++ data ++ content.drop (off + data.length)

def create (content : List Byte) : FileOutStream :=
  { file := { bytes := content.length, fileHandle := none }, content := content }

/-- ckOPEN_WRITE takes the file as it is: nothing of it is cut off. -/
def «open» (self : FileOutStream) (calls : OpenCalls) : Bool × FileOutStream :=
  let (opened, file) := self.file.open2 calls
  (opened, { self with file := file })

def close (self : FileOutStream) (ok : Bool) : Bool × FileOutStream :=
  let (closed, file) := self.file.close ok
  (closed, { self with file := file })

/-- The result of the system call is the number of bytes written, or none for -1. -/
def write (self : FileOutStream) (data : List Byte) (result : Option Nat) :
    Int × FileOutStream :=
  match self.file.fileHandle, result with
  | some off, some n =>
    let content := overlay self.content off (data.take n)
    (n, { file := { bytes := content.length, fileHandle := some (off + n) }, content := content })
  | some _, none | none, _ => (-1, self)

def step (self : FileOutStream) : FileOutCall → Option FileOutStream
  | .open calls => some (self.open calls).2
  | .close ok => some (self.close ok).2
  | .write data result =>
    if data.length < word ∧ ∀ n, result = some n → n ≤ data.length then
      some (self.write data result).2
    else none

/-- All sequences of calls on a stream over a file with some content. -/
def system (content : List Byte) : System FileOutStream FileOutCall :=
  .machine (· = create content) step

/-- The stream as a copy sees it: the disk takes all that is written. -/
def outStream : OutStream FileOutStream where
  write self data := .ok (self.write data (some data.length))

end FileOutStream
end CkCore
