import CkCore.Model.Stream

namespace CkCore
open Lib

/-- A block of memory with a read position; count_ is the size of the block. -/
structure MemoryInStream where
  data : List Byte
  pos : Nat
deriving DecidableEq, Repr

namespace MemoryInStream

def init (data : List Byte) : MemoryInStream := ⟨data, 0⟩

def «end» (self : MemoryInStream) : Bool := self.pos ≥ self.data.length

def seek (self : MemoryInStream) (distance : Nat) (whence : StreamWhence) :
    Bool × MemoryInStream :=
  let self := if whence = .begin then { self with pos := 0 } else self
  (true, { self with pos := addWord self.pos distance })

def read (self : MemoryInStream) (count : Nat) : Except Fault (ReadResult × MemoryInStream) := do
  let toRead := if addWord self.pos count > self.data.length then
    subWord self.data.length self.pos else count
  let bytes ← load self.data self.pos toRead
  return (⟨toRead, bytes⟩, { self with pos := addWord self.pos toRead })

def size (self : MemoryInStream) : Int := self.data.length

def inStream : InStream MemoryInStream where
  read := read
  size := size
  «end» := «end»
  seek self distance whence := .ok (self.seek distance whence)

end MemoryInStream

/-- A growing block of memory and the number of bytes written to it. No buffer
is a null pointer. -/
structure MemoryOutStream where
  buffer : Option (List Byte)
  bufferSize : Nat
  bufferPos : Nat
deriving DecidableEq, Repr

/-- Where new memory comes from: none when there is no more, else that many bytes
of whatever was there before. -/
abbrev Alloc := Nat → Option (List Byte)

namespace MemoryOutStream

def init (alloc : Alloc) (bufferSize : Nat) : MemoryOutStream :=
  let size := if bufferSize = 0 then 1024 else bufferSize
  match alloc size with
  | none => { buffer := none, bufferSize := 0, bufferPos := 0 }
  | some buffer => { buffer := some buffer, bufferSize := size, bufferPos := 0 }

/-- The loop of write that doubles the buffer; it leaves with false when the
allocation fails. -/
def growPass (alloc : Alloc) (count : Nat) (self : MemoryOutStream) :
    Except Fault (Pass MemoryOutStream (Bool × MemoryOutStream)) :=
  if addWord self.bufferPos count > self.bufferSize then
    let newBufferSize := mulWord self.bufferSize 2
    match alloc newBufferSize with
    | none => return .leave (false, self)
    | some newBuffer => do
      let bytes ← load (self.buffer.getD []) 0 self.bufferSize
      let newBuffer ← store newBuffer 0 bytes
      return .again { self with buffer := some newBuffer, bufferSize := newBufferSize }
  else
    return .leave (true, self)

def write (alloc : Alloc) (fuel : Nat) (self : MemoryOutStream) (data : List Byte) :
    Except Fault (Int × MemoryOutStream) :=
  if self.buffer = none then
    return (-1, self)
  else do
    let (room, self) ← loop (growPass alloc data.length) fuel self
    if room then
      let buffer ← store (self.buffer.getD []) self.bufferPos data
      return (data.length, { self with
        buffer := some buffer
        bufferPos := addWord self.bufferPos data.length })
    else
      return (-1, self)

def data (self : MemoryOutStream) : Option (List Byte) := self.buffer

def count (self : MemoryOutStream) : Nat := self.bufferPos

def outStream (alloc : Alloc) (fuel : Nat) : OutStream MemoryOutStream where
  write := write alloc fuel

end MemoryOutStream

end CkCore
