import CkCore.Model.Stream

namespace CkCore
open Lib

/-- `pos == 0 ? -1 : pos` has type tuint32: the -1 is converted to a word
before the result is widened to tint64. -/
def partialCount (pos : Nat) : Int := if pos = 0 then ((toWord (-1) : Nat) : Int) else pos

structure BufferedInStream (σ : Type) where
  stream : σ
  buffer : List Byte
  bufferSize : Nat
  bufferPos : Nat
  bufferData : Nat
deriving DecidableEq

namespace BufferedInStream
variable {σ : Type}

def init (stream : σ) (bufferSize : Nat) : BufferedInStream σ :=
  let size := if bufferSize = 0 then 8192 else bufferSize
  { stream := stream, buffer := List.replicate size 0, bufferSize := size,
    bufferPos := 0, bufferData := 0 }

def «end» (src : InStream σ) (b : BufferedInStream σ) : Bool :=
  src.end b.stream && b.bufferData == 0

/-- The loop of read: the object, the count still wanted and the caller's
buffer as far as it is filled (its length is the local variable pos). -/
structure Reading (σ : Type) where
  self : BufferedInStream σ
  count : Nat
  copied : List Byte

def readPass (src : InStream σ) (r : Reading σ) :
    Except Fault (Pass (Reading σ) (ReadResult × BufferedInStream σ)) :=
  let b := r.self
  if b.bufferData < r.count then do
    let part ← load b.buffer b.bufferPos b.bufferData
    let count := r.count - b.bufferData
    let copied := r.copied ++ part
    let b := { b with bufferPos := 0, bufferData := 0 }
    if src.end b.stream then
      return .leave (⟨copied.length, copied⟩, b)
    else
      let (res, s) ← src.read b.stream b.bufferSize
      let buffer ← store b.buffer 0 res.data
      let b := { b with stream := s, buffer := buffer }
      if res.ret = -1 then
        return .leave (⟨partialCount copied.length, copied⟩, b)
      else
        return .again ⟨{ b with bufferData := toWord res.ret }, count, copied⟩
  else do
    let part ← load b.buffer b.bufferPos r.count
    let copied := r.copied ++ part
    return .leave (⟨copied.length, copied⟩,
      { b with bufferPos := b.bufferPos + r.count, bufferData := b.bufferData - r.count })

def read (src : InStream σ) (fuel : Nat) (b : BufferedInStream σ) (count : Nat) :
    Except Fault (ReadResult × BufferedInStream σ) :=
  -- Without an internal buffer the call is just redirected.
  if b.bufferSize = 0 then do
    let (r, s) ← src.read b.stream count
    return (r, { b with stream := s })
  else
    loop (readPass src) fuel ⟨b, count, []⟩

section
variable {src : InStream σ} {r : Reading σ} {part : List Byte}

theorem readPass_deliver (hn : r.count ≤ r.self.bufferData)
    (hp : load r.self.buffer r.self.bufferPos r.count = .ok part) :
    readPass src r = .ok (.leave (⟨(r.copied ++ part).length, r.copied ++ part⟩,
      { r.self with
        bufferPos := r.self.bufferPos + r.count
        bufferData := r.self.bufferData - r.count })) := by
  unfold readPass
  rw [if_neg (by omega), hp]
  rfl

theorem readPass_end (hn : r.self.bufferData < r.count)
    (hp : load r.self.buffer r.self.bufferPos r.self.bufferData = .ok part)
    (he : src.end r.self.stream = true) :
    readPass src r = .ok (.leave (⟨(r.copied ++ part).length, r.copied ++ part⟩,
      { r.self with bufferPos := 0, bufferData := 0 })) := by
  unfold readPass
  rw [if_pos hn, hp]
  simp only [ok_bind, he, ↓reduceIte]
  rfl

/-- What a pass does once the drained buffer has to be refilled. -/
theorem readPass_fetch (hn : r.self.bufferData < r.count)
    (hp : load r.self.buffer r.self.bufferPos r.self.bufferData = .ok part)
    (he : src.end r.self.stream = false) {res : ReadResult} {s : σ} {buffer : List Byte}
    (hr : src.read r.self.stream r.self.bufferSize = .ok (res, s))
    (hs : store r.self.buffer 0 res.data = .ok buffer) :
    readPass src r = .ok (
      if res.ret = -1 then
        .leave (⟨partialCount (r.copied ++ part).length, r.copied ++ part⟩,
          { r.self with stream := s, buffer := buffer, bufferPos := 0, bufferData := 0 })
      else
        .again ⟨{ r.self with
          stream := s
          buffer := buffer
          bufferPos := 0
          bufferData := toWord res.ret }, r.count - r.self.bufferData, r.copied ++ part⟩) := by
  unfold readPass
  rw [if_pos hn, hp]
  simp only [ok_bind, he, Bool.false_eq_true, ↓reduceIte, hr, hs]
  split <;> rfl

end

/-- The loop of seek: the object and the distance still to go. -/
def seekPass (src : InStream σ) (fuel : Nat) (p : BufferedInStream σ × Nat) :
    Except Fault (Pass (BufferedInStream σ × Nat) (Bool × BufferedInStream σ)) :=
  let (b, distance) := p
  if 0 < distance then do
    let bufferSize := if b.bufferSize = 0 then 8192 else b.bufferSize
    let readBytes := if bufferSize < distance then bufferSize else distance
    let (res, b) ← read src fuel b readBytes
    if res.ret = -1 then
      return .leave (false, b)
    else
      return .again (b, subWord distance (toWord res.ret))
  else
    return .leave (true, b)

def seekOn (src : InStream σ) (fuel : Nat) (b : BufferedInStream σ) (distance : Nat) :
    Except Fault (Bool × BufferedInStream σ) :=
  if distance = 0 then
    return (true, b)
  else
    loop (seekPass src fuel) fuel (b, distance)

def seek (src : InStream σ) (fuel : Nat) (b : BufferedInStream σ) (distance : Nat)
    (whence : StreamWhence) : Except Fault (Bool × BufferedInStream σ) :=
  match whence with
  | .begin => do
    let (ok, s) ← src.seek b.stream 0 .begin
    if ok then
      seekOn src fuel { b with stream := s, bufferPos := 0, bufferData := 0 } distance
    else
      return (false, { b with stream := s })
  | .current => seekOn src fuel b distance

def size (src : InStream σ) (b : BufferedInStream σ) : Int := src.size b.stream

/-- A buffered stream is an input stream again. -/
def inStream (src : InStream σ) (fuel : Nat) : InStream (BufferedInStream σ) where
  read := read src fuel
  size := size src
  «end» := «end» src
  seek := seek src fuel

end BufferedInStream

structure BufferedOutStream (τ : Type) where
  stream : τ
  buffer : List Byte
  bufferSize : Nat
  bufferPos : Nat
deriving DecidableEq

namespace BufferedOutStream
variable {τ : Type}

def init (stream : τ) (bufferSize : Nat) : BufferedOutStream τ :=
  let size := if bufferSize = 0 then 8192 else bufferSize
  { stream := stream, buffer := List.replicate size 0, bufferSize := size, bufferPos := 0 }

/-- The loop of write: the object and the local variables pos and count. -/
structure Writing (τ : Type) where
  self : BufferedOutStream τ
  pos : Nat
  count : Nat

def writePass (out : OutStream τ) (data : List Byte) (w : Writing τ) :
    Except Fault (Pass (Writing τ) (Int × BufferedOutStream τ)) :=
  let b := w.self
  if b.bufferSize < addWord b.bufferPos w.count then do
    let remain := subWord b.bufferSize b.bufferPos
    let part ← load data w.pos remain
    let buffer ← store b.buffer b.bufferPos part
    let pos := addWord w.pos remain
    let block ← load buffer 0 b.bufferSize
    let (res, s) ← out.write b.stream block
    let b := { b with stream := s, buffer := buffer }
    if res = -1 then
      return .leave (partialCount pos, b)
    else
      return .again ⟨{ b with bufferPos := 0 }, pos, subWord w.count remain⟩
  else do
    let part ← load data w.pos w.count
    let buffer ← store b.buffer b.bufferPos part
    return .leave (addWord w.pos w.count,
      { b with buffer := buffer, bufferPos := addWord b.bufferPos w.count })

def write (out : OutStream τ) (fuel : Nat) (b : BufferedOutStream τ) (data : List Byte) :
    Except Fault (Int × BufferedOutStream τ) :=
  -- Without an internal buffer the call is just redirected.
  if b.bufferSize = 0 then do
    let (r, s) ← out.write b.stream data
    return (r, { b with stream := s })
  else
    loop (writePass out data) fuel ⟨b, 0, data.length⟩

section
variable {out : OutStream τ} {data : List Byte} {w : Writing τ} {part buffer : List Byte}

variable (out) in
theorem writePass_keep (hn : addWord w.self.bufferPos w.count ≤ w.self.bufferSize)
    (hp : load data w.pos w.count = .ok part)
    (hs : store w.self.buffer w.self.bufferPos part = .ok buffer) :
    writePass out data w = .ok (.leave (addWord w.pos w.count,
      { w.self with
        buffer := buffer
        bufferPos := addWord w.self.bufferPos w.count })) := by
  unfold writePass
  rw [if_neg (by omega), hp]
  simp only [ok_bind, hs]
  rfl

/-- What a pass does when the data does not fit: fill up, hand the whole buffer
on and look at the answer. -/
theorem writePass_spill (hn : w.self.bufferSize < addWord w.self.bufferPos w.count)
    (hp : load data w.pos (subWord w.self.bufferSize w.self.bufferPos) = .ok part)
    (hs : store w.self.buffer w.self.bufferPos part = .ok buffer) {block : List Byte}
    (hl : load buffer 0 w.self.bufferSize = .ok block) {res : Int} {s : τ}
    (hw : out.write w.self.stream block = .ok (res, s)) :
    writePass out data w = .ok (
      if res = -1 then
        .leave (partialCount (addWord w.pos (subWord w.self.bufferSize w.self.bufferPos)),
          { w.self with stream := s, buffer := buffer })
      else
        .again ⟨{ w.self with stream := s, buffer := buffer, bufferPos := 0 },
          addWord w.pos (subWord w.self.bufferSize w.self.bufferPos),
          subWord w.count (subWord w.self.bufferSize w.self.bufferPos)⟩) := by
  unfold writePass
  rw [if_pos hn]
  simp only [hp, ok_bind, hs, hl, hw]
  split <;> rfl

end

def flush (out : OutStream τ) (b : BufferedOutStream τ) :
    Except Fault (Int × BufferedOutStream τ) :=
  if b.bufferSize = 0 then
    return (0, b)
  else do
    let block ← load b.buffer 0 b.bufferPos
    let (res, s) ← out.write b.stream block
    let b := { b with stream := s }
    if res = -1 then
      return (res, b)
    else
      return (res, { b with bufferPos := 0 })

/-- A buffered stream is an output stream again. -/
def outStream (out : OutStream τ) (fuel : Nat) : OutStream (BufferedOutStream τ) where
  write := write out fuel

/-- The bytes accepted by write and not yet handed to the underlying stream. -/
def pending (b : BufferedOutStream τ) : List Byte := b.buffer.take b.bufferPos

end BufferedOutStream

end CkCore
