import CkCore.Model.Stream

namespace CkCore
open Lib

/-- The values of tuint64, as numbers below 2^64. -/
def longWord : Nat := 0x10000000000000000

/-- What a copy uses of a Progresser: whether the user cancelled, and the
report of a number of bytes. -/
structure Progresser (π : Type) where
  cancelled : π → Bool × π
  update : π → Int → π

/-- A copy without progress is never cancelled and reports to nobody. -/
def Progresser.none : Progresser Unit where
  cancelled p := (false, p)
  update p _ := p

namespace Copy
variable {σ τ π : Type}

/-- The loop of copy: both streams, the progress object and the local buffer. -/
structure Copying (σ τ π : Type) where
  source : σ
  sink : τ
  progress : π
  buffer : List Byte

/-- The returned flag and what the copy leaves behind. -/
structure Copied (σ τ π : Type) where
  ret : Bool
  source : σ
  sink : τ
  progress : π
deriving DecidableEq

def bufferSize : Nat := 8192

def copyPass (src : InStream σ) (out : OutStream τ) (progresser : Progresser π)
    (c : Copying σ τ π) : Except Fault (Pass (Copying σ τ π) (Copied σ τ π)) :=
  if src.end c.source then
    .ok (.leave ⟨true, c.source, c.sink, c.progress⟩)
  else
    let (cancelled, progress) := progresser.cancelled c.progress
    if cancelled then
      .ok (.leave ⟨false, c.source, c.sink, progress⟩)
    else do
      let (res, source) ← src.read c.source bufferSize
      let buffer ← store c.buffer 0 res.data
      if res.ret = -1 then
        return .leave ⟨false, source, c.sink, progress⟩
      else
        let data ← load buffer 0 (toWord res.ret)
        let (written, sink) ← out.write c.sink data
        if written = -1 then
          return .leave ⟨false, source, sink, progress⟩
        else
          return .again ⟨source, sink, progresser.update progress written, buffer⟩

/-- stream::copy(from,to,progresser). -/
def copyProgresser (src : InStream σ) (out : OutStream τ) (progresser : Progresser π)
    (fuel : Nat) (source : σ) (sink : τ) (progress : π) : Except Fault (Copied σ τ π) :=
  loop (copyPass src out progresser) fuel
    ⟨source, sink, progress, List.replicate bufferSize 0⟩

/-- stream::copy(from,to) is the same loop without the progress calls. -/
def copy (src : InStream σ) (out : OutStream τ) (fuel : Nat) (source : σ) (sink : τ) :
    Except Fault (Copied σ τ Unit) :=
  copyProgresser src out Progresser.none fuel source sink ()

/-- What was read is stored in the buffer, and taken out of it again. -/
theorem through_buffer {buffer data : List Byte} (hb : buffer.length = bufferSize)
    (hlen : data.length ≤ bufferSize) :
    ∃ buffer', store buffer 0 data = .ok buffer' ∧ buffer'.length = bufferSize ∧
      load buffer' 0 (toWord data.length) = .ok data := by
  have hword : bufferSize < word := by decide
  obtain ⟨buffer', hstore, hlength, hload⟩ := store_load buffer data (by omega)
  refine ⟨buffer', hstore, hlength.trans hb, ?_⟩
  rw [toWord_nat (by omega)]
  exact hload

/-- The locals of the copy of a given size; size counts down. -/
structure Sending (σ τ π : Type) where
  source : σ
  sink : τ
  progress : π
  buffer : List Byte
  size : Nat
  res : Int

/-- size -= res on a tuint64. -/
def subLong (size : Nat) (res : Int) : Nat :=
  (((size : Int) - res) % (longWord : Int)).toNat

/-- How much to read or to write at once. -/
def amount (size : Nat) : Nat :=
  if size < bufferSize then toWord size else bufferSize

/-- The loop that sends the source: it returns from the copy, or ends. -/
def sendPass (src : InStream σ) (out : OutStream τ) (progresser : Progresser π)
    (c : Sending σ τ π) :
    Except Fault (Pass (Sending σ τ π) (Copied σ τ π ⊕ Sending σ τ π)) :=
  if src.end c.source = false ∧ 0 < c.size then
    let (cancelled, progress) := progresser.cancelled c.progress
    if cancelled then
      .ok (.leave (.inl ⟨false, c.source, c.sink, progress⟩))
    else do
      let (res, source) ← src.read c.source (amount c.size)
      let buffer ← store c.buffer 0 res.data
      if res.ret = -1 then
        return .leave (.inl ⟨false, source, c.sink, progress⟩)
      else
        let data ← load buffer 0 (toWord res.ret)
        let (written, sink) ← out.write c.sink data
        if written = -1 then
          return .leave (.inl ⟨false, source, sink, progress⟩)
        else
          return .again ⟨source, sink, progresser.update progress written, buffer,
            subLong c.size written, written⟩
  else
    .ok (.leave (.inr c))

/-- The loop that pads with zeros. -/
def padPass (out : OutStream τ) (progresser : Progresser π) (c : Sending σ τ π) :
    Except Fault (Pass (Sending σ τ π) (Copied σ τ π)) :=
  if 0 < c.size then do
    let buffer ← store c.buffer 0 (List.replicate bufferSize 0)
    let data ← load buffer 0 (amount c.size)
    let (written, sink) ← out.write c.sink data
    if written = -1 then
      return .leave ⟨false, c.source, sink, c.progress⟩
    else
      return .again ⟨c.source, sink, progresser.update c.progress written, buffer,
        subLong c.size written, written⟩
  else
    .ok (.leave ⟨true, c.source, c.sink, c.progress⟩)

/-- What the locals are at first. -/
def Sending.start (source : σ) (sink : τ) (progress : π) (size : Nat) : Sending σ τ π :=
  ⟨source, sink, progress, List.replicate bufferSize 0, size, 0⟩

/-- stream::copy(from,to,progresser,size). -/
def copySized (src : InStream σ) (out : OutStream τ) (progresser : Progresser π)
    (fuel : Nat) (source : σ) (sink : τ) (progress : π) (size : Nat) :
    Except Fault (Copied σ τ π) := do
  match ← loop (sendPass src out progresser) fuel (.start source sink progress size) with
  | .inl copied => return copied
  | .inr c => loop (padPass out progresser) fuel c

end Copy

end CkCore
