import CkCore.Model.Copy

namespace CkCore
open Lib

structure Exception2 where
  message : String
deriving DecidableEq

/-- A stream that throws where the one it wraps returns an error. -/
structure CanexInStream (σ : Type) where
  stream : InStream σ
  ident : String

/-- What read leaves behind; the exception is the one it throws, if any. -/
structure CanexRead (σ : Type) where
  thrown : Option Exception2
  res : ReadResult
  source : σ

structure CanexOutStream (τ : Type) where
  stream : OutStream τ
  ident : String

section
variable {σ τ π : Type}

def CanexInStream.read (self : CanexInStream σ) (source : σ) (count : Nat) :
    Except Fault (CanexRead σ) := do
  let (res, source) ← self.stream.read source count
  if res.ret = -1 then
    return ⟨some ⟨"stream read error in " ++ self.ident ++ "."⟩, res, source⟩
  else
    return ⟨none, res, source⟩

def CanexOutStream.write (self : CanexOutStream τ) (sink : τ) (buffer : List Byte) :
    Except Fault (Option Exception2 × τ) := do
  let (res, sink) ← self.stream.write sink buffer
  if res = -1 ∨ res ≠ buffer.length then
    return (some ⟨"stream write error in " ++ self.ident ++ "."⟩, sink)
  else
    return (none, sink)

variable {src : InStream σ} {out : OutStream τ} {s s' : σ} {t t' : τ} {n : Nat}
  {data : List Byte} (ident : String)

/-- A read that fails is one that throws. -/
theorem CanexInStream.read_throws (h : src.read s n = .ok (⟨-1, data⟩, s')) :
    ∃ e, (CanexInStream.mk src ident).read s n = .ok ⟨some e, ⟨-1, data⟩, s'⟩ := by
  unfold CanexInStream.read
  rw [h]
  exact ⟨_, rfl⟩

theorem CanexInStream.read_returns (h : src.read s n = .ok (⟨data.length, data⟩, s')) :
    (CanexInStream.mk src ident).read s n = .ok ⟨none, ⟨data.length, data⟩, s'⟩ := by
  have hret : (data.length : Int) ≠ -1 := by omega
  unfold CanexInStream.read
  rw [h]
  simp only [ok_bind, hret, if_false]
  rfl

/-- A write that fails is one that throws. -/
theorem CanexOutStream.write_throws (h : out.write t data = .ok (-1, t')) :
    ∃ e, (CanexOutStream.mk out ident).write t data = .ok (some e, t') := by
  unfold CanexOutStream.write
  rw [h]
  exact ⟨_, rfl⟩

theorem CanexOutStream.write_returns (h : out.write t data = .ok (data.length, t')) :
    (CanexOutStream.mk out ident).write t data = .ok (none, t') := by
  have hret : (data.length : Int) ≠ -1 := by omega
  unfold CanexOutStream.write
  rw [h]
  simp only [ok_bind, hret, ne_eq, not_true_eq_false, or_self, if_false]
  rfl

namespace Canexstream
open Copy

/-- How a copy ends: with an exception or by returning, and what it leaves behind. -/
structure Canexed (σ τ π : Type) where
  thrown : Option Exception2
  source : σ
  sink : τ
  progress : π
deriving DecidableEq

def copyPass (src : CanexInStream σ) (out : CanexOutStream τ) (progresser : Progresser π)
    (c : Copying σ τ π) : Except Fault (Pass (Copying σ τ π) (Canexed σ τ π)) :=
  if src.stream.end c.source then
    .ok (.leave ⟨none, c.source, c.sink, c.progress⟩)
  else
    let (cancelled, progress) := progresser.cancelled c.progress
    if cancelled then
      .ok (.leave ⟨none, c.source, c.sink, progress⟩)
    else do
      let ⟨thrown, res, source⟩ ← src.read c.source bufferSize
      let buffer ← store c.buffer 0 res.data
      if thrown.isSome then
        return .leave ⟨thrown, source, c.sink, progress⟩
      else
        let data ← load buffer 0 (toWord res.ret)
        let (thrown, sink) ← out.write c.sink data
        if thrown.isSome then
          return .leave ⟨thrown, source, sink, progress⟩
        else
          return .again ⟨source, sink, progresser.update progress res.ret, buffer⟩

/-- canexstream::copy(from,to,progresser). -/
def copy (src : CanexInStream σ) (out : CanexOutStream τ) (progresser : Progresser π)
    (fuel : Nat) (source : σ) (sink : τ) (progress : π) : Except Fault (Canexed σ τ π) :=
  loop (copyPass src out progresser) fuel
    ⟨source, sink, progress, List.replicate bufferSize 0⟩

def sendPass (src : CanexInStream σ) (out : CanexOutStream τ) (progresser : Progresser π)
    (c : Sending σ τ π) :
    Except Fault (Pass (Sending σ τ π) (Canexed σ τ π ⊕ Sending σ τ π)) :=
  if src.stream.end c.source = false ∧ 0 < c.size then
    let (cancelled, progress) := progresser.cancelled c.progress
    if cancelled then
      .ok (.leave (.inl ⟨none, c.source, c.sink, progress⟩))
    else do
      let ⟨thrown, res, source⟩ ← src.read c.source (amount c.size)
      let buffer ← store c.buffer 0 res.data
      if thrown.isSome then
        return .leave (.inl ⟨thrown, source, c.sink, progress⟩)
      else
        let data ← load buffer 0 (toWord res.ret)
        let (thrown, sink) ← out.write c.sink data
        if thrown.isSome then
          return .leave (.inl ⟨thrown, source, sink, progress⟩)
        else
          return .again ⟨source, sink, progresser.update progress res.ret, buffer,
            subLong c.size res.ret, res.ret⟩
  else
    .ok (.leave (.inr c))

/-- The padding reports res, which here is still the result of the last read. -/
def padPass (out : CanexOutStream τ) (progresser : Progresser π) (c : Sending σ τ π) :
    Except Fault (Pass (Sending σ τ π) (Canexed σ τ π)) :=
  if 0 < c.size then do
    let buffer ← store c.buffer 0 (List.replicate bufferSize 0)
    let data ← load buffer 0 (amount c.size)
    let (thrown, sink) ← out.write c.sink data
    if thrown.isSome then
      return .leave ⟨thrown, c.source, sink, c.progress⟩
    else
      return .again ⟨c.source, sink, progresser.update c.progress c.res, buffer,
        subLong c.size (amount c.size), c.res⟩
  else
    .ok (.leave ⟨none, c.source, c.sink, c.progress⟩)

/-- canexstream::copy(from,to,progresser,size). -/
def copySized (src : CanexInStream σ) (out : CanexOutStream τ) (progresser : Progresser π)
    (fuel : Nat) (source : σ) (sink : τ) (progress : π) (size : Nat) :
    Except Fault (Canexed σ τ π) := do
  match ← loop (sendPass src out progresser) fuel (.start source sink progress size) with
  | .inl copied => return copied
  | .inr c => loop (padPass out progresser) fuel c

end Canexstream

end

end CkCore
