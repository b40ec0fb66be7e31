import CkCore.Model.Copy

namespace CkCore
open Lib

/-- What a copy calls of a Progress object. -/
structure Progress (π : Type) where
  setMarquee : π → Bool → π
  setProgress : π → Byte → π
  cancelled : π → Bool × π

namespace Copy
variable {σ τ π : Type}

/-- The result of an operation on tint64, which wraps around. -/
def toLong (i : Int) : Int := i.bmod longWord

/-- (unsigned char)((written * 100)/total); a division by zero traps. -/
def percent (written total : Int) : Option Byte :=
  if total = 0 then none else some (UInt8.ofInt ((toLong (written * 100)).tdiv total))

/-- The locals of the copy that reports percentages. -/
structure Tracking (σ τ π : Type) where
  source : σ
  sink : τ
  progress : π
  buffer : List Byte
  written : Int

/-- A pass leaves with nothing when it traps. -/
def trackPass (src : InStream σ) (out : OutStream τ) (progress : Progress π) (total : Int)
    (c : Tracking σ τ π) : Except Fault (Pass (Tracking σ τ π) (Option (Copied σ τ π))) :=
  if src.end c.source then
    .ok (.leave (some ⟨true, c.source, c.sink, c.progress⟩))
  else
    let (cancelled, p) := progress.cancelled c.progress
    if cancelled then
      .ok (.leave (some ⟨false, c.source, c.sink, p⟩))
    else do
      let (res, source) ← src.read c.source bufferSize
      let buffer ← store c.buffer 0 res.data
      if res.ret = -1 then
        return .leave (some ⟨false, source, c.sink, p⟩)
      else
        let data ← load buffer 0 (toWord res.ret)
        let (res, sink) ← out.write c.sink data
        if res = -1 then
          return .leave (some ⟨false, source, sink, p⟩)
        else if total ≠ -1 then
          let written := toLong (c.written + res)
          match percent written total with
          | none => return .leave none
          | some percent =>
            return .again ⟨source, sink, progress.setProgress p percent, buffer, written⟩
        else
          return .again ⟨source, sink, p, buffer, c.written⟩

/-- What the locals are in front of the loop. -/
def Tracking.start (source : σ) (sink : τ) (progress : π) : Tracking σ τ π :=
  ⟨source, sink, progress, List.replicate bufferSize 0, 0⟩

/-- stream::copy(from,to,progress). -/
def copyProgress (src : InStream σ) (out : OutStream τ) (progress : Progress π) (fuel : Nat)
    (source : σ) (sink : τ) (p : π) : Except Fault (Option (Copied σ τ π)) := do
  let total := src.size source
  let p := progress.setMarquee p (total = -1)
  match ← loop (trackPass src out progress total) fuel (.start source sink p) with
  | none => return none
  | some copied =>
    -- Only a copy that came to the end of the source gets as far as this.
    if copied.ret ∧ total ≠ -1 then
      return some { copied with progress := progress.setProgress copied.progress 100 }
    else
      return some copied

end Copy

end CkCore
