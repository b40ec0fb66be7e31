import CkCore.Model.BufferedStream

namespace CkCore
open Lib

/-- The size a buffered stream gives its buffer. -/
def bufferOf (size : Nat) : Nat := if size = 0 then 8192 else size

/-- Buffered input streams on top of each other; the sizes of their buffers are
listed from the outermost stream on. -/
def InTower (σ : Type) : List Nat → Type
  | [] => σ
  | _ :: sizes => BufferedInStream (InTower σ sizes)

namespace InTower
variable {σ : Type}

def inStream (src : InStream σ) (fuel : Nat) : (sizes : List Nat) → InStream (InTower σ sizes)
  | [] => src
  | _ :: sizes => BufferedInStream.inStream (inStream src fuel sizes) fuel

def init (s : σ) : (sizes : List Nat) → InTower σ sizes
  | [] => s
  | n :: sizes => BufferedInStream.init (init s sizes) n

end InTower

/-- Buffered output streams on top of each other, the outermost first. -/
def OutTower (τ : Type) : List Nat → Type
  | [] => τ
  | _ :: sizes => BufferedOutStream (OutTower τ sizes)

namespace OutTower
variable {τ : Type}

def outStream (out : OutStream τ) (fuel : Nat) : (sizes : List Nat) → OutStream (OutTower τ sizes)
  | [] => out
  | _ :: sizes => BufferedOutStream.outStream (outStream out fuel sizes) fuel

def init (t : τ) : (sizes : List Nat) → OutTower τ sizes
  | [] => t
  | n :: sizes => BufferedOutStream.init (init t sizes) n

def base : (sizes : List Nat) → OutTower τ sizes → τ
  | [], t => t
  | _ :: sizes, b => base sizes b.stream

/-- What the streams of the tower have accepted and not handed on yet, in the
order in which it was written. -/
def pending : (sizes : List Nat) → OutTower τ sizes → List Byte
  | [], _ => []
  | _ :: sizes, b => pending sizes b.stream ++ BufferedOutStream.pending b

/-- A flush of the stream at some height, counted from the outermost one. -/
def flushAt (out : OutStream τ) (fuel : Nat) :
    (sizes : List Nat) → Nat → OutTower τ sizes → Except Fault (OutTower τ sizes)
  | [], _, t => .ok t
  | _ :: sizes, 0, b => do
    let (_, b) ← BufferedOutStream.flush (outStream out fuel sizes) b
    return b
  | _ :: sizes, n + 1, b => do
    let stream ← flushAt out fuel sizes n b.stream
    return { b with stream := stream }

/-- A flush of every stream, from the outermost one down. -/
def flushAll (out : OutStream τ) (fuel : Nat) :
    (sizes : List Nat) → OutTower τ sizes → Except Fault (OutTower τ sizes)
  | [], t => .ok t
  | _ :: sizes, b => do
    let (_, b) ← BufferedOutStream.flush (outStream out fuel sizes) b
    let stream ← flushAll out fuel sizes b.stream
    return { b with stream := stream }

/-- What a client does with a tower: it writes to the outermost stream and
flushes any of them. -/
inductive TowerCall where
  | write (data : List Byte)
  | flush (height : Nat)

/-- What the writes return, and the tower after the call. -/
def perform (out : OutStream τ) (fuel : Nat) (sizes : List Nat) (t : OutTower τ sizes) :
    TowerCall → Except Fault (List Int × OutTower τ sizes)
  | .write data => do
    let (r, t) ← (outStream out fuel sizes).write t data
    return ([r], t)
  | .flush height => do
    let t ← flushAt out fuel sizes height t
    return ([], t)

def performs (out : OutStream τ) (fuel : Nat) (sizes : List Nat) (t : OutTower τ sizes) :
    List TowerCall → Except Fault (List Int × OutTower τ sizes)
  | [] => .ok ([], t)
  | c :: cs => do
    let (r, t) ← perform out fuel sizes t c
    let (rs, t) ← performs out fuel sizes t cs
    return (r ++ rs, t)

/-- The data of the writes among the calls. -/
def writes : List TowerCall → List (List Byte)
  | [] => []
  | .write data :: cs => data :: writes cs
  | .flush _ :: cs => writes cs

/-- Writes of at most `most` bytes fit the words of every stream of the tower:
each is handed the blocks of the one above it. -/
def fitting (most : Nat) : List Nat → Prop
  | [] => True
  | n :: sizes => bufferOf n + most < word ∧ fitting (bufferOf n) sizes

end OutTower

end CkCore
