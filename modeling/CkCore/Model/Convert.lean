import CkCore.Model.Stream

namespace CkCore.Convert
open Lib

def intToStrBuflen : Nat := 30

def zero : Byte := 48

def minus : Byte := 45

/-- tchar('0' + value%10). -/
def digit (value : BitVec 64) : Byte := ⟨(48 + value % 10).setWidth 8⟩

/-- The locals of ui64_to_str2; the pointer is an index into the caller's buffer. -/
structure Digits where
  value : BitVec 64
  p : Nat
  buffer : List Byte

def digitPass (c : Digits) : Except Fault (Pass Digits Digits) := do
  let buffer ← store c.buffer c.p [digit c.value]
  let c : Digits := ⟨c.value / 10, c.p + 1, buffer⟩
  if c.value ≠ 0 then return .again c else return .leave c

/-- std::reverse over the elements from `first` up to `last`. -/
def reverse (buffer : List Byte) (first last : Nat) : List Byte :=
  buffer.take first ++ ((buffer.drop first).take (last - first)).reverse ++ buffer.drop last

/-- ui64_to_str2 on the buffer from `start` on; none when its assertion fails. -/
def ui64ToStr2 (value : BitVec 64) (buffer : List Byte) (start fuel : Nat) :
    Except Fault (Option (List Byte)) :=
  if value = 0 then do
    let buffer ← store buffer start [zero]
    let buffer ← store buffer (start + 1) [0]
    return some buffer
  else do
    let c ← loop digitPass fuel ⟨value, start, buffer⟩
    let buffer ← store (reverse c.buffer start c.p) c.p [0]
    if c.p - start < intToStrBuflen then return some buffer else return none

/-- The negation wraps around. -/
def i64ToStr2 (value : BitVec 64) (buffer : List Byte) (fuel : Nat) :
    Except Fault (Option (List Byte)) :=
  if value.toInt ≥ 0 then ui64ToStr2 value buffer 0 fuel
  else do
    let buffer ← store buffer 0 [minus]
    ui64ToStr2 (-value) buffer 1 fuel

def i32ToStr2 (value : BitVec 32) (buffer : List Byte) (fuel : Nat) :
    Except Fault (Option (List Byte)) :=
  i64ToStr2 (value.signExtend 64) buffer fuel

def ui32ToStr2 (value : BitVec 32) (buffer : List Byte) (fuel : Nat) :
    Except Fault (Option (List Byte)) :=
  ui64ToStr2 (value.setWidth 64) buffer 0 fuel

end CkCore.Convert
