import CkCore.Model.Stream
import CkCore.Lib.Loop

namespace CkCore
open Lib

inductive Encoding where
  | ansi
  | utf1
  | utf7
  | utf8
  | utf16be
  | utf16le
  | utf32be
  | utf32le
  | utfebcdic
  | scsu
  | bocu1
deriving DecidableEq, Repr

/-- What the template uses of its character type: its size, what a unit read
into memory is worth, and the two terminators. -/
structure CharType (T : Type) where
  size : Nat
  ofBytes : List Byte → T
  cr : T
  lf : T
  positive : 0 < size
  distinct : cr ≠ lf

def CharType.char : CharType Byte where
  size := 1
  ofBytes bytes := bytes.headD 0
  cr := 13
  lf := 10
  positive := by decide
  distinct := by decide

/-- A short has its low byte in front. -/
def CharType.short : CharType UInt16 where
  size := 2
  ofBytes bytes := (bytes.getD 0 0).toUInt16 + 256 * (bytes.getD 1 0).toUInt16
  cr := 13
  lf := 10
  positive := by decide
  distinct := by decide

structure LineReader (T σ : Type) where
  encoding : Encoding
  nextStr : List T
  stream : σ

namespace LineReader

section
variable {T σ : Type}

/-- One test of the detection: the mark is compared with the front of the
array, and a hit skips some bytes. -/
def check (src : InStream σ) (bom : Nat → Byte) (mark : List Byte) (encoding : Encoding)
    (skip : Nat) (found : Encoding × σ) : Except Fault (Encoding × σ) := do
  if mark.zipIdx.all fun (byte, i) => bom i == byte then
    let (_, stream) ← src.seek found.2 skip .current
    return (encoding, stream)
  else return found

/-- The static encoding. `stale` is what the local array holds before the read. -/
def detect (src : InStream σ) (stale : Nat → Byte) (stream : σ) :
    Except Fault (Encoding × σ) := do
  let (r, stream) ← src.read stream 4
  let bom := fun i => r.data.getD i (stale i)
  let (_, stream) ← src.seek stream 0 .begin
  let found := (Encoding.ansi, stream)
  if r.ret < 2 then return found
  let found ← check src bom [0xfe, 0xff] .utf16be 2 found
  let found ← check src bom [0xff, 0xfe] .utf16le 2 found
  if r.ret < 3 then return found
  let found ← check src bom [0xf7, 0x64, 0x4c] .utf1 3 found
  let found ← check src bom [0xef, 0xbb, 0xbf] .utf8 3 found
  let found ← check src bom [0x0e, 0xfe, 0xff] .scsu 3 found
  let found ← check src bom [0xfb, 0xee, 0x28] .bocu1 3 found
  if r.ret ≠ 4 then return found
  let found ← check src bom [0x00, 0x00, 0xfe, 0xff] .utf32be 4 found
  -- UTF-16 has skipped two of these bytes already, BOCU-1 below three.
  let found ← check src bom [0xff, 0xfe, 0x00, 0x00] .utf32le 2 found
  let found ← check src bom [0xdd, 0x73, 0x66, 0x73] .utfebcdic 4 found
  check src bom [0xfb, 0xee, 0x28, 0xff] found.1 1 found

def create (src : InStream σ) (stale : Nat → Byte) (stream : σ) :
    Except Fault (LineReader T σ) := do
  let (encoding, stream) ← detect src stale stream
  return ⟨encoding, [], stream⟩

def «end» (src : InStream σ) (self : LineReader T σ) : Bool :=
  src.end self.stream && self.nextStr.length == 0

variable [DecidableEq T]

/-- One pass of the loop of read_line over the line so far. -/
def linePass (type : CharType T) (src : InStream σ) :
    List T × LineReader T σ →
      Except Fault (Pass (List T × LineReader T σ) (List T × LineReader T σ))
  | (line, self) => do
    if src.end self.stream then return .leave (line, self)
    let (read, stream) ← src.read self.stream type.size
    let c := type.ofBytes read.data
    if read.ret ≠ type.size then return .leave (line, { self with stream := stream })
    else if c = type.lf then return .leave (line, { self with stream := stream })
    else if c = type.cr then
      let (read, stream) ← src.read stream type.size
      let next := type.ofBytes read.data
      if read.ret = type.size ∧ next ≠ type.lf then
        return .leave (line, { self with nextStr := self.nextStr ++ [next], stream := stream })
      else return .leave (line, { self with stream := stream })
    else return .again (line ++ [c], { self with stream := stream })

def readLine (type : CharType T) (src : InStream σ) (fuel : Nat) (self : LineReader T σ) :
    Except Fault (List T × LineReader T σ) :=
  loop (linePass type src) fuel (self.nextStr, { self with nextStr := [] })

end
end LineReader
end CkCore
