import CkCore.Lib.Crc
import CkCore.Model.CrcStream

namespace CkCore
open Lib

/-- A CRC as its parameters describe it, apart from any table. -/
structure CrcReference where
  width : Nat
  poly : BitVec width
  initial : BitVec width
  final : BitVec width
  reflected : Bool

namespace CrcReference

/-- The bits of a byte in the order they enter the register: least significant
first when reflected. -/
def bits (c : CrcReference) (byte : Byte) : List Bool :=
  if c.reflected then (List.range 8).map fun i => byte.toBitVec.getLsbD i
  else (List.range 8).map fun i => byte.toBitVec.getMsbD i

/-- The register after the whole message, one bit at a time. -/
def register (c : CrcReference) (message : List Byte) : BitVec c.width :=
  Crc.feeds c.poly c.initial (message.flatMap c.bits)

def output (c : CrcReference) (r : BitVec c.width) : BitVec c.width :=
  if c.reflected then r.reverse else r

def crc (c : CrcReference) (message : List Byte) : BitVec c.width :=
  c.output (c.register message) ^^^ c.final

def standard : CrcType → CrcReference
  | .crc16 => ⟨16, 0x8005, .allOnes 16, .allOnes 16, true⟩
  | .crc32 => ⟨32, 0x04c11db7, .allOnes 32, .allOnes 32, true⟩
  | .crcCcitt => ⟨16, 0x1021, 0, 0, false⟩

end CrcReference

inductive CrcCall where
  | write (buffer : List Byte)
  | reset

def CrcCall.after (message : List Byte) : CrcCall → List Byte
  | .write buffer => message ++ buffer
  | .reset => []

/-- What has been written since the stream was created or last reset. -/
def CrcCall.message (calls : List CrcCall) : List Byte := calls.foldl after []

namespace CrcStream

def call (self : CrcStream) : CrcCall → CrcStream
  | .write buffer => (self.write buffer).2
  | .reset => self.reset

def calls (self : CrcStream) (cs : List CrcCall) : CrcStream := cs.foldl call self

/-- The checksum as it is sent behind a message: its bytes in the order in which
the bits of a byte are consumed. -/
def trailer (self : CrcStream) : List Byte :=
  (List.range (self.order / 8)).map fun i =>
    .ofBitVec ((self.result >>>
      (if self.reflected then i * 8 else self.order - 8 - i * 8)).setWidth 8)

/-- What is left of a message with its checksum behind it. -/
def residue : CrcType → BitVec 32
  | .crc16 => 0x4ffe
  | .crc32 => 0x2144df1c
  | .crcCcitt => 0

end CrcStream
end CkCore
