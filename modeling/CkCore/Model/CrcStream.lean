import CkCore.Model.Stream

namespace CkCore
open Lib

inductive CrcType where
  | crc16
  | crc32
  | crcCcitt
deriving DecidableEq, Repr

structure CrcStream where
  reflected : Bool
  order : Nat
  mask : BitVec 32
  initial : BitVec 32
  final : BitVec 32
  checksum : BitVec 32
  table : Vector (BitVec 32) 256

namespace CrcStream

/-- The loop of reflect: `i` walks down the bits of `crc`, `j` up those of the
result. -/
def reflectLoop (crc i j result : BitVec 32) : BitVec 32 :=
  if i = 0 then result
  else reflectLoop crc (i >>> 1) (j <<< 1) (if crc &&& i ≠ 0 then result ||| j else result)
termination_by i.toNat
decreasing_by
  rename_i h
  have hi : i.toNat ≠ 0 := fun h0 => h (BitVec.eq_of_toNat_eq h0)
  rw [BitVec.toNat_ushiftRight, Nat.shiftRight_eq_div_pow]
  omega

def reflect (crc : BitVec 32) (length : Nat) : BitVec 32 :=
  reflectLoop crc ((1 : BitVec 32) <<< (length - 1)) 1 0

/-- The members as the constructor's initialisers leave them, then its switch
on the type. The first component is the local `poly`. -/
def configure (type : CrcType) : BitVec 32 × CrcStream :=
  let self : CrcStream := {
    reflected := true
    order := 32
    mask := 0xffffffff
    initial := 0xffffffff
    final := 0xffffffff
    checksum := 0xffffffff
    table := Vector.replicate 256 0 }
  match type with
  | .crc16 =>
    (0x8005, { self with order := 16, initial := 0xffff, final := 0xffff, checksum := 0xffff })
  | .crc32 => (0x04c11db7, self)
  | .crcCcitt =>
    (0x1021, { self with
      reflected := false, order := 16, initial := 0x0000, final := 0x0000, checksum := 0x0000 })

/-- The inner loop of the constructor, with the passes still to come. Nothing
clears the bits above the order. -/
def tableLoop (high poly : BitVec 32) : Nat → BitVec 32 → BitVec 32
  | 0, crc => crc
  | n + 1, crc =>
    tableLoop high poly n (if crc &&& high ≠ 0 then (crc <<< 1) ^^^ poly else crc <<< 1)

def tableEntry (self : CrcStream) (high poly : BitVec 32) (i : Nat) : BitVec 32 :=
  let start :=
    (if self.reflected then reflect (.ofNat 32 i) 8 else .ofNat 32 i) <<< (self.order - 8)
  let crc := tableLoop high poly 8 start
  (if self.reflected then reflect crc self.order else crc) &&& self.mask

def create (type : CrcType) : CrcStream :=
  let (poly, self) := configure type
  let high := (1 : BitVec 32) <<< (self.order - 1)
  let self := { self with mask := ((high - 1) <<< 1) ||| 1 }
  { self with table := .ofFn fun i => tableEntry self high poly i }

def reset (self : CrcStream) : CrcStream := { self with checksum := self.initial }

/-- The member function checksum; the field holds `checksum_`. -/
def result (self : CrcStream) : BitVec 32 := self.checksum ^^^ self.final

/-- The table index of a register value and a byte is below 256. -/
theorem index_lt (low : BitVec 32) (byte : Byte) :
    ((low &&& 0xff) ^^^ byte.toBitVec.setWidth 32).toNat < 256 := by
  have hlow : (low &&& 0xff).toNat < 2 ^ 8 := by
    rw [BitVec.toNat_and]
    exact Nat.and_lt_two_pow _ (by decide)
  have hbyte : (byte.toBitVec.setWidth 32).toNat < 2 ^ 8 := by
    rw [BitVec.toNat_setWidth]
    have := byte.toBitVec.isLt
    omega
  rw [BitVec.toNat_xor]
  exact Nat.xor_lt_two_pow hlow hbyte

def lookup (self : CrcStream) (low : BitVec 32) (byte : Byte) : BitVec 32 :=
  self.table.get ⟨((low &&& 0xff) ^^^ byte.toBitVec.setWidth 32).toNat, index_lt low byte⟩

/-- One pass of the loop of write. -/
def writePass (self : CrcStream) (byte : Byte) : CrcStream :=
  if self.reflected then
    { self with checksum := (self.checksum >>> 8) ^^^ self.lookup self.checksum byte }
  else
    { self with checksum := ((self.checksum <<< 8) ^^^
        self.lookup (self.checksum >>> (self.order - 8)) byte) &&& self.mask }

def write (self : CrcStream) (buffer : List Byte) : Int × CrcStream :=
  (buffer.length, buffer.foldl writePass self)

def outStream : OutStream CrcStream where
  write self buffer := .ok (write self buffer)

end CrcStream
end CkCore
