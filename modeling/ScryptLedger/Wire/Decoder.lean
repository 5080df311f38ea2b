import ScryptLedger.Hash
import ScryptLedger.Wire.Error

/-!
# Decoders

A decoder takes bytes off the front of its input. It answers a value or a
cause, and in both cases the bytes it left: a field that is short leaves its
input untouched, while a compound field keeps what its earlier parts consumed.
Sizes and vectors use the compact encoding of lengths, which is accepted only
in its shortest form.
-/

namespace ScryptLedger

/-- A reader of values of type `α` from the front of a byte string. -/
abbrev Decoder (α : Type) : Type := ExceptT WireError (StateM Bytes) α

/-- The largest length any vector may announce. -/
def maxVectorSize : Nat := 0x02000000

namespace Wire

/-- The shortest form of a size: one byte below 253, else a mark and two, four or eight bytes. -/
def compactSize (size : Nat) : Bytes :=
  if size < 0xfd then littleEndian 1 size
  else if size ≤ 0xffff then 0xfd :: littleEndian 2 size
  else if size ≤ 0xffffffff then 0xfe :: littleEndian 4 size
  else 0xff :: littleEndian 8 size

def sizedBytes (bytes : Bytes) : Bytes :=
  compactSize bytes.length ++ bytes

def vector {α : Type} (encode : α → Bytes) (items : List α) : Bytes :=
  compactSize items.length ++ items.flatMap encode

end Wire

namespace Decoder

variable {α : Type}

/-- The answer of a decoder on some bytes, and the bytes it left. -/
def apply (decoder : Decoder α) (bytes : Bytes) : Except WireError α × Bytes :=
  decoder bytes

/-- Takes exactly `count` bytes, or leaves all of them. -/
def take (count : Nat) : Decoder Bytes := fun bytes =>
  let taken := bytes.take count
  if taken.length = count then (.ok taken, bytes.drop count)
  else (.error (.unexpectedEnd count taken.length), bytes)

def byte : Decoder UInt8 := return UInt8.ofNat (ofLittleEndian (← take 1))

def uint16 : Decoder UInt16 := return UInt16.ofNat (ofLittleEndian (← take 2))

def uint32 : Decoder UInt32 := return UInt32.ofNat (ofLittleEndian (← take 4))

def uint64 : Decoder UInt64 := return UInt64.ofNat (ofLittleEndian (← take 8))

def int32 : Decoder Int32 := return (← uint32).toInt32

def int64 : Decoder Int64 := return (← uint64).toInt64

def digest (size : Nat) : Decoder (Digest size) := fun bytes =>
  match Digest.ofBytes? (bytes.take size) with
  | some digest => (.ok digest, bytes.drop size)
  | none => (.error (.unexpectedEnd size (bytes.take size).length), bytes)

def hash : Decoder Hash := digest 32

/-- How many bytes follow the first byte of a size. -/
def sizeWidth (first : UInt8) : Nat :=
  if first = 0xfd then 2 else if first = 0xfe then 4 else if first = 0xff then 8 else 0

def leastOfWidth (width : Nat) : Nat :=
  if width = 0 then 0 else if width = 2 then 0xfd else if width = 4 then 0x10000 else 0x100000000

/-- A size in its shortest form; any other leaves the input untouched. -/
def size : Decoder Nat := fun bytes =>
  match bytes with
  | [] => (.error (.unexpectedEnd 1 0), [])
  | first :: rest =>
    let width := sizeWidth first
    if width = 0 then (.ok first.toNat, rest)
    else
      let digits := rest.take width
      if digits.length < width then
        (.error (.unexpectedEnd (1 + width) (1 + digits.length)), bytes)
      else if ofLittleEndian digits < leastOfWidth width then (.error .nonCanonicalSize, bytes)
      else (.ok (ofLittleEndian digits), rest.drop width)

def length : Decoder Nat := do
  let announced ← size
  if announced > maxVectorSize then throw (.oversized announced) else return announced

def sizedBytes : Decoder Bytes := do
  take (← length)

/-- Reads as many values as asked for onto `before`, which holds the ones so far, last first. -/
def replicateOnto (decoder : Decoder α) (before : List α) : (count : Nat) → Decoder (List α)
  | 0 => return before.reverse
  | count + 1 => do replicateOnto decoder ((← decoder) :: before) count

def replicate (decoder : Decoder α) (count : Nat) : Decoder (List α) :=
  replicateOnto decoder [] count

def vector (decoder : Decoder α) : Decoder (List α) := do
  replicate decoder (← length)

def finish : Decoder Unit := fun bytes =>
  match bytes with
  | [] => (.ok (), [])
  | _ :: _ => (.error (.trailing bytes.length), bytes)

/-- Reads one value and nothing else. -/
def whole (decoder : Decoder α) (bytes : Bytes) : Except WireError α :=
  (apply (do let value ← decoder; finish; return value) bytes).1

end Decoder

end ScryptLedger
