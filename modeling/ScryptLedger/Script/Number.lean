import ScryptLedger.Bytes
import ScryptLedger.Script.Error

/-!
# Script numbers

Scripts compute with integers written as byte strings: the magnitude, least
significant byte first, with the sign in the highest bit of the last byte. Each
integer has one minimal form; padded forms and a negative zero are readable
too, and are refused only where minimal encoding is asked for.
-/

namespace ScryptLedger.ScriptNumber

def value (bytes : Bytes) : Int :=
  match bytes.getLast? with
  | none => 0
  | some last =>
    if last < 0x80 then ofLittleEndian bytes
    else -(ofLittleEndian bytes - (0x80 <<< (8 * (bytes.length - 1)) : Nat))

/-- The bytes of a magnitude, without leading zeros. -/
def magnitude (n : Nat) : Bytes :=
  if n = 0 then [] else littleEndian (n.log2 / 8 + 1) n

def encode (n : Int) : Bytes :=
  let bytes := magnitude n.natAbs
  match bytes.getLast? with
  | none => []
  | some last =>
    if last < 0x80 then
      if n < 0 then bytes.dropLast ++ [last ||| 0x80] else bytes
    else bytes ++ [if n < 0 then 0x80 else 0x00]

/-- Whether the last byte of a form is there for more than a sign. -/
def isMinimalForm (bytes : Bytes) : Bool :=
  match bytes.reverse with
  | [] => true
  | [last] => last &&& 0x7f != 0
  | last :: before :: _ => last &&& 0x7f != 0 || 0x80 ≤ before

def isMinimal (bytes : Bytes) (maxLength : Nat) : Bool :=
  bytes.length ≤ maxLength && isMinimalForm bytes

/-- Reads an integer of at most `maxLength` bytes, in minimal form where that is asked for. -/
def decode (bytes : Bytes) (requireMinimal : Bool) (maxLength : Nat) : Except ScriptError Int :=
  if bytes.length > maxLength then throw .unknown
  else if requireMinimal && !isMinimal bytes maxLength then throw .minimalData
  else return value bytes

def stripZeros (bytes : Bytes) : Bytes :=
  (bytes.reverse.dropWhile (· == 0)).reverse

/-- The minimal form of the integer a byte string stands for, found by dropping padding. -/
def minimize (bytes : Bytes) : Bytes :=
  match bytes.getLast? with
  | none => []
  | some last =>
    if last &&& 0x7f != 0 then bytes
    else
      let body := stripZeros bytes.dropLast
      match body.getLast? with
      | none => []
      | some high =>
        if high < 0x80 then body.dropLast ++ [high ||| last] else body ++ [last]

/-- The form of exactly `size` bytes of the integer a byte string stands for. -/
def resize (bytes : Bytes) (size : Nat) : Except ScriptError Bytes :=
  let short := minimize bytes
  if short.length > size then throw .impossibleEncoding
  else
    match short.getLast? with
    | none => return List.replicate size 0
    | some last =>
      if short.length = size then return short
      else
        return short.dropLast ++ (last &&& 0x7f) :: List.replicate (size - short.length - 1) 0
          ++ [last &&& 0x80]

/-- Whether a byte string stands for an integer other than zero. -/
def isTrue : Bytes → Bool
  | [] => false
  | [last] => last != 0 && last != 0x80
  | first :: rest => first != 0 || isTrue rest

def ofBool (b : Bool) : Bytes :=
  if b then [1] else []

end ScryptLedger.ScriptNumber
