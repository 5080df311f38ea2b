import ScryptLedger.Bytes

/-!
# Hexadecimal text

Two digits a byte, high digit first. Printing uses lower case; reading takes
either case and refuses an odd number of digits and every other character.
-/

namespace ScryptLedger.Hex

def digit (value : Nat) : Char :=
  if value < 10 then Char.ofNat (48 + value) else Char.ofNat (87 + value)

/-- The value of a digit, in either case. -/
def digitValue? (c : Char) : Option Nat :=
  if '0' ≤ c ∧ c ≤ '9' then some (c.toNat - 48)
  else if 'a' ≤ c ∧ c ≤ 'f' then some (c.toNat - 87)
  else if 'A' ≤ c ∧ c ≤ 'F' then some (c.toNat - 55)
  else none

def ofByte (b : UInt8) : List Char :=
  [digit (b.toNat / 16), digit (b.toNat % 16)]

def encode (bytes : Bytes) : String :=
  String.ofList (bytes.flatMap ofByte)

/-- Reads digits two at a time onto `read`, which holds the bytes so far, last first. -/
def decodeOnto? (read : Bytes) : List Char → Option Bytes
  | [] => some read.reverse
  | [_] => none
  | high :: low :: rest =>
    match digitValue? high, digitValue? low with
    | some h, some l => decodeOnto? (UInt8.ofNat (16 * h + l) :: read) rest
    | _, _ => none

def decode? (text : String) : Option Bytes :=
  decodeOnto? [] text.toList

/-- The text of a number in the fewest digits. -/
def ofNat (value : Nat) : String :=
  String.ofList (Nat.toDigits 16 value)

def ofWord (word : UInt32) : String :=
  encode (bigEndian 4 word.toNat)

end ScryptLedger.Hex
