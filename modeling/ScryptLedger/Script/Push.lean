import ScryptLedger.Script.Instruction
import ScryptLedger.Script.Number

/-!
# Pushes

The shortest instruction that pushes a given byte string or integer, and the
checks on scripts that consist of pushes.
-/

namespace ScryptLedger.Script

def push (data : Bytes) : Bytes :=
  match data with
  | [] => [0x00]
  | [b] =>
    if 1 ≤ b ∧ b ≤ 16 then [0x50 + b] else if b = 0x81 then [0x4f] else [0x01, b]
  | _ =>
    let length := data.length
    if length ≤ 75 then UInt8.ofNat length :: data
    else if length ≤ 255 then 0x4c :: (littleEndian 1 length ++ data)
    else if length ≤ 65535 then 0x4d :: (littleEndian 2 length ++ data)
    else 0x4e :: (littleEndian 4 length ++ data)

def pushInt (n : Int) : Bytes :=
  if n = 0 then [0x00]
  else if n = -1 ∨ (1 ≤ n ∧ n ≤ 16) then [UInt8.ofNat (0x50 + n).toNat]
  else push (ScriptNumber.encode n)

/-- Whether some data could not have been pushed in fewer bytes than by this operation. -/
def isMinimalPush (data : Bytes) (opcode : UInt8) : Bool :=
  match data with
  | [] => opcode == 0x00
  | [b] => !(1 ≤ b && b ≤ 16) && b != 0x81 && opcode == 0x01
  | _ =>
    let length := data.length
    if length ≤ 75 then opcode.toNat == length
    else if length ≤ 255 then opcode == 0x4c
    else if length ≤ 65535 then opcode == 0x4d
    else true

/-- Whether a script only pushes; the reserved operation among the small integers counts. -/
def isPushOnly (script : Bytes) : Bool :=
  (tail script).isEmpty && (instructions script).all (·.opcode ≤ 0x60)

def isPayToScriptHash (script : Bytes) : Bool :=
  script.length == 23 && script.take 2 == [0xa9, 0x14] && script.drop 22 == [0x87]

/-- The script without the pushes of a signature; an empty signature is nowhere pushed. -/
def withoutSignature (script signature : Bytes) : Bytes :=
  if signature.isEmpty then script
  else removing (fun instruction => instruction.encode == push signature) script

def withoutSeparators (script : Bytes) : Bytes :=
  if script.contains 0xab then removing (fun instruction => instruction.opcode == 0xab) script
  else script

end ScryptLedger.Script
