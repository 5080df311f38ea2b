import ScryptLedger.Script.Flags

/-!
# Operation bytes

The classes of operation bytes that limits and flags speak about, and the
bytes of the small integers.
-/

namespace ScryptLedger.Opcode

def isPush (opcode : UInt8) : Bool := opcode ≤ 0x60

/-- Whether an operation counts towards the limit on operations. -/
def isCounted (opcode : UInt8) : Bool := 0x60 < opcode

/-- The string, bitwise and division operations that the legacy rules refuse wherever they
stand. -/
def isLegacyDisabled (opcode : UInt8) : Bool :=
  [0x7e, 0x7f, 0x80, 0x81, 0x84, 0x85, 0x86, 0x96, 0x97].contains opcode

def isAlwaysDisabled (opcode : UInt8) : Bool :=
  [0x83, 0x8d, 0x8e, 0x95, 0x98, 0x99].contains opcode

def isDisabled (opcode : UInt8) (flags : ScriptFlags) : Bool :=
  isAlwaysDisabled opcode || (flags.legacyRules && isLegacyDisabled opcode)

/-- The operations that the legacy rules do not know, and refuse where they are run. -/
def isLegacyRemoved (opcode : UInt8) : Bool :=
  [0xba, 0xbb, 0xbc].contains opcode

def smallInt? (opcode : UInt8) : Option Nat :=
  if opcode = 0 then some 0
  else if 0x51 ≤ opcode ∧ opcode ≤ 0x60 then some (opcode.toNat - 0x50)
  else none

def ofSmallInt (n : Nat) : UInt8 :=
  if n = 0 then 0 else UInt8.ofNat (0x50 + n)

end ScryptLedger.Opcode
