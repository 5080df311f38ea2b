import ScryptLedger.Script.StackOp

/-!
# Operations

What each operation byte that is not a push asks for. Bytes that ask for
nothing are unknown; among them are some that conditionals never hide.
-/

namespace ScryptLedger.Script

inductive Operation where
  /-- IF, or NOTIF when negated. -/
  | ifTrue (negated : Bool)
  | otherwise
  | endIf
  | stack (op : StackOp)
  | toAlt
  | fromAlt
  | nop
  /-- Does nothing yet; its byte is reserved for later rules. -/
  | reservedNop
  | checkLockTime
  | checkSequence
  | fail
  | codeSeparator
  | checkSig (verify : Bool)
  | checkDataSig (verify : Bool)
  | checkMultisig (verify : Bool)
deriving DecidableEq, Repr

def Operation.ofByte? (opcode : UInt8) : Option Operation :=
  match opcode.toNat with
  | 0x4f => some (.stack (.number (-1)))
  | 0x61 => some .nop
  | 0x63 => some (.ifTrue false)
  | 0x64 => some (.ifTrue true)
  | 0x67 => some .otherwise
  | 0x68 => some .endIf
  | 0x69 => some (.stack .verify)
  | 0x6a => some .fail
  | 0x6b => some .toAlt
  | 0x6c => some .fromAlt
  | 0x6d => some (.stack (.shuffle .drop2))
  | 0x6e => some (.stack (.shuffle .dup2))
  | 0x6f => some (.stack (.shuffle .dup3))
  | 0x70 => some (.stack (.shuffle .over2))
  | 0x71 => some (.stack (.shuffle .rot2))
  | 0x72 => some (.stack (.shuffle .swap2))
  | 0x73 => some (.stack .ifDup)
  | 0x74 => some (.stack .depth)
  | 0x75 => some (.stack (.shuffle .drop))
  | 0x76 => some (.stack (.shuffle .dup))
  | 0x77 => some (.stack (.shuffle .nip))
  | 0x78 => some (.stack (.shuffle .over1))
  | 0x79 => some (.stack .pick)
  | 0x7a => some (.stack .roll)
  | 0x7b => some (.stack (.shuffle .rot))
  | 0x7c => some (.stack (.shuffle .swap))
  | 0x7d => some (.stack (.shuffle .tuck))
  | 0x7e => some (.stack .cat)
  | 0x7f => some (.stack .split)
  | 0x80 => some (.stack .toBinary)
  | 0x81 => some (.stack .toNumber)
  | 0x82 => some (.stack .size)
  | 0x84 => some (.stack (.bitwise .and))
  | 0x85 => some (.stack (.bitwise .or))
  | 0x86 => some (.stack (.bitwise .xor))
  | 0x87 => some (.stack .equal)
  | 0x88 => some (.stack .equalVerify)
  | 0x8b => some (.stack (.unary .increment))
  | 0x8c => some (.stack (.unary .decrement))
  | 0x8f => some (.stack (.unary .negate))
  | 0x90 => some (.stack (.unary .abs))
  | 0x91 => some (.stack (.unary .isZero))
  | 0x92 => some (.stack (.unary .isNonZero))
  | 0x93 => some (.stack (.binary .add))
  | 0x94 => some (.stack (.binary .sub))
  | 0x96 => some (.stack (.binary .div))
  | 0x97 => some (.stack (.binary .mod))
  | 0x9a => some (.stack (.binary .both))
  | 0x9b => some (.stack (.binary .either))
  | 0x9c => some (.stack (.binary .equal))
  | 0x9d => some (.stack .numEqualVerify)
  | 0x9e => some (.stack (.binary .unequal))
  | 0x9f => some (.stack (.binary .less))
  | 0xa0 => some (.stack (.binary .greater))
  | 0xa1 => some (.stack (.binary .lessOrEqual))
  | 0xa2 => some (.stack (.binary .greaterOrEqual))
  | 0xa3 => some (.stack (.binary .min))
  | 0xa4 => some (.stack (.binary .max))
  | 0xa5 => some (.stack .within)
  | 0xa6 => some (.stack (.hash .ripemd160))
  | 0xa7 => some (.stack (.hash .sha1))
  | 0xa8 => some (.stack (.hash .sha256))
  | 0xa9 => some (.stack (.hash .hash160))
  | 0xaa => some (.stack (.hash .hash256))
  | 0xab => some .codeSeparator
  | 0xac => some (.checkSig false)
  | 0xad => some (.checkSig true)
  | 0xae => some (.checkMultisig false)
  | 0xaf => some (.checkMultisig true)
  | 0xb0 => some .reservedNop
  | 0xb1 => some .checkLockTime
  | 0xb2 => some .checkSequence
  | 0xba => some (.checkDataSig false)
  | 0xbb => some (.checkDataSig true)
  | 0xbc => some (.stack .reverse)
  | n =>
    if 0x51 ≤ n ∧ n ≤ 0x60 then some (.stack (.number (n - 0x50)))
    else if 0xb3 ≤ n ∧ n ≤ 0xb9 then some .reservedNop
    else none

end ScryptLedger.Script
