/-!
# Why scripts fail

Every cause for which a script, a signature or a key is refused, with the one
wording of each.
-/

namespace ScryptLedger

inductive ScriptError where
  | unknown
  | evalFalse
  | opReturn
  | scriptSize
  | pushSize
  | opCount
  | stackSize
  | sigCount
  | pubkeyCount
  | invalidOperandSize
  | invalidNumberRange
  | impossibleEncoding
  | invalidSplitRange
  | divByZero
  | modByZero
  | verify
  | equalVerify
  | checkMultisigVerify
  | checkSigVerify
  | checkDataSigVerify
  | numEqualVerify
  | badOpcode
  | disabledOpcode
  | invalidStackOperation
  | invalidAltstackOperation
  | unbalancedConditional
  | negativeLocktime
  | unsatisfiedLocktime
  | sigHashType
  | sigDer
  | minimalData
  | sigPushOnly
  | sigHighS
  | sigNullDummy
  | pubkeyType
  | cleanStack
  | minimalIf
  | sigNullFail
  | discourageUpgradableNops
  | illegalForkId
  | mustUseForkId
  | sigBadLength
  | sigNonSchnorr
  | bitfieldSize
  | bitRange
  | invalidBitCount
  | sigChecksLimitExceeded
deriving DecidableEq, Repr

def ScriptError.message : ScriptError → String
  | unknown => "unknown error"
  | evalFalse => "Script evaluated without error but finished with a false/empty top stack element"
  | opReturn => "OP_RETURN was encountered"
  | scriptSize => "Script is too big"
  | pushSize => "Push value size limit exceeded"
  | opCount => "Operation limit exceeded"
  | stackSize => "Stack size limit exceeded"
  | sigCount => "Signature count negative or greater than pubkey count"
  | pubkeyCount => "Pubkey count negative or limit exceeded"
  | invalidOperandSize => "Invalid operand size"
  | invalidNumberRange => "Given operand is not a number within the valid range"
  | impossibleEncoding => "The requested encoding is impossible to satisfy"
  | invalidSplitRange => "Invalid OP_SPLIT range"
  | divByZero => "Division by zero error"
  | modByZero => "Modulo by zero error"
  | verify => "Script failed an OP_VERIFY operation"
  | equalVerify => "Script failed an OP_EQUALVERIFY operation"
  | checkMultisigVerify => "Script failed an OP_CHECKMULTISIGVERIFY operation"
  | checkSigVerify => "Script failed an OP_CHECKSIGVERIFY operation"
  | checkDataSigVerify => "Script failed an OP_CHECKDATASIGVERIFY operation"
  | numEqualVerify => "Script failed an OP_NUMEQUALVERIFY operation"
  | badOpcode => "Opcode missing or not understood"
  | disabledOpcode => "Attempted to use a disabled opcode"
  | invalidStackOperation => "Operation not valid with the current stack size"
  | invalidAltstackOperation => "Operation not valid with the current altstack size"
  | unbalancedConditional => "Invalid OP_IF construction"
  | negativeLocktime => "Negative locktime"
  | unsatisfiedLocktime => "Locktime requirement not satisfied"
  | sigHashType => "Signature hash type missing or not understood"
  | sigDer => "Non-canonical DER signature"
  | minimalData => "Data push larger than necessary"
  | sigPushOnly => "Only push operators allowed in signatures"
  | sigHighS => "Non-canonical signature: S value is unnecessarily high"
  | sigNullDummy => "Dummy CHECKMULTISIG argument must be zero"
  | pubkeyType => "Public key is neither compressed or uncompressed"
  | cleanStack => "Stack size must be exactly one after execution"
  | minimalIf => "OP_IF/NOTIF argument must be minimal"
  | sigNullFail => "Signature must be zero for failed CHECK(MULTI)SIG operation"
  | discourageUpgradableNops => "NOPx reserved for soft-fork upgrades"
  | illegalForkId => "Illegal use of SIGHASH_FORKID"
  | mustUseForkId => "Signature must use SIGHASH_FORKID"
  | sigBadLength => "Signature cannot be 65 bytes in CHECKMULTISIG"
  | sigNonSchnorr => "Only Schnorr signatures allowed in this operation"
  | bitfieldSize => "Bitfield of unexpected size"
  | bitRange => "Bitfield's bit out of the expected range"
  | invalidBitCount => "Invalid number of bit set in OP_CHECKMULTISIG"
  | sigChecksLimitExceeded => "Validation resources exceeded (SigChecks)"

end ScryptLedger
