import ScryptLedger.Script.Signature

/-!
# The spend a script decides

A script runs for one input of a transaction. It can ask whether a signature
covers that spend, and whether the transaction waits long enough.
-/

namespace ScryptLedger

/-- The input a script runs for, with the amount it spends. -/
structure Spend where
  tx : Transaction
  index : Nat
  amount : Int64
  midstate : Sighash.Midstate

namespace Spend

variable [Primitives]

def of (tx : Transaction) (index : Nat) (amount : Int64) : Spend :=
  ⟨tx, index, amount, Sighash.Midstate.of tx⟩

/-- The digest a signature with a given hash type covers. The replay-protected one is used only
where both the hash type asks for it and the flags allow it. -/
def digest (spend : Spend) (code : Bytes) (type : SighashType) (flags : ScriptFlags) : Hash :=
  if type.hasForkId && flags.sighashForkId then
    Sighash.forkIdDigest spend.tx spend.index code type spend.amount spend.midstate
  else Sighash.legacyDigest spend.tx spend.index code type

/-- Whether a signature with its hash type covers the spend. The older digest does not cover
pushes of the signature itself. Under the legacy rules a signature of Schnorr's length is a
failure of its own. -/
def checkSignature (spend : Spend) (signature key code : Bytes) (flags : ScriptFlags) :
    Except ScriptError Bool :=
  match signature.getLast? with
  | none => return false
  | some last =>
    let raw := signature.dropLast
    if flags.legacyRules && raw.length == Script.schnorrSize then throw .sigNullFail
    else
      let type : SighashType := ⟨last.toUInt32⟩
      let covered :=
        if type.hasForkId && flags.sighashForkId then code
        else Script.withoutSignature code signature
      return Script.verifies raw key (spend.digest covered type flags)

/-- Lock times below this are heights, the others are times. -/
def lockTimeThreshold : Nat := 500000000

omit [Primitives] in
def reachesLockTime (spend : Spend) (lockTime : Int) : Bool :=
  let own : Int := spend.tx.lockTime.toNat
  let threshold : Int := lockTimeThreshold
  (own < threshold) == (lockTime < threshold) && lockTime ≤ own
    && match spend.tx.inputs[spend.index]? with
      | some input => input.sequence != 0xffffffff
      | none => false

def sequenceDisabled : Nat := 0x80000000

/-- The bit that makes a relative lock time count time instead of blocks. -/
def sequenceType : Nat := 0x400000

omit [Primitives] in
def reachesSequence (spend : Spend) (sequence : Nat) : Bool :=
  match spend.tx.inputs[spend.index]? with
  | none => false
  | some input =>
    let mask := sequenceType ||| 0xffff
    let own := input.sequence.toNat &&& mask
    let asked := sequence &&& mask
    2 ≤ spend.tx.version && input.sequence.toNat &&& sequenceDisabled == 0
      && (own < sequenceType) == (asked < sequenceType) && asked ≤ own

end Spend

end ScryptLedger
