import ScryptLedger.Script.Spend
import ScryptLedger.Script.StackOp

/-!
# Several signatures at once

CHECKMULTISIG takes from the stack, top first, a number of keys, the keys, a
number of signatures, the signatures, and one more element. Where that element
is empty, or the flags give it no meaning, the signatures are matched to the
keys in order. Otherwise its bits select one key for each signature.
-/

namespace ScryptLedger.Script

def maxMultisigKeys : Nat := 20

def maxOperations : Nat := 201

structure Multisig where
  keys : List Bytes
  signatures : List Bytes
  selector : Bytes
  below : Stack

namespace Multisig

/-- Takes the operands off a stack. Each key counts as an operation on top of the `performed`
ones; the new count comes with the operands. -/
def ofStack (minimal : Bool) (performed : Nat) (stack : Stack) :
    Except ScriptError (Multisig × Nat) :=
  match stack with
  | [] => throw .invalidStackOperation
  | keyCount :: rest => do
    let keyCount ← operand minimal keyCount
    if keyCount < 0 ∨ maxMultisigKeys < keyCount.toNat then throw .pubkeyCount
    else if maxOperations < performed + keyCount.toNat then throw .opCount
    else
      match rest.drop keyCount.toNat with
      | [] => throw .invalidStackOperation
      | signatureCount :: belowCount => do
        let signatureCount ← operand minimal signatureCount
        if signatureCount < 0 ∨ keyCount < signatureCount then throw .sigCount
        else
          match belowCount.drop signatureCount.toNat with
          | [] => throw .invalidStackOperation
          | selector :: below =>
            return (⟨rest.take keyCount.toNat, belowCount.take signatureCount.toNat, selector,
              below⟩, performed + keyCount.toNat)

/-- The keys whose bits are set, lowest bit first, in a selector of just enough bytes. -/
def selected (keys : List Bytes) (selector : Bytes) : Except ScriptError (List Bytes) :=
  if selector.length ≠ (keys.length + 7) / 8 then throw .bitfieldSize
  else
    let bits := ofLittleEndian selector
    if 1 <<< keys.length ≤ bits then throw .bitRange
    else return (keys.zipIdx.filter fun (_, i) => bits.testBit i).map Prod.fst

variable [Primitives]

def checkPairs (spend : Spend) (code : Bytes) (flags : ScriptFlags) :
    List (Bytes × Bytes) → Except ScriptError Unit
  | [] => return
  | (signature, key) :: rest => do
    checkSchnorrSignature signature flags
    checkKey key flags
    if ← spend.checkSignature signature key code flags then checkPairs spend code flags rest
    else throw .sigNullFail

/-- Whether the signatures can be matched to the keys in order. Each key is tried once, against
the first signature not matched yet, for as long as enough keys are left. -/
def matchInOrder (spend : Spend) (code : Bytes) (flags : ScriptFlags) :
    (keys signatures : List Bytes) → Except ScriptError Bool
  | _, [] => return true
  | [], _ :: _ => return false
  | key :: keys, signature :: signatures => do
    checkEcdsaSignature signature flags
    checkKey key flags
    let unmatched :=
      if ← spend.checkSignature signature key code flags then signatures
      else signature :: signatures
    if keys.length < unmatched.length then return false
    else matchInOrder spend code flags keys unmatched

def check (multisig : Multisig) (spend : Spend) (code : Bytes) (flags : ScriptFlags) :
    Except ScriptError (Bool × Nat) :=
  let ⟨keys, signatures, selector, _⟩ := multisig
  if flags.schnorrMultisig && !selector.isEmpty then do
    let keys ← selected keys selector
    if keys.length ≠ signatures.length then throw .invalidBitCount
    else
      checkPairs spend code flags (signatures.zip keys)
      return (true, signatures.length)
  else if flags.nullDummy && !selector.isEmpty then throw .sigNullDummy
  else do
    let success ← matchInOrder spend code flags keys signatures
    let signed := signatures.any (!·.isEmpty)
    if !success && flags.nullFail && signed then throw .sigNullFail
    else return (success, if signed then keys.length else 0)

end Multisig

end ScryptLedger.Script
