import Std.Data.ExtTreeSet
import ScryptLedger.Money
import ScryptLedger.Transaction.Codec

/-!
# Transactions on their own

What can be said about a transaction without knowing the coins it spends: its
size, the range of its outputs, that it names no outpoint twice, and the form
of a coinbase.
-/

namespace ScryptLedger

inductive TxFault where
  | noInputs
  | noOutputs
  | oversize
  | undersize
  | outputNegative
  | outputTooLarge
  | totalTooLarge
  | duplicateInput
  | coinbaseLength
  | nullInput
deriving DecidableEq, Repr

def TxFault.message : TxFault → String
  | noInputs => "bad-txns-vin-empty"
  | noOutputs => "bad-txns-vout-empty"
  | oversize => "bad-txns-oversize"
  | undersize => "bad-txns-undersize"
  | outputNegative => "bad-txns-vout-negative"
  | outputTooLarge => "bad-txns-vout-toolarge"
  | totalTooLarge => "bad-txns-txouttotal-toolarge"
  | duplicateInput => "bad-txns-inputs-duplicate"
  | coinbaseLength => "bad-cb-length"
  | nullInput => "bad-txns-prevout-null"

def maxTxSize : Nat := 1000000

/-- The smallest transaction that is not a coinbase. -/
def minTxSize : Nat := 100

def isCoinbaseScriptSize (size : Nat) : Bool :=
  2 ≤ size && size ≤ 100

namespace Transaction

/-- Checks each output, and the sum of `total` and the outputs so far. -/
def checkOutputs (total : Int) : List TxOutput → Except TxFault Unit
  | [] => return
  | output :: rest =>
    let value := output.value.toInt
    let sum := Money.wrap (total + value)
    if value < 0 then throw .outputNegative
    else if value > maxMoney then throw .outputTooLarge
    else if !inMoneyRange sum then throw .totalTooLarge
    else checkOutputs sum rest

/-- Whether an outpoint is named that is in `seen` or was named before. -/
def repeatsOutpoint (seen : Std.ExtTreeSet OutPoint compare) : List TxInput → Bool
  | [] => false
  | input :: rest =>
    seen.contains input.outpoint || repeatsOutpoint (seen.insert input.outpoint) rest

/-- The rule for inputs that name nothing: a coinbase has one, with a script of bounded length,
and other transactions have none. -/
def checkNullInputs (tx : Transaction) : Except TxFault Unit :=
  if tx.isCoinbase then
    if tx.inputs.all fun input => isCoinbaseScriptSize input.scriptSig.length then return
    else throw .coinbaseLength
  else if tx.inputs.any fun input => input.outpoint == OutPoint.null then throw .nullInput
  else return

def check (tx : Transaction) : Except TxFault Unit := do
  if tx.inputs.isEmpty then throw .noInputs
  if tx.outputs.isEmpty then throw .noOutputs
  let size := tx.size
  if size > maxTxSize then throw .oversize
  if !tx.isCoinbase && size < minTxSize then throw .undersize
  checkOutputs 0 tx.outputs
  if repeatsOutpoint ∅ tx.inputs then throw .duplicateInput
  checkNullInputs tx

end Transaction

end ScryptLedger
