import ScryptLedger.Block.Rejection
import ScryptLedger.Script.Push

/-!
# Coinbases

The first transaction of a block creates its coins. From a height on, its
script starts with the shortest push of the block's height, so that no two
coinbases of a chain are alike. The form of that push also tells where it ends.
-/

namespace ScryptLedger.Coinbase

/-- The start of a coinbase script at a height. -/
def heightCommitment (height : Nat) : Bytes :=
  Script.pushInt height

/-- The height a coinbase script commits to: a small integer, or a minimal push of at most eight
bytes that stands for a height. -/
def committedHeight? (script : Bytes) : Option Nat :=
  match script with
  | [] => none
  | first :: rest =>
    if first = 0x00 then some 0
    else if 0x51 ≤ first ∧ first ≤ 0x60 then some (first.toNat - 0x50)
    else if first.toNat ≤ 8 ∧ first.toNat ≤ rest.length then
      match ScriptNumber.decode (rest.take first.toNat) true 8 with
      | .ok n => if 0 ≤ n ∧ n < UInt32.size then some n.toNat else none
      | .error _ => none
    else none

/-- The script of a coinbase: its one input's. -/
def script (coinbase : Transaction) : Bytes :=
  match coinbase.inputs with
  | [] => []
  | input :: _ => input.scriptSig

def check (coinbase : Transaction) (height : Nat) (params : ChainParams) :
    Except BlockRejection Unit :=
  if !coinbase.isCoinbase then throw .coinbaseMissing
  else if !isCoinbaseScriptSize (script coinbase).length then throw .coinbaseLength
  else if params.bip34Height ≤ height
      && !(heightCommitment height).isPrefixOf (script coinbase) then
    throw .coinbaseHeight
  else return

/-- A coinbase at a height with given outputs. A zero follows the height, since a script of one
byte would be too short. -/
def build (height : Nat) (outputs : List TxOutput) : Transaction where
  version := 1
  inputs := [⟨OutPoint.null, heightCommitment height ++ [0x00], 0xffffffff⟩]
  outputs := outputs
  lockTime := 0

end ScryptLedger.Coinbase
