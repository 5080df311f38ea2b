import ScryptLedger.Hash
import ScryptLedger.Money

/-!
# Transactions

A transaction spends outputs of earlier ones, named by outpoint, and creates
new outputs. Amounts keep the signed 64-bit form they have on the wire, where
nothing stops them from being negative; what outputs add up to has that form as
well.
-/

namespace ScryptLedger

/-- Output number `index` of the transaction `hash`. -/
structure OutPoint where
  hash : Hash
  index : UInt32
deriving DecidableEq, Repr

namespace OutPoint

/-- The outpoint a coinbase input names. -/
def null : OutPoint := ⟨Digest.zero, 0xffffffff⟩

instance : Ord OutPoint :=
  ⟨compareLex (compareOn OutPoint.hash) (compareOn OutPoint.index)⟩

theorem compare_def (a b : OutPoint) :
    compare a b = (compare a.hash b.hash).then (compare a.index b.index) := rfl

instance : Std.TransOrd OutPoint :=
  inferInstanceAs (Std.TransCmp (compareLex (compareOn OutPoint.hash) (compareOn OutPoint.index)))

instance : Std.LawfulEqOrd OutPoint where
  compare_self {a} := by simp
  eq_of_compare {a b} same := by
    rw [compare_def, Ordering.then_eq_eq] at same
    cases a; cases b
    simp_all

end OutPoint

/-- A spend of an outpoint, with the script that justifies it. -/
structure TxInput where
  outpoint : OutPoint
  scriptSig : Bytes
  sequence : UInt32
deriving DecidableEq, Repr

/-- An amount and the script that guards it. -/
structure TxOutput where
  value : Int64
  scriptPubKey : Bytes
deriving DecidableEq, Repr

structure Transaction where
  version : Int32
  inputs : List TxInput
  outputs : List TxOutput
  lockTime : UInt32
deriving DecidableEq, Repr

namespace Transaction

/-- Whether the transaction creates coins: its one input names nothing. -/
def isCoinbase (tx : Transaction) : Bool :=
  match tx.inputs with
  | [input] => input.outpoint == OutPoint.null
  | _ => false

/-- What the outputs add up to in a word. -/
def totalOutput (tx : Transaction) : Int :=
  Money.sum (tx.outputs.map fun output => output.value.toInt)

end Transaction

end ScryptLedger
