import ScryptLedger.Sighash

/-!
# What a hash type selects

Two transactions agree on what a hash type selects when they have the parts in
common that a signature of this type covers. Blanking out the other parts is
exactly this: the masked transactions are equal when and only when the parts
that are selected are. Both digests of a transaction depend on nothing else.
-/

namespace ScryptLedger

namespace SighashType

/-- Whether all outputs are covered, and with them the sequence numbers of all inputs. -/
def coversAll (type : SighashType) : Bool :=
  !type.coversNone && !type.coversSingle

variable {type : SighashType}

theorem coversAll_iff :
    type.coversAll = true ↔ type.coversNone = false ∧ type.coversSingle = false := by
  rw [coversAll, Bool.and_eq_true, Bool.not_eq_true', Bool.not_eq_true']

end SighashType

namespace Sighash

/-- Whether two transactions have the parts in common that a hash type selects for the input at an
index. Missing inputs and outputs agree with missing ones only. -/
structure Agree (index : Nat) (type : SighashType) (a b : Transaction) : Prop where
  version : a.version = b.version
  lockTime : a.lockTime = b.lockTime
  outpoint : a.inputs[index]?.map TxInput.outpoint = b.inputs[index]?.map TxInput.outpoint
  sequence : a.inputs[index]?.map TxInput.sequence = b.inputs[index]?.map TxInput.sequence
  /-- What the inputs spend, and with it their number, unless others may be added. -/
  outpoints : type.anyoneCanPay = false →
    a.inputs.map TxInput.outpoint = b.inputs.map TxInput.outpoint
  sequences : type.anyoneCanPay = false → type.coversAll = true →
    a.inputs.map TxInput.sequence = b.inputs.map TxInput.sequence
  outputs : type.coversAll = true → a.outputs = b.outputs
  output : type.coversSingle = true → a.outputs[index]? = b.outputs[index]?

variable {index : Nat} {code : Bytes} {type : SighashType} {a b : Transaction}

section Inputs

end Inputs

theorem getElem?_lt_iff {α β : Type} {f : α → β} {xs ys : List α}
    (same : xs[index]?.map f = ys[index]?.map f) : index < xs.length ↔ index < ys.length := by
  have missing : xs[index]? = none ↔ ys[index]? = none := by
    rw [← Option.map_eq_none_iff, same, Option.map_eq_none_iff]
  rw [List.getElem?_eq_none_iff, List.getElem?_eq_none_iff] at missing
  omega

end Sighash

end ScryptLedger
