import ScryptLedger.Proofs.Script.Positional.Attempt
import ScryptLedger.Proofs.Transaction.Check

/-!
# Well-formed transactions

What a transaction has to be on its own, said without an order of checks: its
parts are there, its size and amounts are in range, and its inputs name what they
may name. The checks accept these transactions and no others.

A machine adds outputs up in a signed word of 64 bits, and only looks at a sum
after it was formed. The amounts before it were in range, and so is the one that
is added, so the word always holds it.
-/

namespace ScryptLedger.Transaction

/-! ## The definition -/

/-- Whether the one input there is names nothing. -/
def CreatesCoins (tx : Transaction) : Prop :=
  ∃ input, tx.inputs = [input] ∧ input.outpoint = OutPoint.null

/-- What a transaction has to be on its own. -/
structure WellFormed (tx : Transaction) : Prop where
  spends : tx.inputs ≠ []
  pays : tx.outputs ≠ []
  not_large : tx.encode.length ≤ 1000000
  not_small : ¬ tx.CreatesCoins → 100 ≤ tx.encode.length
  amounts : ∀ output ∈ tx.outputs, 0 ≤ output.value.toInt ∧ output.value.toInt ≤ maxMoney
  sum : 0 ≤ (tx.outputs.map fun output => output.value.toInt).sum ∧
    (tx.outputs.map fun output => output.value.toInt).sum ≤ maxMoney
  distinct : tx.inputs.Pairwise fun one other => one.outpoint ≠ other.outpoint
  script : tx.CreatesCoins → ∀ input ∈ tx.inputs,
    2 ≤ input.scriptSig.length ∧ input.scriptSig.length ≤ 100
  named : ¬ tx.CreatesCoins → ∀ input ∈ tx.inputs, input.outpoint ≠ OutPoint.null

theorem isCoinbase_iff {tx : Transaction} : tx.isCoinbase = true ↔ tx.CreatesCoins := by
  rw [isCoinbase, CreatesCoins]
  rcases tx.inputs with _ | ⟨input, _ | ⟨second, rest⟩⟩
  · simp
  · simp
  · simp

theorem checkNullInputs_eq_ok_iff {tx : Transaction} :
    tx.checkNullInputs = .ok () ↔
      (tx.CreatesCoins → ∀ input ∈ tx.inputs,
        2 ≤ input.scriptSig.length ∧ input.scriptSig.length ≤ 100) ∧
      (¬ tx.CreatesCoins → ∀ input ∈ tx.inputs, input.outpoint ≠ OutPoint.null) := by
  rw [checkNullInputs]
  by_cases coinbase : tx.isCoinbase = true
  · have creates := isCoinbase_iff.mp coinbase
    rw [if_pos coinbase, Outcome.require_eq_ok_iff]
    simp [isCoinbaseScriptSize, creates]
  · have ordinary := mt isCoinbase_iff.mpr coinbase
    rw [if_neg coinbase]
    simp [ordinary]

theorem pairwise_outpoint_iff {inputs : List TxInput} :
    (inputs.map TxInput.outpoint).Nodup ↔
      inputs.Pairwise fun one other => one.outpoint ≠ other.outpoint :=
  List.pairwise_map

/-- Transactions pass when they are well-formed. -/
theorem check_eq_ok_iff_wellFormed {tx : Transaction} : tx.check = .ok () ↔ tx.WellFormed := by
  have ordinary : tx.isCoinbase = false ↔ ¬ tx.CreatesCoins := by
    rw [← isCoinbase_iff, Bool.not_eq_true]
  have sum : TxOutput.total tx.outputs = (tx.outputs.map fun output => output.value.toInt).sum :=
    Money.total_eq_sum _
  rw [check_eq_ok_iff, ordinary, sum, pairwise_outpoint_iff, checkNullInputs_eq_ok_iff]
  simp only [inMoneyRange_iff]
  constructor
  · rintro ⟨spends, pays, large, small, amounts, most, distinct, script, named⟩
    have least : 0 ≤ TxOutput.total tx.outputs :=
      TxOutput.total_nonneg fun output held => inMoneyRange_iff.mpr (amounts output held)
    exact ⟨spends, pays, large, small, amounts, ⟨sum ▸ least, most⟩, distinct, script, named⟩
  · intro formed
    exact ⟨formed.spends, formed.pays, formed.not_large, formed.not_small, formed.amounts,
      formed.sum.2, formed.distinct, formed.script, formed.named⟩

/-! ## The checks in words -/

namespace Words

open Attempt

def isCoinbase (tx : Transaction) : Attempt Bool := do
  if tx.inputs.length = 1 then return (← item tx.inputs 0).outpoint == OutPoint.null
  else return false

/-- Adds each output to a sum, and looks at the sum afterwards. -/
def checkOutputs (total : Int) : List TxOutput → Attempt (Except TxFault Unit)
  | [] => return .ok ()
  | output :: rest =>
    let value := output.value.toInt
    if value < 0 then return .error .outputNegative
    else if value > maxMoney then return .error .outputTooLarge
    else do
      let sum ← int64 (total + value)
      if !inMoneyRange sum then return .error .totalTooLarge
      else checkOutputs sum rest

def checkNullInputs (tx : Transaction) : Attempt (Except TxFault Unit) := do
  if ← isCoinbase tx then
    let script := (← item tx.inputs 0).scriptSig
    if !isCoinbaseScriptSize script.length then return .error .coinbaseLength
    else return .ok ()
  else if tx.inputs.any fun input => input.outpoint == OutPoint.null then
    return .error .nullInput
  else return .ok ()

def check (tx : Transaction) : Attempt (Except TxFault Unit) :=
  if tx.inputs.isEmpty then return .error .noInputs
  else if tx.outputs.isEmpty then return .error .noOutputs
  else if tx.size > maxTxSize then return .error .oversize
  else do
    if !(← isCoinbase tx) && tx.size < minTxSize then return .error .undersize
    else match ← checkOutputs 0 tx.outputs with
      | .error fault => return .error fault
      | .ok () =>
        if repeatsOutpoint ∅ tx.inputs then return .error .duplicateInput
        else checkNullInputs tx

theorem isCoinbase_eq (tx : Transaction) : isCoinbase tx = pure tx.isCoinbase := by
  rw [isCoinbase, Transaction.isCoinbase]
  rcases tx.inputs with _ | ⟨input, _ | ⟨second, rest⟩⟩
  · rfl
  · rfl
  · exact if_neg (by simp)

/-- Each sum is looked at before the next output is added to it. -/
theorem checkOutputs_eq {total : Int} (range : inMoneyRange total = true)
    (outputs : List TxOutput) :
    checkOutputs total outputs = pure (Transaction.checkOutputs total outputs) := by
  induction outputs generalizing total with
  | nil => rfl
  | cons output rest ih =>
    rw [checkOutputs, Transaction.checkOutputs]
    refine refuse_eq_pure fun positive => refuse_eq_pure fun small => ?_
    have here : inMoneyRange output.value.toInt = true :=
      inMoneyRange_iff.mpr ⟨Int.not_lt.mp positive, Int.not_lt.mp small⟩
    have fits : (total + output.value.toInt).natAbs < 2 ^ 63 := by
      have twice : 2 * maxMoney < 2 ^ 63 := by decide
      rw [inMoneyRange_iff] at range here
      omega
    rw [int64_eq fits, pure_bind, Money.wrap_add_of_ranged range here]
    exact refuse_eq_pure fun within => ih (by simpa using within)

theorem checkNullInputs_eq (tx : Transaction) :
    checkNullInputs tx = pure tx.checkNullInputs := by
  rw [checkNullInputs, isCoinbase_eq, pure_bind, Transaction.checkNullInputs]
  by_cases coinbase : tx.isCoinbase = true
  · obtain ⟨input, single, -⟩ := isCoinbase_iff.mp coinbase
    rw [if_pos coinbase, if_pos coinbase, single, item_eq rfl, pure_bind]
    simp only [List.all_cons, List.all_nil, Bool.and_true]
    cases isCoinbaseScriptSize input.scriptSig.length <;> rfl
  · rw [if_neg coinbase, if_neg coinbase]
    exact refuse_eq_pure fun _ => rfl

/-- No sum leaves its word and no index lies outside, whatever the amounts are. -/
theorem check_eq (tx : Transaction) : check tx = pure tx.check := by
  have zero : inMoneyRange 0 = true := by decide
  rw [check, isCoinbase_eq, pure_bind, checkOutputs_eq zero, pure_bind, checkNullInputs_eq]
  simp only [Transaction.check, Outcome.throw_bind]
  refine refuse_eq_pure fun _ => refuse_eq_pure fun _ => refuse_eq_pure fun _ =>
    refuse_eq_pure fun _ => ?_
  cases Transaction.checkOutputs 0 tx.outputs with
  | error fault => rfl
  | ok => exact refuse_eq_pure fun _ => rfl

end Words

/-! ## The result -/

/-- The checks accept the well-formed transactions and no others, and they can be made in words of
64 bits: adding up outputs, of any number and with any amounts, never leaves the word. -/
theorem check_exact (tx : Transaction) :
    (tx.check = .ok () ↔ tx.WellFormed) ∧
      Words.check tx = pure tx.check ∧ ¬ (Words.check tx).Faults := by
  refine ⟨check_eq_ok_iff_wellFormed, Words.check_eq tx, ?_⟩
  rw [Words.check_eq]
  rintro ⟨cause, faulted⟩
  cases faulted

end ScryptLedger.Transaction
