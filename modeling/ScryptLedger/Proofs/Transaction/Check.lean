import ScryptLedger.Proofs.Money
import ScryptLedger.Proofs.Outcome
import ScryptLedger.Transaction.Check

/-!
# Transactions that pass on their own

What it takes for a transaction to pass the checks that need no coins. The
running total of the outputs is checked after every output; since no output
may be negative, that comes to a check of the whole sum. The search for
repeated outpoints finds one exactly when there is one.
-/

namespace ScryptLedger

namespace TxOutput

/-- The exact sum of some outputs. -/
def total (outputs : List TxOutput) : Int :=
  Money.total (outputs.map fun output => output.value.toInt)

@[simp]
theorem total_cons (output : TxOutput) (rest : List TxOutput) :
    total (output :: rest) = output.value.toInt + total rest := by
  rw [total, List.map_cons, Money.total_cons, total]

theorem total_nonneg {outputs : List TxOutput}
    (ranged : ∀ output ∈ outputs, inMoneyRange output.value.toInt) : 0 ≤ total outputs := by
  induction outputs with
  | nil => exact Int.le_refl 0
  | cons output rest ih =>
    have first := (inMoneyRange_iff.mp (ranged output List.mem_cons_self)).1
    have others := ih fun output later => ranged output (List.mem_cons_of_mem _ later)
    rw [total_cons]
    omega

end TxOutput

namespace Transaction

theorem totalOutput_eq (tx : Transaction) :
    tx.totalOutput = Money.wrap (TxOutput.total tx.outputs) :=
  Money.sum_eq_wrap _

/-- The next output is looked at, and then the sum so far, which its word holds. -/
theorem checkOutputs_cons {total : Int} (start : inMoneyRange total = true) (output : TxOutput)
    (rest : List TxOutput) :
    checkOutputs total (output :: rest) = .ok () ↔
      inMoneyRange output.value.toInt = true ∧
        inMoneyRange (total + output.value.toInt) = true ∧
          checkOutputs (total + output.value.toInt) rest = .ok () := by
  simp only [checkOutputs, Outcome.refuse_eq_ok_iff, Bool.not_eq_true', Bool.not_eq_false,
    gt_iff_lt, Int.not_lt]
  constructor
  · rintro ⟨low, high, range, later⟩
    have here := inMoneyRange_iff.mpr ⟨low, high⟩
    rw [Money.wrap_add_of_ranged start here] at range later
    exact ⟨here, range, later⟩
  · rintro ⟨here, range, later⟩
    obtain ⟨low, high⟩ := inMoneyRange_iff.mp here
    rw [Money.wrap_add_of_ranged start here]
    exact ⟨low, high, range, later⟩

/-- Outputs pass when each is an amount of money and so is what they add up to. -/
theorem checkOutputs_eq_ok_iff {total : Int} {outputs : List TxOutput}
    (start : inMoneyRange total = true) :
    checkOutputs total outputs = .ok () ↔
      (∀ output ∈ outputs, inMoneyRange output.value.toInt) ∧
        total + TxOutput.total outputs ≤ maxMoney := by
  induction outputs generalizing total with
  | nil =>
    have bounded := (inMoneyRange_iff.mp start).2
    simp [checkOutputs, TxOutput.total, bounded]
  | cons output rest ih =>
    rw [checkOutputs_cons start, TxOutput.total_cons, ← Int.add_assoc]
    constructor
    · rintro ⟨here, range, later⟩
      obtain ⟨ranged, sum⟩ := (ih range).mp later
      exact ⟨List.forall_mem_cons.mpr ⟨here, ranged⟩, sum⟩
    · rintro ⟨ranged, sum⟩
      obtain ⟨here, later⟩ := List.forall_mem_cons.mp ranged
      have positive := (inMoneyRange_iff.mp here).1
      have others := TxOutput.total_nonneg later
      have before := (inMoneyRange_iff.mp start).1
      have range : inMoneyRange (total + output.value.toInt) = true :=
        inMoneyRange_iff.mpr ⟨by omega, by omega⟩
      exact ⟨here, range, (ih range).mpr ⟨later, sum⟩⟩

theorem repeatsOutpoint_eq_false_iff {seen : Std.ExtTreeSet OutPoint compare}
    {inputs : List TxInput} :
    repeatsOutpoint seen inputs = false ↔
      (inputs.map TxInput.outpoint).Nodup ∧
        ∀ input ∈ inputs, input.outpoint ∉ seen := by
  induction inputs generalizing seen with
  | nil => simp [repeatsOutpoint]
  | cons input rest ih =>
    have unseen : seen.contains input.outpoint = false ↔ input.outpoint ∉ seen := by
      rw [← Std.ExtTreeSet.contains_iff_mem, Bool.not_eq_true]
    simp only [repeatsOutpoint, Bool.or_eq_false_iff, unseen, ih, List.map_cons, List.nodup_cons,
      List.mem_cons, forall_eq_or_imp, Std.ExtTreeSet.mem_insert, Std.compare_eq_iff_eq, not_or,
      List.mem_map]
    constructor
    · rintro ⟨new, distinct, fresh⟩
      refine ⟨⟨?_, distinct⟩, new, fun other held => (fresh other held).2⟩
      rintro ⟨other, held, same⟩
      exact (fresh other held).1 same.symm
    · rintro ⟨⟨other, distinct⟩, new, fresh⟩
      refine ⟨new, distinct, fun next held => ⟨fun same => ?_, fresh next held⟩⟩
      exact other ⟨next, held, same.symm⟩

/-- What passes the checks of a transaction on its own. -/
theorem check_eq_ok_iff {tx : Transaction} :
    tx.check = .ok () ↔
      tx.inputs ≠ [] ∧ tx.outputs ≠ [] ∧ tx.size ≤ maxTxSize ∧
        (tx.isCoinbase = false → minTxSize ≤ tx.size) ∧
        (∀ output ∈ tx.outputs, inMoneyRange output.value.toInt) ∧
        TxOutput.total tx.outputs ≤ maxMoney ∧
        (tx.inputs.map TxInput.outpoint).Nodup ∧
        tx.checkNullInputs = .ok () := by
  have outputs : checkOutputs 0 tx.outputs = .ok () ↔ _ :=
    checkOutputs_eq_ok_iff (by decide : inMoneyRange 0 = true)
  have outpoints : repeatsOutpoint ∅ tx.inputs = false ↔ _ :=
    repeatsOutpoint_eq_false_iff
  have unseen : ∀ input ∈ tx.inputs, input.outpoint ∉ (∅ : Std.ExtTreeSet OutPoint compare) :=
    fun _ _ => Std.ExtTreeSet.not_mem_empty
  simp only [check, Outcome.throw_bind, Outcome.refuse_eq_ok_iff, Outcome.bind_eq_ok_iff,
    List.isEmpty_iff, Bool.and_eq_true, Bool.not_eq_true', decide_eq_true_eq, not_and,
    Bool.not_eq_true, gt_iff_lt, Nat.not_lt]
  constructor
  · rintro ⟨someInput, someOutput, large, small, ⟨⟩, ranged, distinct, null⟩
    obtain ⟨ranged, sum⟩ := outputs.mp ranged
    rw [Int.zero_add] at sum
    exact ⟨someInput, someOutput, large, small, ranged, sum, (outpoints.mp distinct).1, null⟩
  · rintro ⟨someInput, someOutput, large, small, ranged, sum, distinct, null⟩
    refine ⟨someInput, someOutput, large, small, (), outputs.mpr ⟨ranged, ?_⟩,
      outpoints.mpr ⟨distinct, unseen⟩, null⟩
    rwa [Int.zero_add]

/-- What the outputs of a transaction that passes come to is an amount of money, and exact. -/
theorem totalOutput_of_check {tx : Transaction} (passes : tx.check = .ok ()) :
    inMoneyRange (TxOutput.total tx.outputs) = true ∧
      tx.totalOutput = TxOutput.total tx.outputs := by
  obtain ⟨-, -, -, -, ranged, bounded, -⟩ := check_eq_ok_iff.mp passes
  have range := inMoneyRange_iff.mpr ⟨TxOutput.total_nonneg ranged, bounded⟩
  exact ⟨range, (totalOutput_eq tx).trans (Money.wrap_of_ranged range)⟩

/-- No other transaction than a coinbase names nothing. -/
theorem null_not_mem_of_check {tx : Transaction} (passes : tx.check = .ok ())
    (ordinary : tx.isCoinbase = false) : OutPoint.null ∉ tx.inputs.map TxInput.outpoint := by
  obtain ⟨-, -, -, -, -, -, -, null⟩ := check_eq_ok_iff.mp passes
  simp only [checkNullInputs, ordinary, Bool.false_eq_true, if_false, Outcome.refuse_eq_ok_iff,
    List.any_eq_true, beq_iff_eq, not_exists, not_and] at null
  intro named
  obtain ⟨input, held, same⟩ := List.mem_map.mp named
  exact null.1 input held same

theorem length_flatMap_ge {Item : Type} (encode : Item → Bytes)
    (long : ∀ item, 1 ≤ (encode item).length) (items : List Item) :
    items.length ≤ (items.flatMap encode).length := by
  induction items with
  | nil => exact Nat.le_refl 0
  | cons item rest ih =>
    have here := long item
    rw [List.flatMap_cons, List.length_append, List.length_cons]
    omega

/-- An encoding is longer than the inputs are many. -/
theorem length_inputs_le_size (tx : Transaction) : tx.inputs.length ≤ tx.size := by
  have long : ∀ input : TxInput, 1 ≤ input.encode.length := by
    intro input
    rw [TxInput.encode, List.length_append, bytesOfWord, length_littleEndian]
    omega
  have counted := length_flatMap_ge TxInput.encode long tx.inputs
  rw [size, encode]
  simp only [Wire.vector, List.length_append]
  omega

/-- An encoding is longer than the outputs are many. -/
theorem length_outputs_le_size (tx : Transaction) : tx.outputs.length ≤ tx.size := by
  have long : ∀ output : TxOutput, 1 ≤ output.encode.length := by
    intro output
    rw [TxOutput.encode, List.length_append, bytesOfInt64, length_littleEndian]
    omega
  have counted := length_flatMap_ge TxOutput.encode long tx.outputs
  rw [size, encode]
  simp only [Wire.vector, List.length_append]
  omega

/-- The outputs of a transaction that passes can be numbered. -/
theorem length_outputs_lt_of_check {tx : Transaction} (passes : tx.check = .ok ()) :
    tx.outputs.length < UInt32.size := by
  obtain ⟨-, -, large, -⟩ := check_eq_ok_iff.mp passes
  have counted := tx.length_outputs_le_size
  rw [maxTxSize] at large
  rw [UInt32.size]
  omega

end Transaction

end ScryptLedger
