import Mathlib.Algebra.Group.Action.Defs
import Mathlib.Algebra.Order.BigOperators.Group.List
import Mathlib.Algebra.Order.Group.Nat
import ScryptLedger.Coinbase
import ScryptLedger.Proofs.Transaction.Check
import ScryptLedger.Proofs.Wire.Length

/-!
# The coinbase of a new block

A coinbase that is built at some height passes the checks of a coinbase at that
height, as long as the height can be written in few bytes; and it is small.
-/

namespace ScryptLedger.Coinbase

theorem script_build (height : Nat) (outputs : List TxOutput) :
    script (build height outputs) = heightCommitment height ++ [0x00] := rfl

theorem isCoinbase_build (height : Nat) (outputs : List TxOutput) :
    (build height outputs).isCoinbase = true := by
  simp [build, Transaction.isCoinbase]

theorem heightCommitment_ne_nil (height : Nat) : heightCommitment height ≠ [] := by
  rw [heightCommitment, Script.pushInt]
  split
  · simp
  split
  · simp
  · exact Script.push_ne_nil _

theorem length_heightCommitment_le {height bytes : Nat} (small : height < 256 ^ bytes)
    (short : bytes ≤ 74) : (heightCommitment height).length ≤ bytes + 2 := by
  rw [heightCommitment, Script.pushInt]
  split
  · simp
  split
  · simp
  · have number : (ScriptNumber.encode height).length ≤ bytes + 1 :=
      ScriptNumber.length_encode_le small
    have pushed : (Script.push (ScriptNumber.encode height)).length
        ≤ (ScriptNumber.encode height).length + 1 := Script.length_push_le (by omega)
    omega

/-- Heights of at most 74 bytes leave room for the zero that follows them. -/
theorem isCoinbaseScriptSize_build {height : Nat} (small : height < 256 ^ 74)
    (outputs : List TxOutput) :
    isCoinbaseScriptSize (script (build height outputs)).length = true := by
  have long := List.length_pos_iff.mpr (heightCommitment_ne_nil height)
  have short := length_heightCommitment_le small (Nat.le_refl 74)
  simp only [isCoinbaseScriptSize, script_build, List.length_append, List.length_singleton,
    Bool.and_eq_true, decide_eq_true_eq]
  omega

theorem check_build {height : Nat} (small : height < 256 ^ 74) (outputs : List TxOutput)
    (params : ChainParams) : check (build height outputs) height params = .ok () := by
  have commits : (heightCommitment height).isPrefixOf (script (build height outputs)) = true :=
    List.isPrefixOf_iff_prefix.mpr (List.prefix_append _ _)
  simp only [check, isCoinbase_build, isCoinbaseScriptSize_build small outputs, commits,
    Bool.not_true, Bool.and_false, Bool.false_eq_true, if_false, pure, Except.pure]

/-- A coinbase with at most three short outputs leaves half of the room that is kept for it. -/
theorem size_build_le {height : Nat} (small : height < 256 ^ 74) {outputs : List TxOutput}
    (few : outputs.length ≤ 3) (short : ∀ output ∈ outputs, output.scriptPubKey.length ≤ 100) :
    (build height outputs).size ≤ 500 := by
  have script := length_heightCommitment_le small (Nat.le_refl 74)
  have input : (Wire.sizedBytes (heightCommitment height ++ [0x00])).length ≤ 78 := by
    have length : (heightCommitment height ++ [0x00]).length ≤ 77 := by
      rw [List.length_append, List.length_singleton]
      omega
    rw [Wire.length_sizedBytes_of_lt (by omega)]
    omega
  have outputs_le : (outputs.map fun output => output.encode.length).sum ≤ 3 * 109 := by
    have each : ∀ size ∈ outputs.map fun output => output.encode.length, size ≤ 109 := by
      intro size held
      obtain ⟨output, given, rfl⟩ := List.mem_map.mp held
      have bounded := short output given
      rw [TxOutput.length_encode, Wire.length_sizedBytes_of_lt (by omega)]
      omega
    have total := List.sum_le_card_nsmul _ 109 each
    rw [List.length_map, smul_eq_mul] at total
    exact total.trans (Nat.mul_le_mul_right 109 few)
  rw [Transaction.size_eq]
  simp only [build, Wire.length_vector, List.length_singleton, List.map_singleton,
    List.sum_singleton, TxInput.length_encode,
    Wire.length_compactSize_of_lt (show 1 < 0xfd by decide),
    Wire.length_compactSize_of_lt (show outputs.length < 0xfd by omega)]
  omega

end ScryptLedger.Coinbase
