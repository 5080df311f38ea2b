import ScryptLedger.Primitives.Transparent
import ScryptLedger.Proofs.Script.Elements
import ScryptLedger.Proofs.Script.Step
import ScryptLedger.Proofs.Transaction.Check
import ScryptLedger.Transaction.Inputs

/-!
# What a script can use up

Between any two instructions both stacks together hold few elements, each of
them is short, and signature checks are paid for in operations: an instruction
that checks one signature counts itself, and one that checks several counts
its keys. So a spend takes at most as many checks as three scripts have
operations, and those of a whole transaction fit into a word.
-/

namespace ScryptLedger

namespace Script

variable [Primitives] {flags : ScriptFlags} {spend : Spend} {m next : Machine}

/-- Whether a machine is within the limits on stacks, elements, operations and checks. -/
structure Machine.Bounded (m : Machine) : Prop where
  stacks_le : m.stack.length + m.altStack.length ≤ maxStackSize
  stack_fits : Fits m.stack
  altStack_fits : Fits m.altStack
  operations_le : m.operations ≤ maxOperations
  sigChecks_le : m.sigChecks ≤ m.operations

namespace Machine

/-! ## Operations -/

/-- Checks are paid for by the instruction or by its keys. -/
theorem Changes.sigChecks_le {operation : Operation} (changes : Changes m operation next) :
    next.sigChecks + m.operations
      ≤ m.sigChecks + next.operations + if operation.isSigning then 1 else 0 := by
  cases changes with
  | checks keys checks signing kept told counted affordable =>
    simp only [signing, if_true]
    omega
  | _ => exact Nat.le_add_right _ _

theorem Changes.fits {operation : Operation} (changes : Changes m operation next)
    (modest : operation.isModest = true) (few : m.stack.length ≤ maxStackSize)
    (stack : Fits m.stack) (altStack : Fits m.altStack) :
    Fits next.stack ∧ Fits next.altStack := by
  cases changes with
  | opens kept => exact ⟨stack.of_subset kept.subset, altStack⟩
  | computes computed =>
    refine ⟨StackOp.fits_of_apply ?_ few stack computed, altStack⟩
    rintro n rfl
    simpa [Operation.isModest] using modest
  | stores taken =>
    rw [taken] at stack
    obtain ⟨top, left⟩ := Fits.cons_iff.mp stack
    exact ⟨left, Fits.cons_iff.mpr ⟨top, altStack⟩⟩
  | fetches taken =>
    rw [taken] at altStack
    obtain ⟨top, left⟩ := Fits.cons_iff.mp altStack
    exact ⟨Fits.cons_iff.mpr ⟨top, stack⟩, left⟩
  | checks keys checks signing kept told =>
    have left := stack.of_subset kept.subset
    rcases told with rfl | ⟨success, rfl⟩
    · exact ⟨left, altStack⟩
    · exact ⟨Fits.cons_iff.mpr ⟨length_ofBool_le_max success, left⟩, altStack⟩
  | turns | closes | marks | idles => exact ⟨stack, altStack⟩

/-! ## Steps and runs -/

theorem Steps.sigChecks_le {instruction : Instruction} (steps : Steps flags m instruction next) :
    next.sigChecks + m.operations ≤ m.sigChecks + next.operations := by
  cases steps.executes with
  | pushes | skips =>
    simp only [counting]
    omega
  | @performs opcode _ operation _ asked changes =>
    have checked := changes.sigChecks_le
    by_cases signing : operation.isSigning = true
    · have counted := Operation.isCounted_of_ofByte? asked signing
      simp only [counting, signing, counted, if_true] at checked
      omega
    · simp only [counting, if_neg signing] at checked
      omega

theorem Steps.fits {instruction : Instruction} (steps : Steps flags m instruction next)
    (few : m.stack.length ≤ maxStackSize) (stack : Fits m.stack) (altStack : Fits m.altStack) :
    Fits next.stack ∧ Fits next.altStack := by
  have pushed := steps.data_le
  cases steps.executes with
  | pushes => exact ⟨Fits.cons_iff.mpr ⟨pushed, stack⟩, altStack⟩
  | performs asked changes =>
    exact changes.fits (Operation.isModest_of_ofByte? asked) few stack altStack
  | skips => exact ⟨stack, altStack⟩

theorem Bounded.step {located : Located} (bounded : m.Bounded)
    (done : m.step flags spend located = .ok next) : next.Bounded := by
  have steps := steps_of_step done
  have paid := steps.sigChecks_le
  have before := bounded.sigChecks_le
  have few : m.stack.length ≤ maxStackSize := (Nat.le_add_right _ _).trans bounded.stacks_le
  obtain ⟨stack, altStack⟩ := steps.fits few bounded.stack_fits bounded.altStack_fits
  exact ⟨steps.stacks_le, stack, altStack, steps.operations_le_max, by omega⟩

theorem Bounded.run {instructions : List Located} (bounded : m.Bounded)
    (done : run flags spend m instructions = .ok next) : next.Bounded :=
  holds_of_run (fun _ _ _ bounded stepped => bounded.step stepped) bounded done

omit [Primitives] in
theorem bounded_start {script : Bytes} {stack : Stack} (few : stack.length ≤ maxStackSize)
    (fits : Fits stack) : (start script stack).Bounded :=
  ⟨few, fits, Fits.nil, Nat.zero_le _, Nat.zero_le _⟩

end Machine

/-! ## Scripts, spends and transactions -/

theorem bounded_of_eval {script : Bytes} {stack left : Stack} {checks : Nat}
    (few : stack.length ≤ maxStackSize) (fits : Fits stack)
    (done : eval script stack flags spend = .ok (left, checks)) :
    left.length ≤ maxStackSize ∧ Fits left ∧ checks ≤ maxOperations := by
  obtain ⟨-, -, final, ran, -, rfl, rfl⟩ := eval_eq_ok_iff.mp done
  have bounded := (Machine.bounded_start few fits).run ran
  exact ⟨(Nat.le_add_right _ _).trans bounded.stacks_le, bounded.stack_fits,
    bounded.sigChecks_le.trans bounded.operations_le⟩

theorem checks_le_of_redeem {scriptSig : Bytes} {stack left : Stack} {checks : Nat}
    (few : stack.length ≤ maxStackSize) (fits : Fits stack)
    (done : redeem scriptSig stack flags spend = .ok (left, checks)) : checks ≤ maxOperations := by
  obtain ⟨-, done⟩ := Outcome.refuse_eq_ok_iff.mp done
  cases stack with
  | nil => exact absurd done Outcome.throw_ne_ok
  | cons script below =>
    obtain ⟨⟨reached, counted⟩, ran, done⟩ := Outcome.bind_eq_ok_iff.mp done
    obtain ⟨_, -, done⟩ := Outcome.bind_eq_ok_iff.mp done
    cases Outcome.pure_eq_ok_iff.mp done
    rw [List.length_cons] at few
    exact (bounded_of_eval (by omega) (Fits.cons_iff.mp fits).2 ran).2.2

/-- A spend runs three scripts at most. -/
theorem checks_le_of_verify {scriptSig scriptPubKey : Bytes} {checks : Nat}
    (done : verify scriptSig scriptPubKey flags spend = .ok checks) :
    checks ≤ 3 * maxOperations := by
  obtain ⟨-, done⟩ := Outcome.refuse_eq_ok_iff.mp done
  obtain ⟨⟨pushed, sigChecks⟩, ranSig, done⟩ := Outcome.bind_eq_ok_iff.mp done
  obtain ⟨⟨left, pubKeyChecks⟩, ranPubKey, done⟩ := Outcome.bind_eq_ok_iff.mp done
  obtain ⟨_, -, done⟩ := Outcome.bind_eq_ok_iff.mp done
  obtain ⟨few, fits, signing⟩ := bounded_of_eval (Nat.zero_le _) Fits.nil ranSig
  obtain ⟨-, -, paying⟩ := bounded_of_eval few fits ranPubKey
  by_cases hashes : (flags.p2sh && isPayToScriptHash scriptPubKey) = true
  · rw [if_pos hashes] at done
    obtain ⟨⟨stack, redeemChecks⟩, redeemed, done⟩ := Outcome.bind_eq_ok_iff.mp done
    obtain ⟨-, done⟩ := Outcome.refuse_eq_ok_iff.mp done
    cases Outcome.pure_eq_ok_iff.mp done
    have redeeming := checks_le_of_redeem few fits redeemed
    omega
  · rw [if_neg hashes] at done
    obtain ⟨-, done⟩ := Outcome.refuse_eq_ok_iff.mp done
    cases Outcome.pure_eq_ok_iff.mp done
    omega

end Script

namespace Transaction

variable [Primitives] {tx : Transaction} {midstate : Sighash.Midstate} {flags : ScriptFlags}

theorem checks_le_of_verifyInputs {index checks : Nat} {spends : List (TxInput × Coin)}
    (done : tx.verifyInputs midstate flags index spends = .ok checks) :
    checks ≤ 3 * Script.maxOperations * spends.length := by
  induction spends generalizing index checks with
  | nil =>
    cases Outcome.pure_eq_ok_iff.mp done
    exact Nat.zero_le _
  | cons spent rest ih =>
    obtain ⟨first, verified, done⟩ := Outcome.bind_eq_ok_iff.mp done
    obtain ⟨others, later, done⟩ := Outcome.bind_eq_ok_iff.mp done
    cases Outcome.pure_eq_ok_iff.mp done
    have here := Script.checks_le_of_verify verified
    have behind := ih later
    rw [List.length_cons, Nat.mul_succ]
    omega

/-- The checks of the first inputs of a transaction of an allowed size fit into a word. -/
theorem checks_lt_of_verifyInputs {coins : List Coin} {inputs checks : Nat}
    (small : tx.size ≤ maxTxSize)
    (done : tx.verifyInputs midstate flags 0 ((tx.inputs.zip coins).take inputs) = .ok checks) :
    checks < UInt32.size := by
  have spent : ((tx.inputs.zip coins).take inputs).length ≤ tx.inputs.length := by
    simp only [List.length_take, List.length_zip]
    omega
  have few : tx.inputs.length ≤ maxTxSize := tx.length_inputs_le_size.trans small
  calc checks ≤ 3 * Script.maxOperations * ((tx.inputs.zip coins).take inputs).length :=
        checks_le_of_verifyInputs done
    _ ≤ 3 * Script.maxOperations * maxTxSize := Nat.mul_le_mul_left _ (spent.trans few)
    _ < UInt32.size := by decide

end Transaction

namespace Script

section General

variable [Primitives]

/-- What running takes is bounded: before every instruction and behind it, for a script as a
whole, for a spend, and for the inputs of a transaction so far. -/
theorem resources_bounded (flags : ScriptFlags) :
    (∀ (spend : Spend) (script : Bytes) (stack : Stack),
      stack.length ≤ maxStackSize → Fits stack →
      (∀ (before : List Located) (reached : Machine), before <+: (parse script).1 →
        run flags spend (Machine.start script stack) before = .ok reached → reached.Bounded) ∧
      ∀ (left : Stack) (checks : Nat), eval script stack flags spend = .ok (left, checks) →
        left.length ≤ maxStackSize ∧ Fits left ∧ checks ≤ maxOperations) ∧
    (∀ (spend : Spend) (scriptSig scriptPubKey : Bytes) (checks : Nat),
      verify scriptSig scriptPubKey flags spend = .ok checks → checks ≤ 3 * maxOperations) ∧
    ∀ (tx : Transaction) (coins : List Coin) (inputs checks : Nat), tx.size ≤ maxTxSize →
      tx.verifyInputs (Sighash.Midstate.of tx) flags 0 ((tx.inputs.zip coins).take inputs)
        = .ok checks →
      checks < UInt32.size := by
  refine ⟨fun spend script stack few fits => ⟨fun before reached _ ran => ?_,
    fun left checks done => bounded_of_eval few fits done⟩,
    fun spend scriptSig scriptPubKey checks done => checks_le_of_verify done,
    fun tx coins inputs checks small done => Transaction.checks_lt_of_verifyInputs small done⟩
  exact (Machine.bounded_start few fits).run ran

end General

namespace Hashed

local instance : Primitives := Primitives.transparent

/-- Asks for a signature by a key of one byte. -/
def redeemScript : Bytes := [0x01, 0x05, 0xac]

def coin : Coin where
  value := 5000
  scriptPubKey := [0xa9, 0x14] ++ (hash160 redeemScript).bytes ++ [0x87]
  height := 1
  isCoinbase := false

def input : TxInput := ⟨⟨Digest.zero, 0⟩, [0x02, 0x07, 0x01] ++ push redeemScript, 0⟩

def tx : Transaction := ⟨1, [input], [⟨4000, []⟩], 0⟩

def spend : Spend := Spend.of tx 0 coin.value

def flags : ScriptFlags := { ScriptFlags.none with p2sh := true }

/-- The machine once the signature and the key are checked. -/
def checked : Machine := ⟨[[1]], [], [], 1, 1, redeemScript⟩

theorem resources_bounded_hashed :
    run flags spend (Machine.start redeemScript [[7, 1]]) (parse redeemScript).1 = .ok checked ∧
      checked.Bounded ∧
      eval redeemScript [[7, 1]] flags spend = .ok ([[1]], 1) ∧
      ([[1]] : Stack).length ≤ maxStackSize ∧ Fits [[1]] ∧ 1 ≤ maxOperations ∧
      verify input.scriptSig coin.scriptPubKey flags spend = .ok 1 ∧ 1 ≤ 3 * maxOperations ∧
      tx.verifyInputs (Sighash.Midstate.of tx) flags 0 ((tx.inputs.zip [coin]).take 1) = .ok 1 ∧
      1 < UInt32.size := by
  have ran : run flags spend (Machine.start redeemScript [[7, 1]]) (parse redeemScript).1
      = .ok checked := Outcome.toOption_eq_some_iff.mp (by decide +kernel)
  have done : eval redeemScript [[7, 1]] flags spend = .ok ([[1]], 1) :=
    Outcome.toOption_eq_some_iff.mp (by decide +kernel)
  have verified : verify input.scriptSig coin.scriptPubKey flags spend = .ok 1 :=
    Outcome.toOption_eq_some_iff.mp (by decide +kernel)
  have spent : tx.verifyInputs (Sighash.Midstate.of tx) flags 0 ((tx.inputs.zip [coin]).take 1)
      = .ok 1 := Outcome.toOption_eq_some_iff.mp (by decide +kernel)
  obtain ⟨running, deciding, summing⟩ := resources_bounded flags
  obtain ⟨between, leaving⟩ := running spend redeemScript [[7, 1]] (by decide) (by decide)
  obtain ⟨few, fits, checks⟩ := leaving _ _ done
  exact ⟨ran, between _ _ List.prefix_rfl ran, done, few, fits, checks, verified,
    deciding _ _ _ _ verified, spent, summing _ _ _ _ (by decide +kernel) spent⟩

end Hashed

end Script

end ScryptLedger
