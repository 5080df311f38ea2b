import ScryptLedger.Proofs.Script.Limits
import ScryptLedger.Proofs.Script.Positional.Machine
import ScryptLedger.Script.Verify

/-!
# Scripts that never fault

A script runs on a machine of words from one position to the next, and a spend
runs its scripts one after another. Both do what they are defined to do, so no
input makes them fault.
-/

namespace ScryptLedger.Script.Positional

open Attempt

variable [Primitives]

/-! ## Instructions -/

namespace Machine

/-- What an instruction does to the machine, once counted; `following` is the position after it. -/
def execute (m : Machine) (instruction : Instruction) (following : Nat) (script : Bytes)
    (flags : ScriptFlags) (spend : Spend) : Attempt Machine :=
  let ⟨opcode, data⟩ := instruction
  if m.isRunning && opcode ≤ 0x4e then do
    if ← pure flags.minimalData <&&> notM (isMinimalPush data opcode) then refuse .minimalData
    else return { m with stack := m.stack ++ [data] }
  else if m.isRunning || (0x63 ≤ opcode && opcode ≤ 0x68) then
    if flags.legacyRules && Opcode.isLegacyRemoved opcode then refuse .badOpcode
    else
      match Operation.ofByte? opcode with
      | none => refuse .badOpcode
      | some operation => m.perform operation following script flags spend
  else return m

/-- One step: the limits on the instruction, its effect, and the limit on the stacks. -/
def step (script : Bytes) (flags : ScriptFlags) (spend : Spend) (m : Machine) (_start : Nat)
    (instruction : Instruction) (following : Nat) : Attempt Machine :=
  let operations := m.operations + if Opcode.isCounted instruction.opcode then 1 else 0
  if instruction.data.length > maxElementSize then refuse .pushSize
  else if operations > maxOperations then refuse .opCount
  else if Opcode.isDisabled instruction.opcode flags then refuse .disabledOpcode
  else do
    let next ← { m with operations := operations }.execute instruction following script flags spend
    if next.stack.length + next.altStack.length > maxStackSize then refuse .stackSize
    else return next

end Machine

/-! ## Scripts and spends -/

/-- The stack a script leaves and the signature checks it counts for. -/
def eval (script : Bytes) (stack : List Bytes) (flags : ScriptFlags) (spend : Spend) :
    Attempt (List Bytes × Nat) :=
  if script.length > maxScriptSize then refuse .scriptSize
  else do
    let final ← through script (Machine.step script flags spend) (fun _ cause => refuse cause) 0
      ⟨stack, [], [], 0, 0, 0⟩
    if !final.branches.isEmpty then refuse .unbalancedConditional
    else return (final.stack, final.sigChecks)

omit [Primitives] in
/-- Fails unless the top of the stack is true. -/
def requireTrue (stack : List Bytes) : Attempt Unit :=
  match stack.getLast? with
  | none => refuse .evalFalse
  | some top => do
    if ← isTrue top then return else refuse .evalFalse

/-- Runs the script that an output hashes, and adds its signature checks to those before. -/
def redeem (scriptSig : Bytes) (stack : List Bytes) (sigChecks : Nat) (flags : ScriptFlags)
    (spend : Spend) : Attempt (List Bytes × Nat) := do
  if ← notM (isPushOnly scriptSig) then refuse .sigPushOnly
  else do
    let (script, stack) ← pop stack
    let (stack, redeemChecks) ← eval script stack flags spend
    let sigChecks ← unsigned 32 (sigChecks + redeemChecks)
    requireTrue stack
    return (stack, sigChecks)

/-- Decides a spend, and counts the signature checks that took. -/
def verify (scriptSig scriptPubKey : Bytes) (flags : ScriptFlags) (spend : Spend) :
    Attempt Nat := do
  if ← pure flags.sigPushOnly <&&> notM (isPushOnly scriptSig) then refuse .sigPushOnly
  else do
    let (pushed, sigChecks) ← eval scriptSig [] flags spend
    let (stack, pubKeyChecks) ← eval scriptPubKey pushed flags spend
    let sigChecks ← unsigned 32 (sigChecks + pubKeyChecks)
    requireTrue stack
    let hashed ← pure flags.p2sh <&&> isPayToScriptHash scriptPubKey
    let (stack, sigChecks) ←
      if hashed then redeem scriptSig pushed sigChecks flags spend else pure (stack, sigChecks)
    if flags.cleanStack && stack.length != 1 then refuse .cleanStack else return sigChecks

/-! ## What is stored between steps -/

section Storable

variable {script : Bytes} {m next : Script.Machine} {flags : ScriptFlags} {spend : Spend}

theorem code_of_perform {operation : Operation} {following : Bytes}
    (done : m.perform operation following flags spend = .ok next) (before : m.code <:+ script)
    (inside : following <:+ script) : next.code <:+ script := by
  cases Script.Machine.changes_of_perform done with
  | marks =>
    cases Outcome.pure_eq_ok_iff.mp done
    exact inside
  | _ => exact before

theorem code_of_execute {located : Located}
    (done : m.execute located flags spend = .ok next) (before : m.code <:+ script)
    (inside : located.following <:+ script) : next.code <:+ script := by
  obtain ⟨⟨opcode, data⟩, following⟩ := located
  simp only [Script.Machine.execute] at done
  by_cases push : (m.isRunning && decide (opcode ≤ 0x4e)) = true
  · rw [if_pos push] at done
    obtain ⟨-, done⟩ := Outcome.refuse_eq_ok_iff.mp done
    cases Outcome.pure_eq_ok_iff.mp done
    exact before
  rw [if_neg push] at done
  by_cases followed : (m.isRunning || decide (0x63 ≤ opcode) && decide (opcode ≤ 0x68)) = true
  · rw [if_pos followed] at done
    obtain ⟨-, done⟩ := Outcome.refuse_eq_ok_iff.mp done
    cases asked : Operation.ofByte? opcode with
    | none => simp [asked] at done
    | some operation =>
      simp only [asked] at done
      exact code_of_perform done before inside
  · rw [if_neg followed] at done
    cases Outcome.pure_eq_ok_iff.mp done
    exact before

theorem Storable.step {located : Located} (sound : Storable script m)
    (inside : located.following <:+ script) (done : m.step flags spend located = .ok next) :
    Storable script next := by
  have steps := Script.Machine.steps_of_step done
  have paid := steps.sigChecks_le
  have before := sound.sigChecks_le
  refine ⟨?_, by omega, steps.operations_le_max⟩
  obtain ⟨-, done⟩ := Outcome.refuse_eq_ok_iff.mp done
  obtain ⟨-, done⟩ := Outcome.refuse_eq_ok_iff.mp done
  obtain ⟨-, done⟩ := Outcome.refuse_eq_ok_iff.mp done
  obtain ⟨after, executed, done⟩ := Outcome.bind_eq_ok_iff.mp done
  obtain ⟨-, done⟩ := Outcome.refuse_eq_ok_iff.mp done
  cases Outcome.pure_eq_ok_iff.mp done
  exact code_of_execute executed sound.code_suffix inside

theorem execute_stored (sound : Storable script m) (located : Located) :
    (stored script m).execute located.instruction (script.length - located.following.length)
        script flags spend
      = of (stored script) (m.execute located flags spend) := by
  obtain ⟨⟨opcode, data⟩, following⟩ := located
  simp only [Machine.execute, Script.Machine.execute, isRunning_stored, isMinimalPush_eq,
    notM_pure, andM_pure, pure_bind, of_ite, of_throw, of_pure]
  split
  · rw [stored, stored, List.reverse_cons]
  split
  · cases asked : Operation.ofByte? opcode with
    | none => rfl
    | some operation =>
      dsimp only
      rw [perform_stored sound (Operation.isModest_of_ofByte? asked)]
  · rfl

theorem step_stored (sound : Storable script m) (located : Located) :
    visitLocated script (Machine.step script flags spend) (stored script m) located
      = of (stored script) (m.step flags spend located) := by
  refine refuse_eq_of fun _ => refuse_eq_of fun affordable => refuse_eq_of fun _ => ?_
  have counted : Storable script (m.counting located.instruction.opcode) :=
    ⟨sound.code_suffix, sound.sigChecks_le.trans (Nat.le_add_right _ _), Nat.not_lt.mp affordable⟩
  have executed : (stored script (m.counting located.instruction.opcode)).execute
      located.instruction (script.length - located.following.length) script flags spend = _ :=
    execute_stored counted located
  refine Eq.trans (congrArg (· >>= _) executed) (bind_eq_of fun next _ => ?_)
  rw [stored, List.length_reverse, List.length_reverse]
  exact refuse_eq_of fun _ => rfl

theorem foldlM_stored {located : List Located}
    (inside : ∀ instruction ∈ located, instruction.following <:+ script)
    (sound : Storable script m) :
    located.foldlM (visitLocated script (Machine.step script flags spend)) (stored script m)
      = of (stored script) (run flags spend m located) := by
  induction located generalizing m with
  | nil => rfl
  | cons first rest ih =>
    obtain ⟨here, later⟩ := List.forall_mem_cons.mp inside
    rw [List.foldlM_cons, step_stored sound first, run, List.foldlM_cons]
    exact bind_eq_of fun next stepped => ih later (sound.step here stepped)

end Storable

/-! ## What runs as it is defined to -/

omit [Primitives] in
theorem following_suffix {script : Bytes} {located : Located} (read : located ∈ (parse script).1) :
    located.following <:+ script := by
  induction script using Instruction.read_induction with
  | cut script found =>
    rw [parse_of_read?_eq_none found] at read
    exact absurd read List.not_mem_nil
  | next script instruction rest found ih =>
    have suffix : rest <:+ script := ⟨_, Instruction.encode_append_of_read? found⟩
    rw [parse_of_read? found] at read
    rcases List.mem_cons.mp read with rfl | later
    · exact suffix
    · exact (ih later).trans suffix

omit [Primitives] in
theorem storable_start {script : Bytes} {stack : Stack} :
    Storable script (Script.Machine.start script stack) :=
  ⟨List.suffix_rfl, Nat.le_refl _, Nat.zero_le _⟩

theorem eval_eq (script : Bytes) (stack : Stack) (flags : ScriptFlags) (spend : Spend) :
    eval script stack.reverse flags spend
      = of (fun (left, checks) => (left.reverse, checks))
        (Script.eval script stack flags spend) := by
  rw [eval, Script.eval]
  refine refuse_eq_of fun _ => ?_
  have first : (⟨stack.reverse, [], [], 0, 0, 0⟩ : Machine)
      = stored script (Script.Machine.start script stack) := by
    simp [stored, Script.Machine.start]
  rw [first, through_eq (Nat.zero_le _), List.drop_zero,
    foldlM_stored (fun _ => following_suffix) storable_start, bind_assoc]
  refine bind_eq_of fun final _ => ?_
  show (if (tail script).isEmpty then _ else _) >>= _
    = of _ (if !(tail script).isEmpty then _ else _)
  cases (tail script).isEmpty with
  | false => rfl
  | true =>
    show (if !final.branches.reverse.isEmpty then _ else _)
      = of _ (if !final.branches.isEmpty then _ else _)
    rw [List.isEmpty_reverse]
    exact refuse_eq_of fun _ => rfl

omit [Primitives] in
theorem requireTrue_eq (stack : Stack) :
    requireTrue stack.reverse = of id (Script.requireTrue stack) := by
  rw [requireTrue, List.getLast?_reverse]
  cases stack with
  | nil => rfl
  | cons top left =>
    rw [Script.requireTrue, of_ite, List.head?_cons]
    dsimp only
    rw [isTrue_eq, pure_bind]
    rfl

theorem redeem_eq (scriptSig : Bytes) {stack : Stack} {sigChecks : Nat} {flags : ScriptFlags}
    {spend : Spend} (few : stack.length ≤ maxStackSize) (fits : Fits stack)
    (room : sigChecks ≤ 2 * maxOperations) :
    redeem scriptSig stack.reverse sigChecks flags spend
      = of (fun (left, checks) => (left.reverse, sigChecks + checks))
        (Script.redeem scriptSig stack flags spend) := by
  rw [redeem, Script.redeem.eq_def, isPushOnly_eq, notM_pure, pure_bind]
  refine refuse_eq_of fun _ => ?_
  cases stack with
  | nil => rfl
  | cons script below =>
    rw [pop_cons, pure_bind]
    dsimp only
    rw [eval_eq]
    refine bind_eq_of ?_
    rintro ⟨left, checks⟩ ran
    rw [List.length_cons] at few
    obtain ⟨-, -, paid⟩ := bounded_of_eval (by omega) (Fits.cons_iff.mp fits).2 ran
    have narrow : sigChecks + checks < 2 ^ 32 := by
      simp only [maxOperations] at room paid
      omega
    dsimp only
    rw [unsigned_eq narrow, pure_bind, requireTrue_eq]
    exact bind_eq_of fun _ _ => rfl

theorem verify_eq (scriptSig scriptPubKey : Bytes) (flags : ScriptFlags) (spend : Spend) :
    verify scriptSig scriptPubKey flags spend
      = of id (Script.verify scriptSig scriptPubKey flags spend) := by
  rw [verify, Script.verify, isPushOnly_eq, notM_pure, andM_pure, pure_bind]
  refine refuse_eq_of fun _ => ?_
  rw [← List.reverse_nil, eval_eq]
  refine bind_eq_of ?_
  rintro ⟨pushed, sigChecks⟩ ranSig
  obtain ⟨few, fits, signing⟩ := bounded_of_eval (Nat.zero_le _) Fits.nil ranSig
  dsimp only
  rw [eval_eq]
  refine bind_eq_of ?_
  rintro ⟨left, pubKeyChecks⟩ ranPubKey
  obtain ⟨-, -, paying⟩ := bounded_of_eval few fits ranPubKey
  have both : sigChecks + pubKeyChecks ≤ 2 * maxOperations := by omega
  have narrow : sigChecks + pubKeyChecks < 2 ^ 32 := by
    simp only [maxOperations] at both
    omega
  dsimp only
  rw [unsigned_eq narrow, pure_bind, requireTrue_eq]
  refine bind_eq_of fun _ _ => ?_
  rw [isPayToScriptHash_eq, andM_pure, pure_bind]
  by_cases hashes : (flags.p2sh && Script.isPayToScriptHash scriptPubKey) = true
  · rw [if_pos hashes, if_pos hashes, redeem_eq scriptSig few fits both]
    refine bind_eq_of ?_
    rintro ⟨stack, redeemChecks⟩ -
    dsimp only
    rw [List.length_reverse]
    exact refuse_eq_of fun _ => rfl
  · rw [if_neg hashes, if_neg hashes, pure_bind, pure_bind]
    dsimp only
    rw [List.length_reverse]
    exact refuse_eq_of fun _ => rfl

/-- Scripts and spends run on a machine of words as they are defined to, and never make it fault.
Where signatures are matched in order, the keys do not run out; where a selector names the keys,
each search for its next bit ends at one below the number of keys, and there are enough of them. -/
theorem runs_without_fault (flags : ScriptFlags) (spend : Spend) :
    (∀ (script : Bytes) (stack : List Bytes),
      eval script stack flags spend
          = of (fun (left, checks) => (left.reverse, checks))
            (Script.eval script stack.reverse flags spend) ∧
        ¬ (eval script stack flags spend).Faults) ∧
    (∀ scriptSig scriptPubKey : Bytes,
      verify scriptSig scriptPubKey flags spend
          = of id (Script.verify scriptSig scriptPubKey flags spend) ∧
        ¬ (verify scriptSig scriptPubKey flags spend).Faults) ∧
    ∀ (minimal : Bool) (performed : Nat) (stack : List Bytes) (given : Operands) (operations : Nat)
      (code : Bytes), operands minimal performed stack = .ok (given, operations) →
      ¬ (matchFrom spend code flags given.keys given.signatures 0 0).Faults ∧
      ∀ bits : BitVec 32, selectedBits given.selector given.keys.length = .ok bits →
        (∀ index later, index ≤ later → bits.getLsbD later = true →
          ∃ found < given.keys.length, nextSet bits index = .ok found) ∧
        (bitCount bits = given.signatures.length →
          ¬ (checkSelected spend code flags bits given.keys 0 0 given.signatures).Faults) := by
  refine ⟨fun script stack => ?_, fun scriptSig scriptPubKey => ?_,
    fun minimal performed stack given operations code read => ?_⟩
  · have same := eval_eq script stack.reverse flags spend
    rw [List.reverse_reverse] at same
    exact ⟨same, same ▸ not_faults_of⟩
  · have same := verify_eq scriptSig scriptPubKey flags spend
    exact ⟨same, same ▸ not_faults_of⟩
  · obtain ⟨fewer, few⟩ := lengths_of_operands read
    refine ⟨not_faults_matchFrom fewer, fun bits selects => ⟨fun index later ahead isSet => ?_,
      not_faults_checkSelected (few.trans (by decide)) selects⟩⟩
    obtain ⟨found, searched, here⟩ := exists_nextSet ahead isSet
    exact ⟨found, lt_of_selectedBits selects here, searched⟩

namespace Bare

local instance : Primitives := Primitives.transparent

/-- A spend by an input that the transaction does not have. -/
def spend : Spend := Spend.of ⟨1, [], [], 0⟩ 3 0

def flags : ScriptFlags := { ScriptFlags.none with schnorrMultisig := true }

/-- Two signatures, three keys and a selector of the last two, as CHECKMULTISIG finds them. -/
def given : Operands :=
  ⟨[[9], [1], [2]], [1 :: List.replicate 64 0, 2 :: List.replicate 64 0], [6], 8⟩

def stack : List Bytes :=
  given.selector :: (given.signatures.reverse ++ [2] :: (given.keys.reverse ++ [[3]]))

theorem runs_without_fault_bare :
    ¬ (eval [0xae] stack flags spend).Faults ∧
      ¬ (verify [0x51] [0x51, 0x51, 0x51, 0xae] flags spend).Faults ∧
      operands true 0 stack = .ok (given, 3) ∧
      ¬ (matchFrom spend [0xae] flags given.keys given.signatures 0 0).Faults ∧
      selectedBits given.selector given.keys.length = .ok 6 ∧
      (∃ found < given.keys.length, nextSet 6 0 = .ok found) ∧
      ¬ (checkSelected spend [0xae] flags 6 given.keys 0 0 given.signatures).Faults := by
  have read : operands true 0 stack = .ok (given, 3) := rfl
  have selects : selectedBits given.selector given.keys.length = .ok 6 := rfl
  obtain ⟨running, deciding, checking⟩ := runs_without_fault flags spend
  obtain ⟨matching, selecting⟩ := checking true 0 stack given 3 [0xae] read
  obtain ⟨searching, counting⟩ := selecting 6 selects
  exact ⟨(running [0xae] stack).2, (deciding [0x51] [0x51, 0x51, 0x51, 0xae]).2, read, matching,
    selects, searching 0 2 (Nat.zero_le _) rfl, counting rfl⟩

end Bare

end ScryptLedger.Script.Positional
