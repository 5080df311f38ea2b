import ScryptLedger.Proofs.Script.Positional.Multisig
import ScryptLedger.Proofs.Script.Positional.Reader

/-!
# The machine by index

A machine of words stores both stacks and the open conditionals with the top or
the innermost at the end, counts in words of 32 bits, and remembers where the code
that signatures cover starts instead of the code. Each operation does to it what
it does to the machine that scripts are defined on.
-/

namespace ScryptLedger.Script.Positional

open Attempt

/-- The state between two instructions. -/
structure Machine where
  stack : List Bytes
  altStack : List Bytes
  branches : List Bool
  operations : Nat
  sigChecks : Nat
  codeStart : Nat
deriving DecidableEq, Repr

/-- A machine as it is stored while a script runs. -/
def stored (script : Bytes) (m : Script.Machine) : Machine :=
  ⟨m.stack.reverse, m.altStack.reverse, m.branches.reverse, m.operations, m.sigChecks,
    script.length - m.code.length⟩

namespace Machine

/-- Whether no open conditional skips the next instruction. -/
def isRunning (m : Machine) : Bool := m.branches.all id

/-- Whether a condition is empty or the byte one. -/
def isMinimalCondition (condition : Bytes) : Attempt Bool :=
  if condition.length > 1 then return false
  else if condition.length = 1 then do return (← item condition 0) == 1
  else return true

def openBranch (m : Machine) (negated : Bool) (flags : ScriptFlags) : Attempt Machine :=
  if m.isRunning then
    match m.stack.getLast? with
    | none => refuse .unbalancedConditional
    | some condition => do
      if ← pure flags.minimalIf <&&> notM (isMinimalCondition condition) then refuse .minimalIf
      else do
        let runs ← isTrue condition
        return { m with
          stack := m.stack.dropLast
          branches := m.branches ++ [runs != negated] }
  else return { m with branches := m.branches ++ [false] }

/-- Replaces the innermost conditional by others, none or one. -/
def changeInnermost (m : Machine) (change : Bool → List Bool) : Attempt Machine :=
  match m.branches.getLast? with
  | none => refuse .unbalancedConditional
  | some innermost => return { m with branches := m.branches.dropLast ++ change innermost }

def reserved (m : Machine) (flags : ScriptFlags) : Attempt Machine :=
  if flags.discourageUpgradableNops then refuse .discourageUpgradableNops else return m

def lockTime (m : Machine) (flags : ScriptFlags) : Attempt Nat := do
  let n ← decode (← top m.stack 1) flags.minimalData 5
  if n < 0 then refuse .negativeLocktime else return n.toNat

/-- Puts the outcome of a check on the stack, or fails if it has to succeed. -/
def conclude (m : Machine) (stack : List Bytes) (success verify : Bool) (failure : ScriptError) :
    Attempt Machine :=
  if verify then if success then return { m with stack := stack } else refuse failure
  else return { m with stack := stack ++ [ScriptNumber.ofBool success] }

variable [Primitives]

def checkSig (m : Machine) (verify : Bool) (script : Bytes) (flags : ScriptFlags) (spend : Spend) :
    Attempt Machine := do
  require m.stack 2
  let (key, stack) ← pop m.stack
  let (signature, stack) ← pop stack
  checkTransactionSignature signature flags
  checkKey key flags
  let code ← sliceFrom script m.codeStart
  let success ← checkSignature spend signature key code flags
  if !success && flags.nullFail && !signature.isEmpty then refuse .sigNullFail
  else do
    let checks ← unsigned 32 (m.sigChecks + if signature.isEmpty then 0 else 1)
    conclude { m with sigChecks := checks } stack success verify .checkSigVerify

def checkDataSig (m : Machine) (verify : Bool) (flags : ScriptFlags) : Attempt Machine := do
  require m.stack 3
  let (key, stack) ← pop m.stack
  let (message, stack) ← pop stack
  let (signature, stack) ← pop stack
  checkDataSignature signature flags
  checkKey key flags
  let checks ← unsigned 32 (m.sigChecks + if signature.isEmpty then 0 else 1)
  let success := !signature.isEmpty && verifies signature key (sha256 message)
  if !success && flags.nullFail && !signature.isEmpty then refuse .sigNullFail
  else conclude { m with sigChecks := checks } stack success verify .checkDataSigVerify

def checkMultisig (m : Machine) (verify : Bool) (script : Bytes) (flags : ScriptFlags)
    (spend : Spend) : Attempt Machine := do
  let code ← sliceFrom script m.codeStart
  let (success, checks, stack, operations) ←
    Positional.checkMultisig flags.minimalData m.operations m.stack code flags spend
  let checks ← unsigned 32 (m.sigChecks + checks)
  conclude { m with operations := operations, sigChecks := checks } stack success verify
    .checkMultisigVerify

/-- Performs an operation; `following` is the position after it. -/
def perform (m : Machine) (operation : Operation) (following : Nat) (script : Bytes)
    (flags : ScriptFlags) (spend : Spend) : Attempt Machine :=
  match operation with
  | .ifTrue negated => m.openBranch negated flags
  | .otherwise => m.changeInnermost fun innermost => [!innermost]
  | .endIf => m.changeInnermost fun _ => []
  | .stack op => do return { m with stack := ← applyOp flags.minimalData m.stack op }
  | .toAlt => do
    let (top, stack) ← pop m.stack
    return { m with stack := stack, altStack := m.altStack ++ [top] }
  | .fromAlt =>
    match m.altStack.getLast? with
    | none => refuse .invalidAltstackOperation
    | some top => return { m with stack := m.stack ++ [top], altStack := m.altStack.dropLast }
  | .nop => return m
  | .reservedNop => m.reserved flags
  | .checkLockTime =>
    if flags.checkLockTime then do
      if spend.reachesLockTime (← m.lockTime flags) then return m else refuse .unsatisfiedLocktime
    else m.reserved flags
  | .checkSequence =>
    if flags.checkSequence then do
      let sequence ← m.lockTime flags
      if sequence &&& Spend.sequenceDisabled != 0 || spend.reachesSequence sequence then return m
      else refuse .unsatisfiedLocktime
    else m.reserved flags
  | .fail => refuse .opReturn
  | .codeSeparator => return { m with codeStart := following }
  | .checkSig verify => m.checkSig verify script flags spend
  | .checkDataSig verify => m.checkDataSig verify flags
  | .checkMultisig verify => m.checkMultisig verify script flags spend

end Machine

/-! ## Operations on what is stored -/

/-- What keeps a stored machine from faulting: its code ends the script, and its counts are within
the limit on operations. -/
structure Storable (script : Bytes) (m : Script.Machine) : Prop where
  code_suffix : m.code <:+ script
  sigChecks_le : m.sigChecks ≤ m.operations
  operations_le : m.operations ≤ maxOperations

section Operations

variable {script : Bytes} {m : Script.Machine} {flags : ScriptFlags} {spend : Spend}

theorem isRunning_stored : (stored script m).isRunning = m.isRunning :=
  List.all_reverse

theorem isMinimalCondition_eq (condition : Bytes) :
    Machine.isMinimalCondition condition = pure (condition == [] || condition == [1]) := by
  match condition with
  | [] => rfl
  | [b] => simp [Machine.isMinimalCondition, item]
  | a :: b :: rest => simp [Machine.isMinimalCondition]

theorem openBranch_stored (negated : Bool) :
    (stored script m).openBranch negated flags
      = of (stored script) (m.openBranch negated flags) := by
  rw [Machine.openBranch, Script.Machine.openBranch, isRunning_stored, of_ite]
  by_cases running : m.isRunning = true
  · rw [if_pos running, if_pos running, stored, List.getLast?_reverse]
    obtain ⟨_ | ⟨condition, stack⟩, altStack, branches, operations, sigChecks, code⟩ := m
    · rfl
    · simp only [List.head?_cons, isMinimalCondition_eq, notM_pure, andM_pure, pure_bind, isTrue_eq,
        of_ite, of_throw, of_pure, stored, List.reverse_cons, List.dropLast_concat]
  · rw [if_neg running, if_neg running]
    simp [stored]

theorem changeInnermost_stored {change : Bool → List Bool} {script} :
    (stored script m).changeInnermost change
      = match m.branches with
        | [] => refuse .unbalancedConditional
        | innermost :: outer =>
          pure (stored script { m with branches := (change innermost).reverse ++ outer }) := by
  rw [Machine.changeInnermost, stored, List.getLast?_reverse]
  obtain ⟨stack, altStack, _ | ⟨innermost, outer⟩, operations, sigChecks, code⟩ := m
  · rfl
  · simp [stored]

theorem reserved_stored :
    (stored script m).reserved flags = of (stored script) (m.reserved flags) := by
  rw [Machine.reserved, Script.Machine.reserved, of_ite]
  rfl

theorem lockTime_stored : (stored script m).lockTime flags = of id (m.lockTime flags) := by
  rw [Machine.lockTime, Script.Machine.lockTime, stored, top_reverse]
  obtain ⟨_ | ⟨element, stack⟩, altStack, branches, operations, sigChecks, code⟩ := m
  · rfl
  · simp only [List.getElem?_cons_zero, pure_bind, decode_eq (by decide : 5 ≤ 8), of_bind, of_ite,
      of_throw, of_pure]
    rfl

theorem conclude_stored {left : Stack} {success verify : Bool} {failure : ScriptError} :
    (stored script m).conclude left.reverse success verify failure
      = of (stored script) (m.conclude left success verify failure) := by
  rw [Machine.conclude, Script.Machine.conclude, of_ite, of_ite, of_pure, of_pure, of_throw, stored,
    stored, stored, List.reverse_cons]

theorem sliceFrom_of_suffix {code : Bytes} (suffix : code <:+ script) :
    sliceFrom script (script.length - code.length) = pure code := by
  rw [sliceFrom_eq (Nat.sub_le _ _), ← List.suffix_iff_eq_drop.mp suffix]

theorem Storable.sigChecks_add_lt (sound : Storable script m) {checks : Nat}
    (few : checks ≤ maxOperations) : m.sigChecks + checks < 2 ^ 32 := by
  have paid := sound.sigChecks_le
  have affordable := sound.operations_le
  simp only [maxOperations] at few affordable
  omega

variable [Primitives]

theorem checkSig_stored (sound : Storable script m) (verify : Bool) :
    (stored script m).checkSig verify script flags spend
      = of (stored script) (m.checkSig verify flags spend) := by
  have covered := sliceFrom_of_suffix sound.code_suffix
  obtain ⟨_ | ⟨key, _ | ⟨signature, stack⟩⟩, altStack, branches, operations, sigChecks, code⟩ := m
  · rfl
  · rfl
  have room : sigChecks + (if signature.isEmpty then 0 else 1) < 2 ^ 32 :=
    sound.sigChecks_add_lt (by split <;> decide)
  simp only [Machine.checkSig, Script.Machine.checkSig, stored, require_two, pop_cons, pure_bind,
    checkTransactionSignature_eq, checkKey_eq, covered, checkSignature_eq, unsigned_eq room,
    of_bind, of_ite, of_throw]
  refine bind_congr fun _ => bind_congr fun _ => bind_congr fun success => ?_
  rw [← conclude_stored]
  rfl

theorem checkDataSig_stored (sound : Storable script m) (verify : Bool) :
    (stored script m).checkDataSig verify flags
      = of (stored script) (m.checkDataSig verify flags) := by
  obtain ⟨_ | ⟨key, _ | ⟨message, _ | ⟨signature, stack⟩⟩⟩, altStack, branches, operations,
    sigChecks, code⟩ := m
  · rfl
  · rfl
  · rfl
  have room : sigChecks + (if signature.isEmpty then 0 else 1) < 2 ^ 32 :=
    sound.sigChecks_add_lt (by split <;> decide)
  simp only [Machine.checkDataSig, Script.Machine.checkDataSig, stored, require_three, pop_cons,
    pure_bind, checkDataSignature_eq, checkKey_eq, unsigned_eq room, of_bind, of_ite, of_throw]
  refine bind_congr fun _ => bind_congr fun _ => ?_
  rw [← conclude_stored]
  rfl

theorem checkMultisig_stored (sound : Storable script m) (verify : Bool) :
    (stored script m).checkMultisig verify script flags spend
      = of (stored script) (m.checkMultisig verify flags spend) := by
  have covered := sliceFrom_of_suffix sound.code_suffix
  simp only [Machine.checkMultisig, Script.Machine.checkMultisig, stored, covered, pure_bind,
    checkMultisig_eq]
  rw [of_bind, bind_assoc]
  refine bind_id_eq_of ?_
  rintro ⟨multisig, operations⟩ taken
  obtain ⟨-, -, -, -, -, fewer, rfl, affordable⟩ := Multisig.stack_of_ofStack taken
  dsimp only
  rw [of_bind, bind_assoc]
  refine bind_id_eq_of ?_
  rintro ⟨success, checks⟩ decided
  have counted := Multisig.checks_le decided fewer
  have room : m.sigChecks + checks < 2 ^ 32 := sound.sigChecks_add_lt (by omega)
  dsimp only
  rw [of_pure, pure_bind, ← conclude_stored]
  dsimp only [id_eq]
  rw [unsigned_eq room]
  rfl

theorem perform_stored (sound : Storable script m) {operation : Operation}
    (modest : operation.isModest = true) {following : Bytes} :
    (stored script m).perform operation (script.length - following.length) script flags spend
      = of (stored script) (m.perform operation following flags spend) := by
  cases operation with
  | ifTrue negated => exact openBranch_stored negated
  | otherwise =>
    rw [Machine.perform, changeInnermost_stored, Script.Machine.perform]
    cases m.branches <;> rfl
  | endIf =>
    rw [Machine.perform, changeInnermost_stored, Script.Machine.perform]
    cases m.branches <;> rfl
  | stack op =>
    rw [Machine.perform, Script.Machine.perform, of_bind, stored, applyOp_eq op modest, of_eq_bind,
      bind_assoc]
    rfl
  | toAlt =>
    obtain ⟨_ | ⟨top, stack⟩, altStack, branches, operations, sigChecks, code⟩ := m
    · rfl
    · simp only [Machine.perform, Script.Machine.perform, stored, pop_cons, pure_bind, of_pure]
      rw [← List.reverse_cons]
  | fromAlt =>
    obtain ⟨stack, _ | ⟨top, altStack⟩, branches, operations, sigChecks, code⟩ := m
    · rfl
    · simp only [Machine.perform, Script.Machine.perform, stored, List.reverse_cons,
        List.getLast?_concat, List.dropLast_concat, of_pure]
  | nop => rfl
  | reservedNop => exact reserved_stored
  | checkLockTime =>
    simp only [Machine.perform, Script.Machine.perform, reserved_stored, lockTime_stored, of_ite,
      of_bind, of_pure, of_throw]
  | checkSequence =>
    simp only [Machine.perform, Script.Machine.perform, reserved_stored, lockTime_stored, of_ite,
      of_bind, of_pure, of_throw]
  | fail => rfl
  | codeSeparator => rfl
  | checkSig verify => exact checkSig_stored sound verify
  | checkDataSig verify => exact checkDataSig_stored sound verify
  | checkMultisig verify => exact checkMultisig_stored sound verify

end Operations

end ScryptLedger.Script.Positional
