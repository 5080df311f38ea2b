import ScryptLedger.Proofs.Script.Multisig
import ScryptLedger.Script.Eval

/-!
# What one step does

An operation changes the machine in one of a few ways: it opens, turns or closes
a conditional, computes on the stack, moves an element between the stacks, checks
signatures and tells the outcome, or changes nothing that limits apply to. Every
step counts its instruction, then pushes, performs an operation or skips. What
holds of all runs follows from these cases.
-/

namespace ScryptLedger.Script

open Machine

namespace Operation

/-- How many conditionals an operation opens. -/
def opened : Operation → Nat
  | ifTrue _ => 1
  | _ => 0

/-- How many conditionals an operation closes. -/
def closed : Operation → Nat
  | endIf => 1
  | _ => 0

/-- Whether an operation checks signatures. -/
def isSigning : Operation → Bool
  | checkSig _ | checkDataSig _ | checkMultisig _ => true
  | _ => false

/-- Whether an operation leaves the machine as it is wherever it succeeds. -/
def isIdle : Operation → Bool
  | nop | reservedNop | checkLockTime | checkSequence => true
  | _ => false

/-- Whether an operation pushes no integer but the small ones. -/
def isModest : Operation → Bool
  | stack (.number n) => n.natAbs ≤ 16
  | _ => true

/-! ## Bytes and the operations they ask for -/

/-- What holds in each row of the table holds of whatever a byte asks for. -/
theorem of_ofByte? (holds : UInt8 → Operation → Bool)
    (table : ∀ row : Fin 256, (ofByte? (UInt8.ofNat row)).all (holds (UInt8.ofNat row)) = true)
    {opcode : UInt8} {operation : Operation} (asked : ofByte? opcode = some operation) :
    holds opcode operation = true := by
  have row := table ⟨opcode.toNat, opcode.toNat_lt⟩
  simpa [asked] using row

theorem opened_of_ofByte? {opcode : UInt8} {operation : Operation}
    (asked : ofByte? opcode = some operation) :
    operation.opened = if opcode = 0x63 ∨ opcode = 0x64 then 1 else 0 := by
  simpa using of_ofByte? (fun opcode operation =>
    operation.opened == if opcode = 0x63 ∨ opcode = 0x64 then 1 else 0) (by decide +kernel) asked

theorem closed_of_ofByte? {opcode : UInt8} {operation : Operation}
    (asked : ofByte? opcode = some operation) :
    operation.closed = if opcode = 0x68 then 1 else 0 := by
  simpa using of_ofByte? (fun opcode operation =>
    operation.closed == if opcode = 0x68 then 1 else 0) (by decide +kernel) asked

theorem eq_otherwise_of_ofByte? {operation : Operation}
    (asked : ofByte? 0x67 = some operation) : operation = otherwise :=
  (Option.some.inj asked).symm

theorem isCounted_of_ofByte? {opcode : UInt8} {operation : Operation}
    (asked : ofByte? opcode = some operation) (signing : operation.isSigning = true) :
    Opcode.isCounted opcode = true := by
  have row := of_ofByte? (fun opcode operation =>
    !operation.isSigning || Opcode.isCounted opcode) (by decide +kernel) asked
  simpa [signing] using row

theorem isModest_of_ofByte? {opcode : UInt8} {operation : Operation}
    (asked : ofByte? opcode = some operation) : operation.isModest = true :=
  of_ofByte? (fun _ operation => operation.isModest) (by decide +kernel) asked

end Operation

variable [Primitives] {flags : ScriptFlags} {spend : Spend} {m next : Machine}

/-! ## Operations -/

/-- The ways an operation can change the machine. -/
inductive Machine.Changes (m : Machine) : Operation → Machine → Prop
  | opens {negated runs : Bool} {left : Stack} (kept : left <:+ m.stack) :
      Changes m (.ifTrue negated) { m with stack := left, branches := runs :: m.branches }
  | turns {innermost : Bool} {outer : List Bool} (inside : m.branches = innermost :: outer) :
      Changes m .otherwise { m with branches := (!innermost) :: outer }
  | closes {innermost : Bool} {outer : List Bool} (inside : m.branches = innermost :: outer) :
      Changes m .endIf { m with branches := outer }
  | computes {op : StackOp} {minimal : Bool} {result : Stack}
      (computed : op.apply minimal m.stack = .ok result) :
      Changes m (.stack op) { m with stack := result }
  | stores {top : Bytes} {left : Stack} (taken : m.stack = top :: left) :
      Changes m .toAlt { m with stack := left, altStack := top :: m.altStack }
  | fetches {top : Bytes} {left : Stack} (taken : m.altStack = top :: left) :
      Changes m .fromAlt { m with stack := top :: m.stack, altStack := left }
  | marks {following : Bytes} : Changes m .codeSeparator { m with code := following }
  | idles {operation : Operation} (idle : operation.isIdle = true) : Changes m operation m
  | checks {operation : Operation} {left result : Stack} (keys checks : Nat)
      (signing : operation.isSigning = true) (kept : left <:+ m.stack)
      (told : result = left ∨ ∃ success, result = ScriptNumber.ofBool success :: left)
      (counted : checks ≤ 1 + keys)
      (affordable : keys = 0 ∨ m.operations + keys ≤ maxOperations) :
      Changes m operation { m with
        stack := result
        operations := m.operations + keys
        sigChecks := m.sigChecks + checks }

namespace Machine

omit [Primitives] in
theorem openBranch_eq_ok {negated : Bool} (done : m.openBranch negated flags = .ok next) :
    ∃ runs left, left <:+ m.stack ∧
      next = { m with stack := left, branches := runs :: m.branches } := by
  rw [openBranch] at done
  by_cases running : m.isRunning = true
  · rw [if_pos running] at done
    cases stack : m.stack with
    | nil => simp [stack] at done
    | cons condition left =>
      simp only [stack] at done
      obtain ⟨-, done⟩ := Outcome.refuse_eq_ok_iff.mp done
      exact ⟨_, left, List.suffix_cons condition left, (Outcome.pure_eq_ok_iff.mp done).symm⟩
  · rw [if_neg running] at done
    exact ⟨false, m.stack, List.suffix_rfl, (Outcome.pure_eq_ok_iff.mp done).symm⟩

omit [Primitives] in
theorem reserved_eq_ok (done : m.reserved flags = .ok next) : next = m :=
  (Outcome.pure_eq_ok_iff.mp (Outcome.refuse_eq_ok_iff.mp done).2).symm

omit [Primitives] in
/-- An operation that asks for a lock time, where it has joined the language. -/
theorem joined_eq_ok {Value : Type} {outcome : Except ScriptError Value} {passes : Value → Prop}
    [DecidablePred passes] {cause : ScriptError} {joined : Bool}
    (done : (if joined then outcome >>= fun value => if passes value then return m else throw cause
      else m.reserved flags) = .ok next) : next = m := by
  cases joined with
  | false => exact reserved_eq_ok done
  | true =>
    obtain ⟨value, -, done⟩ := Outcome.bind_eq_ok_iff.mp done
    obtain ⟨-, done⟩ := Outcome.require_eq_ok_iff.mp done
    exact (Outcome.pure_eq_ok_iff.mp done).symm

omit [Primitives] in
theorem conclude_eq_ok {left : Stack} {success verify : Bool} {failure : ScriptError}
    (done : m.conclude left success verify failure = .ok next) :
    ∃ result, (result = left ∨ ∃ success, result = ScriptNumber.ofBool success :: left) ∧
      next = { m with stack := result } := by
  rw [conclude] at done
  cases verify with
  | true =>
    cases success with
    | true => exact ⟨left, Or.inl rfl, (Outcome.pure_eq_ok_iff.mp done).symm⟩
    | false => exact absurd done Outcome.throw_ne_ok
  | false => exact ⟨_, Or.inr ⟨success, rfl⟩, (Outcome.pure_eq_ok_iff.mp done).symm⟩

theorem changes_of_checkSig {verify : Bool} (done : m.checkSig verify flags spend = .ok next) :
    Changes m (.checkSig verify) next := by
  rw [checkSig] at done
  rcases stack : m.stack with _ | ⟨key, _ | ⟨signature, left⟩⟩
  · simp [stack] at done
  · simp [stack] at done
  simp only [stack] at done
  obtain ⟨_, -, done⟩ := Outcome.bind_eq_ok_iff.mp done
  obtain ⟨_, -, done⟩ := Outcome.bind_eq_ok_iff.mp done
  obtain ⟨success, -, done⟩ := Outcome.bind_eq_ok_iff.mp done
  obtain ⟨-, done⟩ := Outcome.refuse_eq_ok_iff.mp done
  obtain ⟨result, told, rfl⟩ := conclude_eq_ok done
  refine .checks 0 _ rfl ?_ told ?_ (Or.inl rfl)
  · exact ⟨[key, signature], stack.symm⟩
  · split <;> omega

theorem changes_of_checkDataSig {verify : Bool} (done : m.checkDataSig verify flags = .ok next) :
    Changes m (.checkDataSig verify) next := by
  rw [checkDataSig] at done
  rcases stack : m.stack with _ | ⟨key, _ | ⟨message, _ | ⟨signature, left⟩⟩⟩
  · simp [stack] at done
  · simp [stack] at done
  · simp [stack] at done
  simp only [stack] at done
  obtain ⟨_, -, done⟩ := Outcome.bind_eq_ok_iff.mp done
  obtain ⟨_, -, done⟩ := Outcome.bind_eq_ok_iff.mp done
  obtain ⟨-, done⟩ := Outcome.refuse_eq_ok_iff.mp done
  obtain ⟨result, told, rfl⟩ := conclude_eq_ok done
  refine .checks 0 _ rfl ?_ told ?_ (Or.inl rfl)
  · exact ⟨[key, message, signature], stack.symm⟩
  · split <;> omega

theorem changes_of_checkMultisig {verify : Bool}
    (done : m.checkMultisig verify flags spend = .ok next) :
    Changes m (.checkMultisig verify) next := by
  obtain ⟨⟨multisig, operations⟩, taken, done⟩ := Outcome.bind_eq_ok_iff.mp done
  obtain ⟨⟨success, checks⟩, decided, done⟩ := Outcome.bind_eq_ok_iff.mp done
  obtain ⟨result, told, rfl⟩ := conclude_eq_ok done
  obtain ⟨keyCount, signatureCount, layout, -, -, fewer, rfl, affordable⟩ :=
    Multisig.stack_of_ofStack taken
  have counted := Multisig.checks_le decided fewer
  refine .checks multisig.keys.length checks rfl ?_ told (by omega) (Or.inr affordable)
  rw [layout]
  exact (List.suffix_cons _ _).trans (List.suffix_append _ _)

/-- What an operation does is one of the ways to change the machine. -/
theorem changes_of_perform {operation : Operation} {following : Bytes}
    (done : m.perform operation following flags spend = .ok next) : Changes m operation next := by
  cases operation with
  | ifTrue negated =>
    obtain ⟨runs, left, kept, rfl⟩ := openBranch_eq_ok done
    exact .opens kept
  | otherwise =>
    rw [perform] at done
    cases inside : m.branches with
    | nil => simp [inside] at done
    | cons innermost outer =>
      simp only [inside] at done
      cases Outcome.pure_eq_ok_iff.mp done
      exact .turns inside
  | endIf =>
    rw [perform] at done
    cases inside : m.branches with
    | nil => simp [inside] at done
    | cons innermost outer =>
      simp only [inside] at done
      cases Outcome.pure_eq_ok_iff.mp done
      exact .closes inside
  | stack op =>
    obtain ⟨result, computed, done⟩ := Outcome.bind_eq_ok_iff.mp done
    cases Outcome.pure_eq_ok_iff.mp done
    exact .computes computed
  | toAlt =>
    rw [perform] at done
    cases taken : m.stack with
    | nil => simp [taken] at done
    | cons top left =>
      simp only [taken] at done
      cases Outcome.pure_eq_ok_iff.mp done
      exact .stores taken
  | fromAlt =>
    rw [perform] at done
    cases taken : m.altStack with
    | nil => simp [taken] at done
    | cons top left =>
      simp only [taken] at done
      cases Outcome.pure_eq_ok_iff.mp done
      exact .fetches taken
  | nop =>
    cases Outcome.pure_eq_ok_iff.mp done
    exact .idles rfl
  | reservedNop =>
    cases reserved_eq_ok done
    exact .idles rfl
  | checkLockTime =>
    cases joined_eq_ok done
    exact .idles rfl
  | checkSequence =>
    cases joined_eq_ok done
    exact .idles rfl
  | fail => exact absurd done Outcome.throw_ne_ok
  | codeSeparator =>
    cases Outcome.pure_eq_ok_iff.mp done
    exact .marks
  | checkSig verify => exact changes_of_checkSig done
  | checkDataSig verify => exact changes_of_checkDataSig done
  | checkMultisig verify => exact changes_of_checkMultisig done

theorem Changes.operations_le {operation : Operation} (changes : Changes m operation next)
    (few : m.operations ≤ maxOperations) : next.operations ≤ maxOperations := by
  cases changes with
  | checks keys checks signing kept told counted affordable =>
    dsimp only
    omega
  | _ => exact few

/-! ## Steps -/

/-- The machine once an instruction is counted. -/
def counting (m : Machine) (opcode : UInt8) : Machine :=
  { m with operations := m.operations + if Opcode.isCounted opcode then 1 else 0 }

/-- What an instruction can do to the machine: it pushes, performs an operation, or is skipped,
which never happens to a conditional. -/
inductive Executes (m : Machine) : Instruction → Machine → Prop
  | pushes {opcode : UInt8} {data : Bytes} (small : opcode ≤ 0x4e) :
      Executes m ⟨opcode, data⟩ { m with stack := data :: m.stack }
  | performs {opcode : UInt8} {data : Bytes} {operation : Operation} {next : Machine}
      (asked : Operation.ofByte? opcode = some operation) (changes : Changes m operation next) :
      Executes m ⟨opcode, data⟩ next
  | skips {opcode : UInt8} {data : Bytes} (plain : ¬ (0x63 ≤ opcode ∧ opcode ≤ 0x68)) :
      Executes m ⟨opcode, data⟩ m

theorem executes_of_execute {located : Located}
    (done : m.execute located flags spend = .ok next) :
    Executes m located.instruction next := by
  obtain ⟨⟨opcode, data⟩, following⟩ := located
  simp only [execute] at done
  by_cases push : (m.isRunning && decide (opcode ≤ 0x4e)) = true
  · rw [if_pos push] at done
    obtain ⟨-, done⟩ := Outcome.refuse_eq_ok_iff.mp done
    cases Outcome.pure_eq_ok_iff.mp done
    simp only [Bool.and_eq_true, decide_eq_true_eq] at push
    exact .pushes push.2
  rw [if_neg push] at done
  by_cases followed : (m.isRunning || decide (0x63 ≤ opcode) && decide (opcode ≤ 0x68)) = true
  · rw [if_pos followed] at done
    obtain ⟨-, done⟩ := Outcome.refuse_eq_ok_iff.mp done
    cases asked : Operation.ofByte? opcode with
    | none => simp [asked] at done
    | some operation =>
      simp only [asked] at done
      exact .performs asked (changes_of_perform done)
  · rw [if_neg followed] at done
    cases Outcome.pure_eq_ok_iff.mp done
    refine .skips fun conditional => followed ?_
    simp [conditional]

/-- What a step that succeeds has checked, and done. -/
structure Steps (flags : ScriptFlags) (m : Machine) (instruction : Instruction) (next : Machine) :
    Prop where
  data_le : instruction.data.length ≤ maxElementSize
  operations_le : (m.counting instruction.opcode).operations ≤ maxOperations
  enabled : Opcode.isDisabled instruction.opcode flags = false
  executes : Executes (m.counting instruction.opcode) instruction next
  stacks_le : next.stack.length + next.altStack.length ≤ maxStackSize

theorem steps_of_step {located : Located} (done : m.step flags spend located = .ok next) :
    Steps flags m located.instruction next := by
  obtain ⟨small, done⟩ := Outcome.refuse_eq_ok_iff.mp done
  obtain ⟨affordable, done⟩ := Outcome.refuse_eq_ok_iff.mp done
  obtain ⟨enabled, done⟩ := Outcome.refuse_eq_ok_iff.mp done
  obtain ⟨after, executed, done⟩ := Outcome.bind_eq_ok_iff.mp done
  obtain ⟨room, done⟩ := Outcome.refuse_eq_ok_iff.mp done
  cases Outcome.pure_eq_ok_iff.mp done
  exact ⟨Nat.not_lt.mp small, Nat.not_lt.mp affordable, Bool.eq_false_of_not_eq_true enabled,
    executes_of_execute executed, Nat.not_lt.mp room⟩

/-- Neither the instruction nor its keys take the count beyond the limit. -/
theorem Steps.operations_le_max {instruction : Instruction}
    (steps : Steps flags m instruction next) : next.operations ≤ maxOperations := by
  have affordable := steps.operations_le
  cases steps.executes with
  | pushes | skips => exact affordable
  | performs _ changes => exact changes.operations_le affordable

end Machine

/-! ## Runs -/

/-- What every step keeps, a run keeps. -/
theorem holds_of_run {holds : Machine → Prop} {instructions : List Located}
    (kept : ∀ ⦃m located next⦄, holds m → m.step flags spend located = .ok next → holds next)
    (first : holds m) (done : run flags spend m instructions = .ok next) : holds next := by
  induction instructions generalizing m with
  | nil =>
    cases Outcome.pure_eq_ok_iff.mp done
    exact first
  | cons located rest ih =>
    obtain ⟨reached, stepped, done⟩ := Outcome.bind_eq_ok_iff.mp done
    exact ih (kept first stepped) done

theorem run_append {before after : List Located} :
    run flags spend m (before ++ after) = run flags spend m before >>= (run flags spend · after) :=
  List.foldlM_append

/-- Each instruction of a run that succeeds takes a step, between the runs of what stands before
and behind it. -/
theorem step_of_run {before after : List Located} {located : Located}
    (done : run flags spend m (before ++ located :: after) = .ok next) :
    ∃ reached left, run flags spend m before = .ok reached ∧
      reached.step flags spend located = .ok left ∧ run flags spend left after = .ok next := by
  rw [run_append] at done
  obtain ⟨reached, first, done⟩ := Outcome.bind_eq_ok_iff.mp done
  obtain ⟨left, stepped, done⟩ := Outcome.bind_eq_ok_iff.mp done
  exact ⟨reached, left, first, stepped, done⟩

/-- What a run passes that leaves a stack: all of the script is instructions, and no conditional
stays open. -/
theorem eval_eq_ok_iff {script : Bytes} {stack left : Stack} {checks : Nat} :
    eval script stack flags spend = .ok (left, checks) ↔
      script.length ≤ maxScriptSize ∧ tail script = [] ∧
        ∃ final, run flags spend (Machine.start script stack) (parse script).1 = .ok final ∧
          final.branches = [] ∧ final.stack = left ∧ final.sigChecks = checks := by
  simp only [eval, Outcome.refuse_eq_ok_iff, Outcome.bind_eq_ok_iff, Outcome.pure_eq_ok_iff,
    Prod.mk.injEq, Bool.not_eq_true', List.isEmpty_eq_false_iff, not_not, gt_iff_lt, Nat.not_lt,
    tail]
  grind

end ScryptLedger.Script
