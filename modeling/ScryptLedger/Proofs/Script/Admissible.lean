import ScryptLedger.Primitives.Transparent
import ScryptLedger.Proofs.Script.Instruction
import ScryptLedger.Proofs.Script.Step

/-!
# What any script that runs looks like

A run that succeeds says something about the whole script, also about what its
conditionals skipped: every instruction took a step, and each step checks sizes,
counts and disabled operations before anything else. The conditionals nest,
because a machine holds as many open ones as the instructions so far have opened
and not closed.
-/

namespace ScryptLedger

namespace Instruction

/-- IF and NOTIF. -/
def opens (instruction : Instruction) : Bool :=
  instruction.opcode == 0x63 || instruction.opcode == 0x64

/-- ELSE. -/
def turns (instruction : Instruction) : Bool := instruction.opcode == 0x67

/-- ENDIF. -/
def closes (instruction : Instruction) : Bool := instruction.opcode == 0x68

/-- VERIF and VERNOTIF, which no conditional hides. -/
def isUnhidden (instruction : Instruction) : Bool :=
  instruction.opcode == 0x65 || instruction.opcode == 0x66

/-- Whether an instruction counts towards the limit on operations. -/
def isCounted (instruction : Instruction) : Bool := Opcode.isCounted instruction.opcode

end Instruction

namespace Script

/-- Whether conditionals nest like brackets, with an ELSE only inside one. -/
structure Balanced (instructions : List Instruction) : Prop where
  closes_le : ∀ before, before <+: instructions →
    before.countP Instruction.closes ≤ before.countP Instruction.opens
  turns_inside : ∀ before instruction, before ++ [instruction] <+: instructions →
    instruction.turns = true →
    before.countP Instruction.closes < before.countP Instruction.opens
  settled : instructions.countP Instruction.closes = instructions.countP Instruction.opens

/-- What a script has to look like, whichever way its conditionals go. -/
structure Admissible (flags : ScriptFlags) (script : Bytes) : Prop where
  size_le : script.length ≤ maxScriptSize
  reads : tail script = [] ∧ (instructions script).flatMap Instruction.encode = script
  pushes_le : ∀ instruction ∈ instructions script, instruction.data.length ≤ maxElementSize
  operations_le : (instructions script).countP Instruction.isCounted ≤ maxOperations
  enabled : ∀ instruction ∈ instructions script,
    Opcode.isAlwaysDisabled instruction.opcode = false ∧
      (flags.legacyRules = true → Opcode.isLegacyDisabled instruction.opcode = false)
  hidden : ∀ instruction ∈ instructions script, instruction.isUnhidden = false
  balanced : Balanced (instructions script)

section General

variable [Primitives] {flags : ScriptFlags} {spend : Spend} {m next : Machine}

namespace Machine

/-! ## Operations -/

theorem Changes.length_branches {operation : Operation} (changes : Changes m operation next) :
    next.branches.length + operation.closed = m.branches.length + operation.opened := by
  cases changes with
  | turns inside => simp [inside, Operation.closed, Operation.opened]
  | closes inside => simp [inside, Operation.closed, Operation.opened]
  | @idles operation idle => cases operation <;> first | rfl | cases idle
  | @checks operation _ _ _ _ signing => cases operation <;> first | rfl | cases signing
  | _ => rfl

theorem Changes.le_operations {operation : Operation} (changes : Changes m operation next) :
    m.operations ≤ next.operations := by
  cases changes with
  | checks keys => exact Nat.le_add_right _ keys
  | _ => exact Nat.le_refl _

theorem Changes.branches_ne_nil (changes : Changes m .otherwise next) : m.branches ≠ [] := by
  cases changes with
  | turns inside => simp [inside]
  | idles idle => cases idle
  | checks _ _ signing => cases signing

/-! ## Steps -/

/-- What is no conditional leaves the conditionals alone, and anything else is an operation. -/
theorem Executes.plain_or_changes {instruction : Instruction}
    (executes : Executes m instruction next) :
    (¬ (0x63 ≤ instruction.opcode ∧ instruction.opcode ≤ 0x68) ∧
        next.branches = m.branches ∧ next.operations = m.operations) ∨
      ∃ operation, Operation.ofByte? instruction.opcode = some operation ∧
        Changes m operation next := by
  cases executes with
  | pushes small =>
    refine Or.inl ⟨?_, rfl, rfl⟩
    rintro ⟨low, -⟩
    exact absurd (UInt8.le_trans low small) (by decide)
  | performs asked changes => exact Or.inr ⟨_, asked, changes⟩
  | skips plain => exact Or.inl ⟨plain, rfl, rfl⟩

theorem Executes.length_branches {instruction : Instruction}
    (executes : Executes m instruction next) :
    next.branches.length + (if instruction.closes then 1 else 0)
      = m.branches.length + if instruction.opens then 1 else 0 := by
  rcases executes.plain_or_changes with ⟨plain, kept, -⟩ | ⟨operation, asked, changes⟩
  · have other (byte : UInt8) (conditional : 0x63 ≤ byte ∧ byte ≤ 0x68) :
        instruction.opcode ≠ byte := by
      rintro rfl
      exact plain conditional
    simp [Instruction.closes, Instruction.opens, kept, other 0x63 (by decide),
      other 0x64 (by decide), other 0x68 (by decide)]
  · have followed := changes.length_branches
    rw [Operation.closed_of_ofByte? asked, Operation.opened_of_ofByte? asked] at followed
    simpa [Instruction.closes, Instruction.opens] using followed

theorem Executes.le_operations {instruction : Instruction}
    (executes : Executes m instruction next) : m.operations ≤ next.operations := by
  rcases executes.plain_or_changes with ⟨-, -, kept⟩ | ⟨operation, -, changes⟩
  · exact kept.ge
  · exact changes.le_operations

theorem Executes.branches_ne_nil {instruction : Instruction}
    (executes : Executes m instruction next) (turns : instruction.turns = true) :
    m.branches ≠ [] := by
  have opcode : instruction.opcode = 0x67 := beq_iff_eq.mp turns
  rcases executes.plain_or_changes with ⟨plain, -⟩ | ⟨operation, asked, changes⟩
  · rw [opcode] at plain
    exact absurd (by decide) plain
  · rw [opcode] at asked
    rw [Operation.eq_otherwise_of_ofByte? asked] at changes
    exact changes.branches_ne_nil

theorem Executes.isUnhidden_eq_false {instruction : Instruction}
    (executes : Executes m instruction next) : instruction.isUnhidden = false := by
  rw [Bool.eq_false_iff]
  intro unhidden
  simp only [Instruction.isUnhidden, Bool.or_eq_true, beq_iff_eq] at unhidden
  rcases executes.plain_or_changes with ⟨plain, -⟩ | ⟨operation, asked, -⟩
  · rcases unhidden with opcode | opcode <;> rw [opcode] at plain <;>
      exact absurd (by decide) plain
  · rcases unhidden with opcode | opcode <;> rw [opcode] at asked <;> cases asked

/-! ## Runs -/

/-- How far a machine is behind some instructions: the conditionals that are open, and the
operations that are counted. -/
structure Tracks (m : Machine) (instructions : List Instruction) (next : Machine) : Prop where
  branches : next.branches.length + instructions.countP Instruction.closes
    = m.branches.length + instructions.countP Instruction.opens
  operations : m.operations + instructions.countP Instruction.isCounted ≤ next.operations

theorem tracks_of_run {located : List Located} (done : run flags spend m located = .ok next) :
    Tracks m (located.map Located.instruction) next := by
  induction located generalizing m with
  | nil =>
    cases Outcome.pure_eq_ok_iff.mp done
    exact ⟨rfl, Nat.le_refl _⟩
  | cons first rest ih =>
    obtain ⟨reached, stepped, done⟩ := Outcome.bind_eq_ok_iff.mp done
    obtain ⟨branches, operations⟩ := ih done
    have steps := steps_of_step stepped
    have nested := steps.executes.length_branches
    have counted := steps.executes.le_operations
    simp only [counting] at nested counted
    constructor
    · rw [List.map_cons, List.countP_cons, List.countP_cons]
      omega
    · rw [List.map_cons, List.countP_cons, Instruction.isCounted]
      omega

theorem operations_le_of_run {located : List Located} (few : m.operations ≤ maxOperations)
    (done : run flags spend m located = .ok next) : next.operations ≤ maxOperations :=
  holds_of_run (fun _ _ _ _ stepped => (steps_of_step stepped).operations_le_max) few done

/-- A run passes through a machine behind each of its beginnings. -/
theorem tracks_of_prefix {located : List Located} {before : List Instruction}
    (done : run flags spend m located = .ok next)
    (begins : before <+: located.map Located.instruction) :
    ∃ reached, Tracks m before reached := by
  obtain ⟨after, split⟩ := begins
  obtain ⟨first, second, rfl, rfl, rfl⟩ := List.map_eq_append_iff.mp split.symm
  rw [run_append] at done
  obtain ⟨reached, ran, -⟩ := Outcome.bind_eq_ok_iff.mp done
  exact ⟨reached, tracks_of_run ran⟩

/-- Each instruction takes a step, from the machine behind those before it. -/
theorem steps_of_run {located : List Located} {before after : List Instruction}
    {instruction : Instruction} (done : run flags spend m located = .ok next)
    (split : located.map Located.instruction = before ++ instruction :: after) :
    ∃ reached left, Tracks m before reached ∧ Steps flags reached instruction left := by
  obtain ⟨first, second, rfl, rfl, second'⟩ := List.map_eq_append_iff.mp split
  obtain ⟨here, rest, rfl, rfl, rfl⟩ := List.map_eq_cons_iff.mp second'
  obtain ⟨reached, left, ran, stepped, -⟩ := step_of_run done
  exact ⟨reached, left, tracks_of_run ran, steps_of_step stepped⟩

theorem steps_of_mem {located : List Located} {instruction : Instruction}
    (done : run flags spend m located = .ok next)
    (held : instruction ∈ located.map Located.instruction) :
    ∃ reached left, Steps flags reached instruction left := by
  obtain ⟨before, after, split⟩ := List.append_of_mem held
  obtain ⟨reached, left, -, steps⟩ := steps_of_run done split
  exact ⟨reached, left, steps⟩

end Machine

/-! ## Scripts -/

open Machine in
theorem balanced_of_run {located : List Located} (closed : m.branches = [])
    (settled : next.branches = []) (done : run flags spend m located = .ok next) :
    Balanced (located.map Located.instruction) where
  closes_le before begins := by
    obtain ⟨reached, ⟨branches, -⟩⟩ := tracks_of_prefix done begins
    rw [closed, List.length_nil] at branches
    omega
  turns_inside before instruction begins turns := by
    obtain ⟨after, split⟩ := begins
    rw [List.append_assoc, List.singleton_append] at split
    obtain ⟨reached, left, ⟨branches, -⟩, steps⟩ := steps_of_run done split.symm
    have inside : 0 < reached.branches.length :=
      List.length_pos_iff.mpr (steps.executes.branches_ne_nil turns)
    rw [closed, List.length_nil] at branches
    omega
  settled := by
    obtain ⟨branches, -⟩ := tracks_of_run done
    rw [closed, settled, List.length_nil] at branches
    omega

/-- A script that leaves a stack, from whichever one it starts and in whichever spend, is of
the admissible form. -/
theorem admissible_of_eval {script : Bytes} {stack left : Stack} {checks : Nat}
    (done : eval script stack flags spend = .ok (left, checks)) : Admissible flags script := by
  obtain ⟨small, whole, final, ran, settled, -, -⟩ := eval_eq_ok_iff.mp done
  have written := flatMap_encode_append_tail script
  rw [whole, List.append_nil] at written
  have step {instruction : Instruction} (held : instruction ∈ instructions script) :=
    Machine.steps_of_mem ran held
  refine ⟨small, ⟨whole, written⟩, ?_, ?_, ?_, ?_, balanced_of_run rfl settled ran⟩
  · intro instruction held
    obtain ⟨_, _, steps⟩ := step held
    exact steps.data_le
  · have counted := (Machine.tracks_of_run ran).operations
    have affordable := Machine.operations_le_of_run (Nat.zero_le _) ran
    simp only [Machine.start, instructions] at counted ⊢
    omega
  · intro instruction held
    obtain ⟨_, _, steps⟩ := step held
    have enabled := steps.enabled
    simp only [Opcode.isDisabled, Bool.or_eq_false_iff, Bool.and_eq_false_imp] at enabled
    exact enabled
  · intro instruction held
    obtain ⟨_, _, steps⟩ := step held
    exact steps.executes.isUnhidden_eq_false

end General

namespace Nested

local instance : Primitives := Primitives.transparent

def tx : Transaction := ⟨1, [], [], 0⟩

/-- A conditional in the branch that the outer one skips, around an operation that would fail
and one that the legacy rules refuse. -/
def script : Bytes := [0x51, 0x63, 0x52, 0x67, 0x00, 0x64, 0x6a, 0x67, 0x7e, 0x68, 0x68]

theorem admissible_nested :
    eval script [] ScriptFlags.none (Spend.of tx 0 0) = .ok ([[2]], 0) ∧
      Admissible ScriptFlags.none script := by
  have done : eval script [] ScriptFlags.none (Spend.of tx 0 0) = .ok ([[2]], 0) :=
    Outcome.toOption_eq_some_iff.mp (by decide +kernel)
  exact ⟨done, admissible_of_eval done⟩

end Nested

end Script

end ScryptLedger
