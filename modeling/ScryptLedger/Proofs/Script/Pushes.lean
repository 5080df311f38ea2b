import ScryptLedger.Proofs.Script.Positional.Eval
import ScryptLedger.Proofs.Script.Redeem
import ScryptLedger.Proofs.Wire.Length

/-!
# Shortest pushes

Data is pushed in plain, behind a length of one of four widths, and small
integers have operations of their own. An instruction that pushes in plain
passes for minimal exactly if its bytes are the one push that is written for its
data. A script that consists of such pushes leaves what was written into it,
under every set of flags.
-/

namespace ScryptLedger

namespace Instruction

/-- Data is no longer than one byte, or the bytes after the operation byte, can tell. -/
theorem length_lt_of_tellsLength {opcode : UInt8} {data : Bytes}
    (told : TellsLength ⟨opcode, data⟩) {width : Nat} (one : 1 ≤ width)
    (wide : lengthWidth opcode ≤ width) : data.length < 256 ^ width := by
  by_cases plain : lengthWidth opcode = 0
  · rw [TellsLength, if_pos plain] at told
    have byte : data.length < 256 ^ 1 := by
      rw [told, ownLength]
      split
      · exact opcode.toNat_lt
      · decide
    exact byte.trans_le (Nat.pow_le_pow_right (by decide) one)
  · rw [TellsLength, if_neg plain] at told
    exact told.trans_le (Nat.pow_le_pow_right (by decide) wide)

theorem lengthWidth_le (opcode : UInt8) : lengthWidth opcode ≤ 4 := by
  rw [lengthWidth]
  split_ifs <;> decide

theorem lengthWidth_le_of_ne {opcode : UInt8} (narrow : opcode ≠ 0x4e) :
    lengthWidth opcode ≤ 2 := by
  rw [lengthWidth, if_neg narrow]
  split_ifs <;> decide

end Instruction

namespace Script

/-! ## One instruction -/

/-- Of the instructions that push some data in plain, only the shortest push is minimal. -/
theorem eq_pushing_of_minimal {opcode : UInt8} {data : Bytes}
    (told : Instruction.TellsLength ⟨opcode, data⟩) (minimal : isMinimalPush data opcode = true) :
    ⟨opcode, data⟩ = pushing data := by
  match data with
  | [] =>
    obtain rfl : opcode = 0x00 := beq_iff_eq.mp minimal
    rfl
  | [b] =>
    simp only [isMinimalPush, Bool.and_eq_true, Bool.not_eq_true', bne_iff_ne, beq_iff_eq,
      ← Bool.decide_and, decide_eq_false_iff_not] at minimal
    obtain ⟨⟨large, positive⟩, rfl⟩ := minimal
    rw [pushing, if_neg large, if_neg positive]
  | first :: second :: rest =>
    simp only [isMinimalPush] at minimal
    simp only [pushing]
    by_cases byte : (first :: second :: rest).length ≤ 75
    · rw [if_pos byte] at minimal ⊢
      rw [← beq_iff_eq.mp minimal, UInt8.ofNat_toNat]
    rw [if_neg byte] at minimal ⊢
    by_cases one : (first :: second :: rest).length ≤ 255
    · rw [if_pos one] at minimal ⊢
      rw [beq_iff_eq.mp minimal]
    rw [if_neg one] at minimal ⊢
    by_cases two : (first :: second :: rest).length ≤ 65535
    · rw [if_pos two] at minimal ⊢
      rw [beq_iff_eq.mp minimal]
    · -- every other operation byte tells shorter lengths only
      rw [if_neg two]
      have wide : opcode = 0x4e := by
        by_contra narrow
        have short := Instruction.length_lt_of_tellsLength told (by decide)
          (Instruction.lengthWidth_le_of_ne narrow)
        exact two (Nat.le_of_lt_succ short)
      rw [wide]

/-- An instruction that pushes in plain is minimal exactly if it is written as the shortest push. -/
theorem isMinimalPush_iff {instruction : Instruction} (told : instruction.TellsLength)
    (low : instruction.opcode ≤ 0x4e) :
    isMinimalPush instruction.data instruction.opcode = true ↔
      instruction.encode = push instruction.data := by
  obtain ⟨opcode, data⟩ := instruction
  constructor
  · intro minimal
    have same := eq_pushing_of_minimal told minimal
    exact (congrArg Instruction.encode same).trans (encode_pushing data)
  · intro written
    have short : data.length < 256 ^ 4 :=
      Instruction.length_lt_of_tellsLength told (by decide) (Instruction.lengthWidth_le opcode)
    have read := Instruction.read?_encode told []
    have shortest := Instruction.read?_encode (tellsLength_pushing short) []
    rw [encode_pushing, ← written, read] at shortest
    have same : ⟨opcode, data⟩ = pushing data := congrArg Prod.fst (Option.some.inj shortest)
    have pushes := pushesBy_pushing data
    rw [← same] at pushes
    cases pushes with
    | plainly _ minimal => exact minimal
    | asInteger _ _ _ high => exact absurd low (UInt8.not_le.mpr high)

/-- An integer is pushed as its minimal form is. -/
theorem pushInt_eq (n : Int) : pushInt n = push (ScriptNumber.encode n) := by
  have table : ∀ row : Fin 17, pushInt row = push (ScriptNumber.encode row) := by decide +kernel
  by_cases small : 0 ≤ n ∧ n ≤ 16
  · have value : ((⟨n.toNat, by omega⟩ : Fin 17) : Int) = n := Int.toNat_of_nonneg small.1
    rw [← value]
    exact table _
  by_cases negative : n = -1
  · subst negative
    decide +kernel
  · rw [pushInt, if_neg (by omega), if_neg (by omega)]

/-! ## Scripts of pushes -/

/-- What a script is made to push. -/
inductive Pushed where
  | bytes (data : Bytes)
  | integer (n : Int)
deriving DecidableEq, Repr

namespace Pushed

/-- The shortest push. -/
def written : Pushed → Bytes
  | bytes data => push data
  | integer n => pushInt n

/-- The element that it leaves. -/
def element : Pushed → Bytes
  | bytes data => data
  | integer n => ScriptNumber.encode n

/-- Whether it is a byte string that fits into an element, or an integer of at most five bytes. -/
def Fits : Pushed → Prop
  | bytes data => data.length ≤ 520
  | integer n => -2 ^ 39 < n ∧ n < 2 ^ 39

theorem written_eq (pushed : Pushed) : pushed.written = push pushed.element := by
  cases pushed with
  | bytes data => rfl
  | integer n => exact pushInt_eq n

theorem Fits.length_le {pushed : Pushed} (fits : pushed.Fits) :
    pushed.element.length ≤ maxElementSize := by
  cases pushed with
  | bytes data => exact fits
  | integer n =>
    have small : n.natAbs < 256 ^ 5 := by
      have range : -2 ^ 39 < n ∧ n < 2 ^ 39 := fits
      omega
    exact (ScriptNumber.length_encode_le small).trans (by decide)

theorem flatMap_written (values : List Pushed) :
    values.flatMap written = (values.map element).flatMap push := by
  rw [List.flatMap_map]
  exact List.flatMap_congr fun pushed _ => written_eq pushed

end Pushed

section Written

variable {values : List Pushed}

theorem length_element_le (fits : ∀ pushed ∈ values, pushed.Fits) :
    ∀ data ∈ values.map Pushed.element, data.length ≤ maxElementSize := by
  intro data held
  obtain ⟨pushed, written, rfl⟩ := List.mem_map.mp held
  exact (fits pushed written).length_le

theorem isPushOnly_written (fits : ∀ pushed ∈ values, pushed.Fits) :
    isPushOnly (values.flatMap Pushed.written) = true := by
  rw [Pushed.flatMap_written]
  exact isPushOnly_pushes (length_element_le fits)

/-- What is written is left, in order, above what was there before. -/
theorem eval_written [Primitives] {flags : ScriptFlags} {spend : Spend} (stack : Stack)
    (fits : ∀ pushed ∈ values, pushed.Fits)
    (small : (values.flatMap Pushed.written).length ≤ maxScriptSize)
    (room : stack.length + values.length ≤ maxStackSize) :
    eval (values.flatMap Pushed.written) stack flags spend
      = .ok ((values.map Pushed.element).reverse ++ stack, 0) := by
  rw [Pushed.flatMap_written] at small ⊢
  refine eval_pushes_onto stack small (length_element_le fits) ?_
  rwa [List.length_map]

end Written

/-- An instruction that pushes in plain, wherever in a script it stands, is minimal exactly if its
bytes are the shortest push of its data. A script that is written to push some byte strings and
integers only pushes, and leaves them in order above any stack that has room for them, under every
set of flags; a machine that stores the top last puts them behind what it has. -/
theorem pushes_canonical [Primitives] (flags : ScriptFlags) (spend : Spend) :
    (∀ (script : Bytes) (position next : Nat) (instruction : Instruction),
      Positional.readInstruction script position = .ok (instruction, next) →
      instruction.opcode ≤ 0x4e →
      ∃ bytes, Attempt.slice script position next = pure bytes ∧
        (isMinimalPush instruction.data instruction.opcode = true ↔
          bytes = push instruction.data)) ∧
    ∀ (values : List Pushed) (stack : Stack), (∀ pushed ∈ values, pushed.Fits) →
      (values.flatMap Pushed.written).length ≤ 10000 → stack.length + values.length ≤ 1000 →
      isPushOnly (values.flatMap Pushed.written) = true ∧
        eval (values.flatMap Pushed.written) stack flags spend
          = .ok ((values.map Pushed.element).reverse ++ stack, 0) ∧
        Positional.eval (values.flatMap Pushed.written) stack.reverse flags spend
          = pure (stack.reverse ++ values.map Pushed.element, 0) := by
  constructor
  · intro script position next instruction read low
    obtain ⟨bytes, told⟩ := Positional.slice_of_readInstruction read
    exact ⟨_, bytes, isMinimalPush_iff told low⟩
  · intro values stack fits small room
    have left : eval (values.flatMap Pushed.written) stack flags spend = _ :=
      eval_written stack fits small room
    refine ⟨isPushOnly_written fits, left, ?_⟩
    have order : ((values.map Pushed.element).reverse ++ stack).reverse
        = stack.reverse ++ values.map Pushed.element := by
      rw [List.reverse_append, List.reverse_reverse]
    rw [Positional.eval_eq, left, ← order]
    rfl

namespace Written

local instance : Primitives := Primitives.transparent

def spend : Spend := Spend.of ⟨1, [], [], 0⟩ 0 0

def flags : ScriptFlags := { ScriptFlags.none with minimalData := true, legacyRules := true }

/-- One of the small integers as a byte string, the lowest of them, a longer integer, and a byte
string that needs a length of its own. -/
def values : List Pushed :=
  [.bytes [16], .integer (-1), .integer (-300), .bytes (List.replicate 76 7)]

/-- What is written for them. -/
def script : Bytes :=
  [0x60, 0x4f, 0x02, 0x2c, 0x81, 0x4c, 76] ++ List.replicate 76 7

/-- A longer push of sixteen is no minimal one. -/
theorem pushes_canonical_of_values :
    Positional.readInstruction ([0x01, 16] ++ script) 0 = .ok (⟨0x01, [16]⟩, 2) ∧
      ¬ isMinimalPush [16] 0x01 = true ∧ ([0x01, 16] : Bytes) ≠ push [16] ∧
      (∀ pushed ∈ values, pushed.Fits) ∧ values.flatMap Pushed.written = script ∧
      isPushOnly script = true ∧
      eval script [[9]] flags spend
        = .ok ([List.replicate 76 7, [0x2c, 0x81], [0x81], [16], [9]], 0) ∧
      Positional.eval script [[9]] flags spend
        = pure ([[9], [16], [0x81], [0x2c, 0x81], List.replicate 76 7], 0) := by
  have read : Positional.readInstruction ([0x01, 16] ++ script) 0 = .ok (⟨0x01, [16]⟩, 2) := rfl
  have written : values.flatMap Pushed.written = script := by decide +kernel
  have elements : values.map Pushed.element
      = [[16], [0x81], [0x2c, 0x81], List.replicate 76 7] := by decide +kernel
  have fits : ∀ pushed ∈ values, pushed.Fits := by
    intro pushed held
    simp only [values, List.mem_cons, List.not_mem_nil, or_false] at held
    rcases held with rfl | rfl | rfl | rfl <;> simp [Pushed.Fits]
  obtain ⟨minimal, leaves⟩ := pushes_canonical flags spend
  obtain ⟨bytes, stands, shortest⟩ := minimal _ 0 2 _ read (by decide)
  obtain rfl : [0x01, 16] = bytes := Except.ok.inj stands
  obtain ⟨pushOnly, left, stored⟩ :=
    leaves values [[9]] fits (by rw [written]; decide) (by decide)
  rw [written] at pushOnly left stored
  rw [elements] at left stored
  have longer : ([0x01, 16] : Bytes) ≠ push [16] := by decide
  exact ⟨read, fun held => longer (shortest.mp held), longer, fits, written, pushOnly, left, stored⟩

end Written

end Script

end ScryptLedger
