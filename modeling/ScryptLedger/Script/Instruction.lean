import ScryptLedger.Bytes

/-!
# Instructions

A script is a byte string read as instructions: an operation byte and, for
pushes, the bytes to push, whose length the operation byte or the bytes after
it tell. Reading stops at the first instruction that is cut short; what stands
from there on is the script's tail.
-/

namespace ScryptLedger

/-- An operation byte and the data it pushes, if any. -/
structure Instruction where
  opcode : UInt8
  data : Bytes
deriving DecidableEq, Repr

namespace Instruction

/-- How many bytes after the operation byte tell the length of the data. -/
def lengthWidth (opcode : UInt8) : Nat :=
  if opcode = 0x4c then 1 else if opcode = 0x4d then 2 else if opcode = 0x4e then 4 else 0

def ownLength (opcode : UInt8) : Nat :=
  if opcode < 0x4c then opcode.toNat else 0

def encode (instruction : Instruction) : Bytes :=
  instruction.opcode ::
    (littleEndian (lengthWidth instruction.opcode) instruction.data.length ++ instruction.data)

/-- The length of the data and the bytes that start with it, after the operation byte. -/
def dataLength? (opcode : UInt8) (rest : Bytes) : Option (Nat × Bytes) :=
  let width := lengthWidth opcode
  if width = 0 then some (ownLength opcode, rest)
  else
    let digits := rest.take width
    if digits.length < width then none else some (ofLittleEndian digits, rest.drop width)

/-- The instruction at the front of a script and the bytes after it, unless the script is
empty or the instruction is cut short. -/
def read? : Bytes → Option (Instruction × Bytes)
  | [] => none
  | opcode :: rest =>
    match dataLength? opcode rest with
    | none => none
    | some (length, body) =>
      let data := body.take length
      if data.length < length then none else some (⟨opcode, data⟩, body.drop length)

/-- How many bytes of an instruction cut short are read before the missing ones. -/
def readBeforeCut : Bytes → Nat
  | [] => 0
  | opcode :: rest =>
    let width := lengthWidth opcode
    if rest.length < width then 1 else 1 + width

theorem length_le_of_dataLength? {opcode : UInt8} {rest body : Bytes} {length : Nat}
    (found : dataLength? opcode rest = some (length, body)) : body.length ≤ rest.length := by
  simp only [dataLength?] at found
  split at found
  · simp_all
  · split at found
    · simp at found
    · simp only [Option.some.injEq, Prod.mk.injEq] at found
      rw [← found.2, List.length_drop]
      omega

theorem length_lt_of_read? {script rest : Bytes} {instruction : Instruction}
    (found : read? script = some (instruction, rest)) : rest.length < script.length := by
  cases script with
  | nil => simp [read?] at found
  | cons opcode after =>
    simp only [read?] at found
    split at found
    · simp at found
    · rename_i length body announced
      have shorter := length_le_of_dataLength? announced
      split at found
      · simp at found
      · simp only [Option.some.injEq, Prod.mk.injEq] at found
        rw [← found.2, List.length_drop, List.length_cons]
        omega

end Instruction

/-- An instruction in its place: the bytes of the script that follow it. -/
structure Located where
  instruction : Instruction
  following : Bytes
deriving DecidableEq, Repr

namespace Script

/-- Reads instructions onto `before`, which holds the ones so far, last first. -/
def parseOnto (before : List Located) (script : Bytes) : List Located × Bytes :=
  match _found : Instruction.read? script with
  | none => (before.reverse, script)
  | some (instruction, rest) => parseOnto (⟨instruction, rest⟩ :: before) rest
termination_by script.length
decreasing_by exact Instruction.length_lt_of_read? _found

/-- The instructions of a script in order, and the tail that is cut short. -/
def parse (script : Bytes) : List Located × Bytes :=
  parseOnto [] script

theorem parseOnto_eq (before : List Located) (script : Bytes) :
    parseOnto before script = (before.reverse ++ (parse script).1, (parse script).2) := by
  induction h : script.length using Nat.strongRecOn generalizing before script with
  | ind n ih =>
    subst h
    rw [parse, parseOnto, parseOnto]
    split
    · simp
    · rename_i instruction rest found
      have shorter := Instruction.length_lt_of_read? found
      rw [ih _ shorter _ rest rfl, ih _ shorter [_] rest rfl]
      simp

theorem parse_of_read? {script rest : Bytes} {instruction : Instruction}
    (found : Instruction.read? script = some (instruction, rest)) :
    parse script = (⟨instruction, rest⟩ :: (parse rest).1, (parse rest).2) := by
  rw [parse, parseOnto]
  split
  · simp_all
  · rename_i found'
    rw [found] at found'
    cases found'
    rw [parseOnto_eq]
    simp

theorem parse_of_read?_eq_none {script : Bytes} (cut : Instruction.read? script = none) :
    parse script = ([], script) := by
  rw [parse, parseOnto]
  split <;> simp_all

def instructions (script : Bytes) : List Instruction :=
  (parse script).1.map Located.instruction

/-- What is left of a script where an instruction is cut short. -/
def tail (script : Bytes) : Bytes :=
  (parse script).2

/-- The script without the instructions that a test picks; the tail stays. -/
def removing (picked : Instruction → Bool) (script : Bytes) : Bytes :=
  ((instructions script).filter (!picked ·)).flatMap Instruction.encode ++ tail script

end Script

end ScryptLedger
