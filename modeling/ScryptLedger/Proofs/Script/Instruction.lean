import ScryptLedger.Proofs.Wire.Decoder
import ScryptLedger.Script.Instruction

/-!
# Reading loses nothing

An instruction that is read takes exactly the bytes it is written in, so the
instructions of a script, written one after the other, are the script up to
its tail. An instruction whose data has the length that its operation byte and
the bytes after it can tell is read back, and only such instructions are read.
-/

namespace ScryptLedger

namespace Instruction

/-- The announced length and what stands behind it are the bytes after the operation byte. -/
theorem append_of_dataLength? {opcode : UInt8} {rest body : Bytes} {length : Nat}
    (found : dataLength? opcode rest = some (length, body)) :
    littleEndian (lengthWidth opcode) length ++ body = rest := by
  simp only [dataLength?] at found
  by_cases plain : lengthWidth opcode = 0
  · rw [if_pos plain] at found
    cases found
    simp [plain, littleEndian]
  · rw [if_neg plain] at found
    split at found
    · simp at found
    rename_i complete
    simp only [Option.some.injEq, Prod.mk.injEq] at found
    obtain ⟨rfl, rfl⟩ := found
    have width : (rest.take (lengthWidth opcode)).length = lengthWidth opcode := by
      simp only [List.length_take] at complete ⊢
      omega
    have digits := littleEndian_ofLittleEndian (rest.take (lengthWidth opcode))
    rw [width] at digits
    rw [digits, List.take_append_drop]

theorem encode_append_of_read? {script rest : Bytes} {instruction : Instruction}
    (found : read? script = some (instruction, rest)) : instruction.encode ++ rest = script := by
  cases script with
  | nil => simp [read?] at found
  | cons opcode after =>
    cases announced : dataLength? opcode after with
    | none => simp [read?, announced] at found
    | some parts =>
      obtain ⟨length, body⟩ := parts
      simp only [read?, announced] at found
      split at found
      · simp at found
      rename_i enough
      simp only [Option.some.injEq, Prod.mk.injEq] at found
      obtain ⟨rfl, rfl⟩ := found
      have whole : (body.take length).length = length := by
        simp only [List.length_take] at enough ⊢
        omega
      have written := append_of_dataLength? announced
      simp only [encode, whole, List.cons_append, List.append_assoc, List.take_append_drop, written]

/-- Whether the data is as long as the operation byte and the bytes after it can tell. -/
def TellsLength (instruction : Instruction) : Prop :=
  if lengthWidth instruction.opcode = 0 then
    instruction.data.length = ownLength instruction.opcode
  else instruction.data.length < 256 ^ lengthWidth instruction.opcode

/-- What is written is read back. -/
theorem read?_encode {instruction : Instruction} (told : instruction.TellsLength) (rest : Bytes) :
    read? (instruction.encode ++ rest) = some (instruction, rest) := by
  obtain ⟨opcode, data⟩ := instruction
  simp only [TellsLength] at told
  have announced :
      dataLength? opcode (littleEndian (lengthWidth opcode) data.length ++ data ++ rest)
        = some (data.length, data ++ rest) := by
    by_cases plain : lengthWidth opcode = 0
    · rw [if_pos plain] at told
      simp [dataLength?, plain, littleEndian, told]
    · rw [if_neg plain] at told
      simp [dataLength?, plain, List.take_left', List.drop_left',
        ofLittleEndian_littleEndian_of_lt told]
  simp only [encode, List.cons_append, read?, announced]
  simp

/-- The length that is announced for some data is one that can be told. -/
theorem told_of_dataLength? {opcode : UInt8} {rest body : Bytes} {length : Nat}
    (found : dataLength? opcode rest = some (length, body)) :
    if lengthWidth opcode = 0 then length = ownLength opcode
    else length < 256 ^ lengthWidth opcode := by
  simp only [dataLength?] at found
  by_cases plain : lengthWidth opcode = 0
  · rw [if_pos plain] at found ⊢
    cases found
    rfl
  · rw [if_neg plain] at found ⊢
    split at found
    · simp at found
    simp only [Option.some.injEq, Prod.mk.injEq] at found
    have width : (rest.take (lengthWidth opcode)).length ≤ lengthWidth opcode := by
      rw [List.length_take]
      exact Nat.min_le_left _ _
    rw [← found.1]
    exact (ofLittleEndian_lt _).trans_le (Nat.pow_le_pow_right (by decide) width)

/-- Only such instructions are read. -/
theorem tellsLength_of_read? {script rest : Bytes} {instruction : Instruction}
    (found : read? script = some (instruction, rest)) : instruction.TellsLength := by
  cases script with
  | nil => simp [read?] at found
  | cons opcode after =>
    cases announced : dataLength? opcode after with
    | none => simp [read?, announced] at found
    | some parts =>
      obtain ⟨length, body⟩ := parts
      simp only [read?, announced] at found
      split at found
      · simp at found
      rename_i enough
      simp only [Option.some.injEq, Prod.mk.injEq] at found
      obtain ⟨rfl, -⟩ := found
      have whole : (body.take length).length = length := by
        simp only [List.length_take] at enough ⊢
        omega
      have told := told_of_dataLength? announced
      rwa [← whole] at told

/-- What holds of a script with no instruction in front, and of one whose front is an instruction
as soon as it holds of the rest, holds of all scripts. -/
@[elab_as_elim]
theorem read_induction {motive : Bytes → Prop} (script : Bytes)
    (cut : ∀ script, read? script = none → motive script)
    (next : ∀ script instruction rest, read? script = some (instruction, rest) → motive rest →
      motive script) : motive script := by
  induction length : script.length using Nat.strongRecOn generalizing script with
  | ind _ ih =>
    subst length
    cases found : read? script with
    | none => exact cut script found
    | some parts =>
      obtain ⟨instruction, rest⟩ := parts
      exact next script instruction rest found (ih _ (length_lt_of_read? found) rest rfl)

end Instruction

namespace Script

/-- The instructions of a script and its tail are the script. -/
theorem flatMap_encode_append_tail (script : Bytes) :
    (instructions script).flatMap Instruction.encode ++ tail script = script := by
  induction script using Instruction.read_induction with
  | cut script found => simp [instructions, tail, parse_of_read?_eq_none found]
  | next script instruction rest found shorter =>
    simp only [instructions, tail, parse_of_read? found, List.map_cons, List.flatMap_cons,
      List.append_assoc] at shorter ⊢
    rw [shorter, Instruction.encode_append_of_read? found]

end Script

end ScryptLedger
