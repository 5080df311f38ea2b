import ScryptLedger.Primitives.Transparent
import ScryptLedger.Proofs.Script.Positional.Spend

/-!
# Scripts without some of their instructions

Leaving instructions out of a script acts on what is read, never on the data that
is pushed. The bytes that are left are read as the other instructions in the
same order, behind them stands the same tail, and no new instruction comes about
where a range was taken out. So leaving out the same ones once more changes
nothing, and the older digest of a transaction does not depend on the
separators in the code that is signed.
-/

namespace ScryptLedger

namespace Script

open Instruction (encode)

/-! ## What is read -/

theorem read?_tail (script : Bytes) : Instruction.read? (tail script) = none := by
  induction script using Instruction.read_induction with
  | cut script found => rwa [tail, parse_of_read?_eq_none found]
  | next script instruction rest found ih => rwa [tail, parse_of_read? found]

theorem tellsLength_of_mem {script : Bytes} {instruction : Instruction}
    (read : instruction ∈ instructions script) : instruction.TellsLength := by
  induction script using Instruction.read_induction with
  | cut script found =>
    rw [instructions, parse_of_read?_eq_none found] at read
    exact absurd read List.not_mem_nil
  | next script first rest found ih =>
    rw [instructions, parse_of_read? found, List.map_cons] at read
    rcases List.mem_cons.mp read with rfl | later
    · exact Instruction.tellsLength_of_read? found
    · exact ih later

/-- Instructions that are written one after the other, before bytes that are none, are read back,
and those bytes are left. -/
theorem read_flatMap_encode {kept : List Instruction} {rest : Bytes}
    (told : ∀ instruction ∈ kept, instruction.TellsLength)
    (cut : Instruction.read? rest = none) :
    instructions (kept.flatMap encode ++ rest) = kept ∧
      tail (kept.flatMap encode ++ rest) = rest := by
  induction kept with
  | nil =>
    rw [List.flatMap_nil, List.nil_append, instructions, tail, parse_of_read?_eq_none cut]
    exact ⟨rfl, rfl⟩
  | cons instruction kept ih =>
    obtain ⟨here, later⟩ := List.forall_mem_cons.mp told
    obtain ⟨read, left⟩ := ih later
    have first := Instruction.read?_encode here (kept.flatMap encode ++ rest)
    rw [List.flatMap_cons, List.append_assoc, instructions, tail, parse_of_read? first]
    exact ⟨congrArg (instruction :: ·) read, left⟩

/-! ## What is left -/

/-- Whether some bytes are what is left of a script without the instructions that a test picks: the
bytes of the others and the tail, which are read as just these. -/
structure IsWithout (picked : Instruction → Bool) (script left : Bytes) : Prop where
  bytes : left = ((instructions script).filter (!picked ·)).flatMap encode ++ tail script
  instructions_eq : instructions left = (instructions script).filter (!picked ·)
  tail_eq : tail left = tail script

section Removing

variable (picked : Instruction → Bool) (script : Bytes)

theorem isWithout_removing : IsWithout picked script (removing picked script) := by
  have told : ∀ instruction ∈ (instructions script).filter (!picked ·), instruction.TellsLength :=
    fun _ kept => tellsLength_of_mem (List.mem_filter.mp kept).1
  obtain ⟨read, left⟩ := read_flatMap_encode told (read?_tail script)
  exact ⟨rfl, read, left⟩

variable {picked script}

/-- A script without any instruction that is picked is left as it is. -/
theorem removing_eq_self
    (spared : ∀ instruction ∈ instructions script, picked instruction = false) :
    removing picked script = script := by
  have all : (instructions script).filter (!picked ·) = instructions script :=
    List.filter_eq_self.mpr fun instruction read => by rw [spared instruction read]; rfl
  rw [removing, all, flatMap_encode_append_tail]

variable (picked script)

theorem removing_removing : removing picked (removing picked script) = removing picked script := by
  refine removing_eq_self fun instruction read => ?_
  rw [(isWithout_removing picked script).instructions_eq] at read
  exact (Bool.not_eq_true' _).mp (List.mem_filter.mp read).2

end Removing

/-! ## Signatures and separators -/

/-- The operation byte of each instruction stands in the script. -/
theorem opcode_mem_of_mem {script : Bytes} {instruction : Instruction}
    (read : instruction ∈ instructions script) : instruction.opcode ∈ script := by
  rw [← flatMap_encode_append_tail script]
  exact List.mem_append_left _ (List.mem_flatMap.mpr ⟨instruction, read, List.mem_cons_self⟩)

theorem withoutSignature_eq_removing (script : Bytes) {signature : Bytes}
    (signed : signature ≠ []) :
    withoutSignature script signature
      = removing (fun instruction => instruction.encode == push signature) script := by
  rw [withoutSignature, if_neg (by rwa [List.isEmpty_iff])]

/-- Where the byte of a separator does not stand at all, none is read. -/
theorem withoutSeparators_eq_removing (script : Bytes) :
    withoutSeparators script = removing (fun instruction => instruction.opcode == 0xab) script := by
  rw [withoutSeparators]
  by_cases stands : script.contains 0xab = true
  · rw [if_pos stands]
  · rw [if_neg stands, removing_eq_self]
    intro instruction read
    rw [beq_eq_false_iff_ne]
    rintro separator
    exact stands (List.contains_iff_mem.mpr (separator ▸ opcode_mem_of_mem read))

/-- Scripts that are read alike but for their separators are left alike without them. -/
theorem withoutSeparators_congr {script other : Bytes}
    (same : (instructions script).filter (·.opcode != 0xab)
      = (instructions other).filter (·.opcode != 0xab))
    (ends : tail script = tail other) : withoutSeparators script = withoutSeparators other := by
  rw [withoutSeparators_eq_removing, withoutSeparators_eq_removing, removing, removing, ends]
  exact congrArg (fun kept => kept.flatMap encode ++ tail other) same

/-- Leaving out the pushes of a signature, or the separators, takes whole instructions away: from
one position to the next or at once, what is left are the bytes of the others and the tail, and
they are read as that. Doing it again changes nothing. The older digest is the same for codes that
differ in their separators only. -/
theorem removal_exact [Primitives] (script : Bytes) :
    (instructions script).flatMap encode ++ tail script = script ∧
    (∀ signature : Bytes, signature ≠ [] →
      Positional.withoutSignature script signature = pure (withoutSignature script signature) ∧
      IsWithout (fun instruction => instruction.encode == push signature) script
        (withoutSignature script signature) ∧
      withoutSignature (withoutSignature script signature) signature
        = withoutSignature script signature) ∧
    (Positional.withoutSeparators script = pure (withoutSeparators script) ∧
      IsWithout (fun instruction => instruction.opcode == 0xab) script
        (withoutSeparators script) ∧
      withoutSeparators (withoutSeparators script) = withoutSeparators script) ∧
    ∀ other : Bytes,
      (instructions script).filter (·.opcode != 0xab)
        = (instructions other).filter (·.opcode != 0xab) → tail script = tail other →
      ∀ (tx : Transaction) (index : Nat) (type : SighashType),
        Positional.legacyDigest tx index script type
            = pure (Sighash.legacyDigest tx index script type) ∧
          Sighash.legacyDigest tx index script type
            = Sighash.legacyDigest tx index other type := by
  refine ⟨flatMap_encode_append_tail script, fun signature signed => ?_, ?_,
    fun other same ends tx index type => ?_⟩
  · refine ⟨Positional.withoutSignature_eq script signature, ?_, ?_⟩
    · rw [withoutSignature_eq_removing script signed]
      exact isWithout_removing _ script
    · rw [withoutSignature_eq_removing _ signed, withoutSignature_eq_removing _ signed,
        removing_removing]
  · refine ⟨Positional.withoutSeparators_eq script, ?_, ?_⟩
    · rw [withoutSeparators_eq_removing]
      exact isWithout_removing _ script
    · rw [withoutSeparators_eq_removing, withoutSeparators_eq_removing, removing_removing]
  · refine ⟨Positional.legacyDigest_eq tx index script type, ?_⟩
    rw [Sighash.legacyDigest, Sighash.legacyDigest, Sighash.legacyPreimage,
      Sighash.legacyPreimage, withoutSeparators_congr same ends]

namespace Cut

local instance : Primitives := Primitives.transparent

def tx : Transaction := ⟨1, [⟨⟨Digest.zero, 0⟩, [], 0⟩], [⟨4000, []⟩], 0⟩

def all : SighashType := ⟨1⟩

/-- Five pushed twice in a row, pushes of data with the bytes of five and of a separator, two
separators, and a push that is cut short. -/
def script : Bytes := [0x55, 0x55, 0x01, 0x55, 0xab, 0x02, 0xab, 0x55, 0xab, 0x4c]

/-- The same with a separator in front instead. -/
def other : Bytes := [0xab, 0x55, 0x55, 0x01, 0x55, 0x02, 0xab, 0x55, 0x4c]

theorem removal_of_script :
    ([5] : Bytes) ≠ [] ∧
      Positional.withoutSignature script [5]
        = pure [0x01, 0x55, 0xab, 0x02, 0xab, 0x55, 0xab, 0x4c] ∧
      Positional.withoutSeparators script = pure [0x55, 0x55, 0x01, 0x55, 0x02, 0xab, 0x55, 0x4c] ∧
      instructions (withoutSeparators script)
        = [⟨0x55, []⟩, ⟨0x55, []⟩, ⟨0x01, [0x55]⟩, ⟨0x02, [0xab, 0x55]⟩] ∧
      (instructions script).filter (·.opcode != 0xab)
        = (instructions other).filter (·.opcode != 0xab) ∧
      tail script = tail other ∧
      Sighash.legacyDigest tx 0 script all = Sighash.legacyDigest tx 0 other all := by
  have signed : ([5] : Bytes) ≠ [] := by decide
  have same : (instructions script).filter (·.opcode != 0xab)
      = (instructions other).filter (·.opcode != 0xab) := by decide +kernel
  have ends : tail script = tail other := by decide +kernel
  obtain ⟨-, signatures, ⟨separators, isWithout, -⟩, digests⟩ := removal_exact script
  refine ⟨signed, ?_, ?_, ?_, same, ends, (digests other same ends tx 0 all).2⟩
  · exact (signatures [5] signed).1.trans (congrArg pure (by decide +kernel))
  · exact separators.trans (congrArg pure (by decide +kernel))
  · rw [isWithout.instructions_eq]
    decide +kernel

end Cut

end Script

end ScryptLedger
