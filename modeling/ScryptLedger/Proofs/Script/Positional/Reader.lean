import ScryptLedger.Proofs.Script.Instruction
import ScryptLedger.Proofs.Script.Positional.Attempt
import ScryptLedger.Script.Opcode
import ScryptLedger.Script.Push

/-!
# Instructions by position

A machine reads a script at a position that moves forward, and a script that is
cut short refuses there. What it leaves out of a script are ranges between the
positions where instructions start and end.
-/

namespace ScryptLedger.Script.Positional

open Attempt

/-! ## Reading at a position -/

/-- The bytes at a position, and the position behind them. -/
def take (script : Bytes) (position count : Nat) : Attempt (Bytes × Nat) :=
  if position + count > script.length then refuse .badOpcode
  else do return (← slice script position (position + count), position + count)

/-- The number that the bytes at a position are, and the position behind them. -/
def readNumber (script : Bytes) (width position : Nat) : Attempt (Nat × Nat) := do
  let (digits, position) ← take script position width
  return (ofLittleEndian (← (List.range width).mapM (item digits)), position)

/-- The length of the data of an operation byte, and the position behind what tells it. -/
def readLength (script : Bytes) (opcode : UInt8) (position : Nat) : Attempt (Nat × Nat) :=
  if 0x01 ≤ opcode ∧ opcode ≤ 0x4b then return (opcode.toNat, position)
  else if opcode = 0x4c then readNumber script 1 position
  else if opcode = 0x4d then readNumber script 2 position
  else if opcode = 0x4e then readNumber script 4 position
  else return (0, position)

/-- The instruction at a position, and the position behind it. -/
def readInstruction (script : Bytes) (position : Nat) : Attempt (Instruction × Nat) := do
  let (head, position) ← take script position 1
  let opcode ← item head 0
  let (length, position) ← readLength script opcode position
  let (data, position) ← take script position length
  return (⟨opcode, data⟩, position)

section Reading

variable {script : Bytes} {position count : Nat}

theorem take_eq (inside : position ≤ script.length) :
    take script position count = if (script.drop position).length < count then refuse .badOpcode
      else pure ((script.drop position).take count, position + count) := by
  have length : (script.drop position).length = script.length - position := List.length_drop
  by_cases short : position + count > script.length
  · rw [take, if_pos short, if_pos (by omega)]
  · rw [take, if_neg short, if_neg (by omega), slice_eq (Nat.le_add_right _ _) (by omega),
      List.drop_take, Nat.add_sub_cancel_left]
    rfl

/-- The bytes are read as one number wherever there are enough of them. -/
theorem readNumber_eq {width : Nat} (inside : position ≤ script.length) :
    readNumber script width position =
      if ((script.drop position).take width).length < width then refuse .badOpcode
      else pure (ofLittleEndian ((script.drop position).take width), position + width) := by
  rw [readNumber, take_eq inside]
  by_cases short : (script.drop position).length < width
  · rw [if_pos short, if_pos (by rw [List.length_take]; omega)]
    rfl
  · have whole : ((script.drop position).take width).length = width :=
      List.length_take_of_le (Nat.not_lt.mp short)
    have read := mapM_item ((script.drop position).take width)
    rw [whole] at read
    rw [if_neg short, if_neg (by omega), pure_bind]
    dsimp only
    rw [read]
    rfl

/-- The byte tells the length, or how many bytes after it do. -/
theorem readLength_cases (script : Bytes) (opcode : UInt8) (position : Nat) :
    readLength script opcode position =
      if Instruction.lengthWidth opcode = 0 then pure (Instruction.ownLength opcode, position)
      else readNumber script (Instruction.lengthWidth opcode) position := by
  by_cases one : opcode = 0x4c
  · subst one
    rfl
  by_cases two : opcode = 0x4d
  · subst two
    rfl
  by_cases four : opcode = 0x4e
  · subst four
    rfl
  have plain : Instruction.lengthWidth opcode = 0 := by
    rw [Instruction.lengthWidth, if_neg one, if_neg two, if_neg four]
  rw [if_pos plain, readLength, if_neg one, if_neg two, if_neg four, Instruction.ownLength]
  by_cases tells : 0x01 ≤ opcode ∧ opcode ≤ 0x4b
  · have low : opcode < 0x4c := UInt8.lt_of_le_of_lt tells.2 (by decide)
    rw [if_pos tells, if_pos low]
  · rw [if_neg tells]
    by_cases low : opcode < 0x4c
    · have zero : opcode.toNat = 0 := by
        simp only [UInt8.le_iff_toNat_le, UInt8.lt_iff_toNat_lt, UInt8.reduceToNat] at tells low
        omega
      rw [if_pos low, zero]
    · rw [if_neg low]

theorem readLength_eq (opcode : UInt8) (inside : position ≤ script.length) :
    readLength script opcode position =
      match Instruction.dataLength? opcode (script.drop position) with
      | none => refuse .badOpcode
      | some (length, body) => pure (length, script.length - body.length) := by
  have left : (script.drop position).length = script.length - position := List.length_drop
  rw [readLength_cases, Instruction.dataLength?]
  by_cases plain : Instruction.lengthWidth opcode = 0
  · rw [if_pos plain]
    simp only [plain, if_true]
    rw [left, Nat.sub_sub_self inside]
  rw [if_neg plain, readNumber_eq inside]
  simp only [if_neg plain]
  by_cases short : ((script.drop position).take (Instruction.lengthWidth opcode)).length
      < Instruction.lengthWidth opcode
  · simp only [if_pos short]
  · simp only [if_neg short]
    rw [List.length_take] at short
    rw [List.length_drop, left, show script.length
      - (script.length - position - Instruction.lengthWidth opcode)
        = position + Instruction.lengthWidth opcode by omega]

theorem readInstruction_eq (inside : position ≤ script.length) :
    readInstruction script position =
      match Instruction.read? (script.drop position) with
      | none => refuse .badOpcode
      | some (instruction, rest) => pure (instruction, script.length - rest.length) := by
  rw [readInstruction, take_eq inside]
  cases rest : script.drop position with
  | nil => rfl
  | cons opcode body =>
    have within : position < script.length := by
      have left : (script.drop position).length = script.length - position := List.length_drop
      rw [rest, List.length_cons] at left
      omega
    have behind : script.drop (position + 1) = body := by
      rw [← List.tail_drop, rest, List.tail_cons]
    have head : item [opcode] 0 = pure opcode := item_eq rfl
    rw [if_neg (by simp), pure_bind]
    dsimp only [List.take_succ_cons, List.take_zero]
    rw [head, pure_bind, readLength_eq opcode within, behind, Instruction.read?]
    cases announced : Instruction.dataLength? opcode body with
    | none => rfl
    | some parts =>
      obtain ⟨length, after⟩ := parts
      have suffix : after <:+ script := by
        rw [← behind] at announced
        exact List.IsSuffix.trans ⟨_, Instruction.append_of_dataLength? announced⟩
          (List.drop_suffix _ _)
      have reached : script.drop (script.length - after.length) = after :=
        (List.suffix_iff_eq_drop.mp suffix).symm
      have room := suffix.length_le
      dsimp only
      rw [pure_bind]
      dsimp only
      rw [take_eq (Nat.sub_le _ _), reached, List.length_take]
      by_cases short : after.length < length
      · rw [if_pos short, if_pos (by omega)]
        rfl
      · have behind : script.length - (after.length - length)
            = script.length - after.length + length := by omega
        rw [if_neg short, if_neg (by omega), pure_bind]
        dsimp only
        rw [List.length_drop, behind]

theorem lt_of_readInstruction {next : Nat} {instruction : Instruction}
    (inside : position < script.length)
    (done : readInstruction script position = .ok (instruction, next)) : position < next := by
  rw [readInstruction_eq inside.le] at done
  cases found : Instruction.read? (script.drop position) with
  | none =>
    rw [found] at done
    cases done
  | some parts =>
    obtain ⟨read, rest⟩ := parts
    have shorter := Instruction.length_lt_of_read? found
    rw [found] at done
    cases done
    rw [List.length_drop] at shorter
    omega

/-- What stands between the positions where an instruction starts and ends is its bytes. -/
theorem slice_of_readInstruction {next : Nat} {instruction : Instruction}
    (done : readInstruction script position = .ok (instruction, next)) :
    slice script position next = pure instruction.encode ∧ instruction.TellsLength := by
  have inside : position ≤ script.length := by
    by_contra outside
    rw [readInstruction, take, if_pos (by omega)] at done
    cases done
  rw [readInstruction_eq inside] at done
  cases found : Instruction.read? (script.drop position) with
  | none =>
    rw [found] at done
    cases done
  | some parts =>
    obtain ⟨read, rest⟩ := parts
    have whole := Instruction.encode_append_of_read? found
    have split : script.take position ++ read.encode ++ rest = script := by
      rw [List.append_assoc, whole, List.take_append_drop]
    have start : (script.take position).length = position := List.length_take_of_le inside
    have stop : script.length - rest.length = (script.take position ++ read.encode).length := by
      rw [← congrArg List.length split, List.length_append, Nat.add_sub_cancel]
    rw [found] at done
    cases done
    refine ⟨?_, Instruction.tellsLength_of_read? found⟩
    generalize script.take position = before at split start stop
    rw [stop, ← start, ← split, slice_eq (by simp) (by simp), List.take_left, List.drop_left]

end Reading

/-! ## Going through a script -/

/-- Visits the instructions from a position on, each with the positions where it starts and ends.
At one that is cut short it stops with what `cut` makes of the refusal. -/
def through {State : Type} (script : Bytes)
    (visit : State → Nat → Instruction → Nat → Attempt State)
    (cut : State → ScriptError → Attempt State) (position : Nat) (state : State) : Attempt State :=
  if _inside : position < script.length then
    match _read : readInstruction script position with
    | .error (.fault cause) => fault cause
    | .error (.refused cause) => cut state cause
    | .ok (instruction, next) => do
      through script visit cut next (← visit state position instruction next)
  else return state
termination_by script.length - position
decreasing_by
  have further := lt_of_readInstruction _inside _read
  omega

section Through

variable {State : Type} {script : Bytes} {visit : State → Nat → Instruction → Nat → Attempt State}
  {cut : State → ScriptError → Attempt State}

/-- Where an instruction starts and ends is told by the bytes that follow it. -/
def visitLocated (script : Bytes) (visit : State → Nat → Instruction → Nat → Attempt State)
    (state : State) (located : Located) : Attempt State :=
  visit state (script.length - (located.instruction.encode ++ located.following).length)
    located.instruction (script.length - located.following.length)

theorem through_of_read? {position : Nat} {state : State} {instruction : Instruction} {rest : Bytes}
    (found : Instruction.read? (script.drop position) = some (instruction, rest)) :
    through script visit cut position state =
      visit state position instruction (script.length - rest.length) >>=
        through script visit cut (script.length - rest.length) := by
  have inside : position < script.length := by
    have shorter := Instruction.length_lt_of_read? found
    rw [List.length_drop] at shorter
    omega
  have read := readInstruction_eq inside.le
  rw [found] at read
  rw [through, dif_pos inside]
  split <;> rename_i done <;> rw [read] at done <;> cases done
  rfl

theorem through_of_cut {position : Nat} {state : State} (inside : position < script.length)
    (found : Instruction.read? (script.drop position) = none) :
    through script visit cut position state = cut state .badOpcode := by
  have read := readInstruction_eq inside.le
  rw [found] at read
  rw [through, dif_pos inside]
  split <;> rename_i done <;> rw [read] at done <;> cases done
  rfl

/-- Going through a script is visiting the instructions it is read as, then its tail. -/
theorem through_eq {position : Nat} {state : State} (inside : position ≤ script.length) :
    through script visit cut position state =
      (parse (script.drop position)).1.foldlM (visitLocated script visit) state >>= fun state =>
        if (tail (script.drop position)).isEmpty then pure state else cut state .badOpcode := by
  have left : (script.drop position).length = script.length - position := List.length_drop
  induction remaining : script.drop position using Instruction.read_induction
    generalizing position state with
  | cut _ found =>
    subst remaining
    rw [tail, parse_of_read?_eq_none found, List.foldlM_nil, pure_bind]
    by_cases more : position < script.length
    · have nonempty : (script.drop position).isEmpty = false := by
        rw [List.isEmpty_eq_false_iff, ← List.length_pos_iff]
        omega
      rw [through_of_cut more found, nonempty]
      rfl
    · have empty : script.drop position = [] := List.drop_of_length_le (Nat.not_lt.mp more)
      rw [through, dif_neg more, empty]
      rfl
  | next _ instruction rest found ih =>
    subst remaining
    have whole := Instruction.encode_append_of_read? found
    have suffix : rest <:+ script := List.IsSuffix.trans ⟨_, whole⟩ (List.drop_suffix _ _)
    have reached : script.drop (script.length - rest.length) = rest :=
      (List.suffix_iff_eq_drop.mp suffix).symm
    have start : script.length - (instruction.encode ++ rest).length = position := by
      rw [whole]
      omega
    rw [through_of_read? found, tail, parse_of_read? found, List.foldlM_cons, bind_assoc,
      visitLocated]
    dsimp only
    rw [start]
    exact bind_congr fun state => ih (Nat.sub_le _ _) List.length_drop reached

end Through

/-! ## Pushes -/

/-- The shortest push of a byte string. -/
def push (data : Bytes) : Attempt Bytes :=
  if data.isEmpty then return [0x00]
  else if data.length = 1 then do
    let b ← item data 0
    if 1 ≤ b ∧ b ≤ 16 then
      return [UInt8.ofNat (← minus (← unsigned 8 (0x51 + b.toNat)) 1)]
    else if b = 0x81 then return [0x4f]
    else return [0x01, b]
  else if data.length ≤ 75 then return UInt8.ofNat data.length :: data
  else if data.length ≤ 255 then return 0x4c :: (littleEndian 1 data.length ++ data)
  else if data.length ≤ 65535 then return 0x4d :: (littleEndian 2 data.length ++ data)
  else return 0x4e :: (littleEndian 4 data.length ++ data)

/-- Whether some data could not have been pushed in fewer bytes than by this operation. -/
def isMinimalPush (data : Bytes) (opcode : UInt8) : Attempt Bool :=
  if data.isEmpty then return opcode == 0x00
  else do
    let small ← if data.length = 1 then do
        let b ← item data 0
        pure (decide (1 ≤ b ∧ b ≤ 16) || b == 0x81)
      else pure false
    if small then return false
    else if data.length ≤ 75 then return opcode.toNat == data.length
    else if data.length ≤ 255 then return opcode == 0x4c
    else if data.length ≤ 65535 then return opcode == 0x4d
    else return true

/-- Whether a script only pushes; the reserved operation among the small integers counts. -/
def isPushOnly (script : Bytes) : Attempt Bool :=
  through script (fun pushes _ instruction _ => return pushes && Opcode.isPush instruction.opcode)
    (fun _ _ => return false) 0 true

/-- Whether an output script asks for a script with a given hash. -/
def isPayToScriptHash (script : Bytes) : Attempt Bool :=
  if script.length = 23 then do
    if (← item script 0) = 0xa9 then
      if (← item script 1) = 0x14 then return (← item script 22) == 0x87
      else return false
    else return false
  else return false

section Pushes

theorem push_eq (data : Bytes) : push data = pure (Script.push data) := by
  match data with
  | [] => rfl
  | [b] =>
    have head : item [b] 0 = pure b := item_eq rfl
    have chosen : push [b] = if 1 ≤ b ∧ b ≤ 16 then do
          return [UInt8.ofNat (← minus (← unsigned 8 (0x51 + b.toNat)) 1)]
        else if b = 0x81 then return [0x4f]
        else return [0x01, b] := rfl
    rw [chosen, Script.push]
    by_cases small : 1 ≤ b ∧ b ≤ 16
    · have low : b.toNat ≤ 16 := UInt8.le_iff_toNat_le.mp small.2
      have value : 0x51 + b.toNat - 1 = 0x50 + b.toNat := by omega
      rw [if_pos small, if_pos small, unsigned_eq (by omega), pure_bind, minus_eq (by omega),
        pure_bind, value, UInt8.ofNat_add, UInt8.ofNat_toNat]
      rfl
    · rw [if_neg small, if_neg small]
      exact (apply_ite pure _ _ _).symm
  | first :: second :: rest =>
    have several : (first :: second :: rest).length ≠ 1 := by simp
    rw [push, if_neg several]
    simp only [Script.push, apply_ite pure]
    rfl

theorem isMinimalPush_eq (data : Bytes) (opcode : UInt8) :
    isMinimalPush data opcode = pure (Script.isMinimalPush data opcode) := by
  match data with
  | [] => rfl
  | [b] =>
    have head : item [b] 0 = pure b := item_eq rfl
    have chosen : isMinimalPush [b] opcode
        = if decide (1 ≤ b ∧ b ≤ 16) || b == 0x81 then pure false
          else pure (opcode.toNat == 1) := rfl
    have one : (opcode.toNat == 1) = (opcode == 0x01) := by
      rw [beq_eq_decide, beq_eq_decide]
      exact decide_eq_decide.mpr (UInt8.toNat_inj (a := opcode) (b := 0x01))
    rw [chosen, one, Script.isMinimalPush, Bool.decide_and, bne]
    cases decide (1 ≤ b) && decide (b ≤ 16) <;> cases b == 0x81 <;> rfl
  | first :: second :: rest =>
    have several : (first :: second :: rest).length ≠ 1 := by simp
    rw [isMinimalPush, if_neg several]
    simp only [Script.isMinimalPush, apply_ite pure]
    rfl

theorem foldlM_all {test : UInt8 → Bool} (script : Bytes) (instructions : List Located)
    (so_far : Bool) :
    instructions.foldlM (visitLocated script fun pushes _ instruction _ =>
      return pushes && test instruction.opcode) so_far
      = pure (so_far && instructions.all (test ·.instruction.opcode)) := by
  induction instructions generalizing so_far with
  | nil => rw [List.foldlM_nil, List.all_nil, Bool.and_true]
  | cons located rest ih =>
    rw [List.foldlM_cons, visitLocated, pure_bind, ih, List.all_cons, Bool.and_assoc]

theorem isPushOnly_eq (script : Bytes) : isPushOnly script = pure (Script.isPushOnly script) := by
  rw [isPushOnly, through_eq (Nat.zero_le _), List.drop_zero, foldlM_all, pure_bind,
    Script.isPushOnly, instructions, List.all_map, Bool.true_and]
  cases (tail script).isEmpty <;> rfl

theorem isPayToScriptHash_eq (script : Bytes) :
    isPayToScriptHash script = pure (Script.isPayToScriptHash script) := by
  rw [isPayToScriptHash, Script.isPayToScriptHash]
  by_cases length : script.length = 23
  · have first : item script 0 = pure script[0] := item_eq (List.getElem?_eq_getElem (by omega))
    have second : item script 1 = pure script[1] := item_eq (List.getElem?_eq_getElem (by omega))
    have last : item script 22 = pure script[22] := item_eq (List.getElem?_eq_getElem (by omega))
    have front : script.take 2 = [script[0], script[1]] := by
      rw [List.take_succ_eq_append_getElem (by omega), List.take_succ_eq_append_getElem (by omega)]
      rfl
    have back : script.drop 22 = [script[22]] := by
      rw [List.drop_eq_getElem_cons (by omega), List.drop_of_length_le (by omega)]
    rw [if_pos length, first, second, last, front, back, beq_iff_eq.mpr length]
    simp only [pure_bind]
    by_cases one : script[0] = 0xa9
    · by_cases two : script[1] = 0x14
      · simp [one, two]
      · simp [one, two, beq_false_of_ne two]
    · simp [one, beq_false_of_ne one]
  · rw [if_neg length, beq_false_of_ne length]
    rfl

end Pushes

/-! ## Scripts without some of their instructions -/

/-- What is kept of a script so far: some bytes, and those from a position on. An instruction that
is picked ends a range to keep, and starts the next one behind itself. -/
def leaveOut (picked : Nat → Instruction → Nat → Attempt Bool) (script : Bytes)
    (kept : Bytes × Nat) (start : Nat) (instruction : Instruction) (stop : Nat) :
    Attempt (Bytes × Nat) := do
  if ← picked start instruction stop then
    return (kept.1 ++ (← slice script kept.2 start), stop)
  else return kept

/-- The script without the instructions that a test picks. -/
def removing (picked : Nat → Instruction → Nat → Attempt Bool) (script : Bytes) :
    Attempt Bytes := do
  let (kept, last) ← through script (leaveOut picked script) (fun kept _ => return kept) 0 ([], 0)
  return kept ++ (← sliceFrom script last)

/-- The script without the pushes of a signature; an empty signature is nowhere pushed. -/
def withoutSignature (script signature : Bytes) : Attempt Bytes :=
  if signature.isEmpty then return script
  else do
    let pattern ← push signature
    removing (fun start _ stop => do return (← slice script start stop) == pattern) script

/-- The script without its code separators. -/
def withoutSeparators (script : Bytes) : Attempt Bytes :=
  if script.contains 0xab then
    removing (fun _ instruction _ => return instruction.opcode == 0xab) script
  else return script

section Removing

variable {script rest after : Bytes} {instruction : Instruction} {test : Instruction → Bool}
  {picked : Nat → Instruction → Nat → Attempt Bool}

theorem removing_of_cut (found : Instruction.read? rest = none) :
    Script.removing test rest = rest := by
  rw [Script.removing, instructions, tail, parse_of_read?_eq_none found]
  rfl

theorem removing_of_read? (found : Instruction.read? rest = some (instruction, after)) :
    Script.removing test rest
      = (if test instruction then [] else instruction.encode) ++ Script.removing test after := by
  rw [Script.removing, Script.removing, instructions, instructions, tail, tail,
    parse_of_read? found, List.map_cons, List.filter_cons]
  cases test instruction with
  | true => rfl
  | false => exact List.append_assoc _ _ _

/-- Whether the test that is made on positions is the one on what stands there. -/
def Picks (script : Bytes) (picked : Nat → Instruction → Nat → Attempt Bool)
    (test : Instruction → Bool) : Prop :=
  ∀ before (instruction : Instruction) after, before ++ instruction.encode ++ after = script →
    picked before.length instruction (before ++ instruction.encode).length = pure (test instruction)

/-- What is left of the rest of a script is what was kept, what stands between, and the rest
without the instructions that are picked. -/
theorem foldlM_leaveOut (picks : Picks script picked test) (before kept : Bytes) (last : Nat)
    (split : before ++ rest = script) (behind : last ≤ before.length) :
    ∃ left stop, stop ≤ script.length ∧
      (parse rest).1.foldlM (visitLocated script (leaveOut picked script)) (kept, last)
        = pure (left, stop) ∧
      left ++ script.drop stop = kept ++ before.drop last ++ Script.removing test rest := by
  have total : script.length = before.length + rest.length := by rw [← split, List.length_append]
  induction rest using Instruction.read_induction generalizing before kept last with
  | cut rest found =>
    rw [parse_of_read?_eq_none found, removing_of_cut found]
    refine ⟨kept, last, by omega, rfl, ?_⟩
    rw [← split, List.drop_append_of_le_length behind, List.append_assoc]
  | next rest instruction after found ih =>
    have whole := Instruction.encode_append_of_read? found
    have onward : before ++ instruction.encode ++ after = script := by
      rw [List.append_assoc, whole, split]
    have length : script.length = (before ++ instruction.encode).length + after.length := by
      rw [← onward, List.length_append]
    have stop : script.length - after.length = (before ++ instruction.encode).length := by
      rw [length, Nat.add_sub_cancel]
    have start : script.length - (instruction.encode ++ after).length = before.length := by
      rw [whole, total, Nat.add_sub_cancel]
    have range : slice script last before.length = pure (before.drop last) := by
      rw [slice_eq behind (by omega), ← split, List.take_left]
    rw [parse_of_read? found, removing_of_read? found, List.foldlM_cons, visitLocated]
    dsimp only
    rw [start, stop, leaveOut, picks before instruction after onward, pure_bind]
    cases picked : test instruction with
    | true =>
      obtain ⟨left, stop, inside, ran, parts⟩ :=
        ih _ (kept ++ before.drop last) _ onward (Nat.le_refl _) length
      refine ⟨left, stop, inside, ?_, ?_⟩
      · rw [if_pos rfl, range]
        exact ran
      · rw [parts, List.drop_length, List.append_nil]
        rfl
    | false =>
      have room : last ≤ (before ++ instruction.encode).length := by
        rw [List.length_append]
        omega
      obtain ⟨left, stop, inside, ran, parts⟩ := ih _ kept last onward room length
      refine ⟨left, stop, inside, ran, ?_⟩
      rw [parts, List.drop_append_of_le_length behind]
      simp

theorem removing_eq (picks : Picks script picked test) :
    removing picked script = pure (Script.removing test script) := by
  obtain ⟨left, stop, inside, ran, parts⟩ := foldlM_leaveOut picks [] [] 0
    (List.nil_append script) (Nat.le_refl 0)
  rw [removing, through_eq (Nat.zero_le _), List.drop_zero, ran, pure_bind, ite_self, pure_bind]
  dsimp only
  rw [sliceFrom_eq inside, pure_bind, parts]
  rfl

theorem withoutSignature_eq (script signature : Bytes) :
    withoutSignature script signature = pure (Script.withoutSignature script signature) := by
  rw [withoutSignature, Script.withoutSignature, push_eq, pure_bind]
  cases signature.isEmpty with
  | true => rfl
  | false =>
    refine removing_eq fun before instruction after split => ?_
    rw [← split, slice_eq (by simp) (by simp), List.take_left, List.drop_left]
    rfl

theorem withoutSeparators_eq (script : Bytes) :
    withoutSeparators script = pure (Script.withoutSeparators script) := by
  rw [withoutSeparators, Script.withoutSeparators, removing_eq fun _ _ _ _ => rfl]
  exact (apply_ite pure _ _ _).symm

end Removing

end ScryptLedger.Script.Positional
