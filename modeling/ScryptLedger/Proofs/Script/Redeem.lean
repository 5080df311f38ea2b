import ScryptLedger.Primitives.Transparent
import ScryptLedger.Proofs.Script.Instruction
import ScryptLedger.Proofs.Script.Step
import ScryptLedger.Script.Verify

/-!
# Spending an output that hashes a script

An input that consists of shortest pushes leaves exactly what it pushes, under
every set of flags. An output that hashes a script compares the hash of the last
push and leaves the verdict on the others. So deciding such a spend is running
the script that was pushed last on the pushes before it; nothing else is counted
and nothing else can fail.
-/

namespace ScryptLedger

namespace Script

open Machine

theorem lengthWidth_of_low {opcode : UInt8} (low : opcode < 0x4c) :
    Instruction.lengthWidth opcode = 0 := by
  have other : opcode ≠ 0x4c ∧ opcode ≠ 0x4d ∧ opcode ≠ 0x4e := by
    refine ⟨?_, ?_, ?_⟩ <;> rintro rfl <;> exact absurd low (by decide)
  rw [Instruction.lengthWidth, if_neg other.1, if_neg other.2.1, if_neg other.2.2]

theorem lengthWidth_of_high {opcode : UInt8} (high : 0x4e < opcode) :
    Instruction.lengthWidth opcode = 0 := by
  have other : opcode ≠ 0x4c ∧ opcode ≠ 0x4d ∧ opcode ≠ 0x4e := by
    refine ⟨?_, ?_, ?_⟩ <;> rintro rfl <;> exact absurd high (by decide)
  rw [Instruction.lengthWidth, if_neg other.1, if_neg other.2.1, if_neg other.2.2]

theorem ownLength_of_high {opcode : UInt8} (high : 0x4e < opcode) :
    Instruction.ownLength opcode = 0 := by
  have other : ¬ opcode < 0x4c :=
    UInt8.not_lt.mpr (UInt8.le_of_lt (UInt8.lt_trans (by decide) high))
  rw [Instruction.ownLength, if_neg other]

/-- The instruction that the shortest push of a byte string is. -/
def pushing (data : Bytes) : Instruction :=
  match data with
  | [] => ⟨0x00, []⟩
  | [b] =>
    if 1 ≤ b ∧ b ≤ 16 then ⟨0x50 + b, []⟩ else if b = 0x81 then ⟨0x4f, []⟩ else ⟨0x01, [b]⟩
  | _ =>
    if data.length ≤ 75 then ⟨UInt8.ofNat data.length, data⟩
    else if data.length ≤ 255 then ⟨0x4c, data⟩
    else if data.length ≤ 65535 then ⟨0x4d, data⟩
    else ⟨0x4e, data⟩

/-- How the shortest push says what it pushes: by its data, or as a small integer. -/
inductive PushesBy (data : Bytes) : Instruction → Prop
  | plainly {opcode : UInt8} (low : opcode ≤ 0x4e) (minimal : isMinimalPush data opcode = true) :
      PushesBy data ⟨opcode, data⟩
  | asInteger {opcode : UInt8} {n : Int}
      (asked : Operation.ofByte? opcode = some (.stack (.number n)))
      (written : ScriptNumber.encode n = data) (low : opcode ≤ 0x60) (high : 0x4e < opcode) :
      PushesBy data ⟨opcode, []⟩

theorem toNat_ofNat_of_le {length most : Nat} (short : length ≤ most) (byte : most < 256) :
    (UInt8.ofNat length).toNat = length :=
  UInt8.toNat_ofNat_of_lt' (short.trans_lt byte)

theorem ofNat_lt_of_le {length : Nat} (short : length ≤ 75) : UInt8.ofNat length < 0x4c := by
  rw [UInt8.lt_iff_toNat_lt, toNat_ofNat_of_le short (by decide)]
  exact Nat.lt_succ_of_le short

/-- The small integers, each by its own operation. -/
theorem smallIntegers : ∀ row : Fin 17, row ≠ 0 →
    Operation.ofByte? (0x50 + UInt8.ofNat row) = some (.stack (.number row)) ∧
      ScriptNumber.encode row = [UInt8.ofNat row] ∧
      0x50 + UInt8.ofNat row ≤ 0x60 ∧ 0x4e < 0x50 + UInt8.ofNat row := by
  decide +kernel

theorem smallInteger {b : UInt8} (small : 1 ≤ b ∧ b ≤ 16) :
    Operation.ofByte? (0x50 + b) = some (.stack (.number b.toNat)) ∧
      ScriptNumber.encode b.toNat = [b] ∧ 0x50 + b ≤ 0x60 ∧ 0x4e < 0x50 + b := by
  have low : b.toNat < 17 := Nat.lt_succ_of_le (UInt8.le_iff_toNat_le.mp small.2)
  have positive : (⟨b.toNat, low⟩ : Fin 17) ≠ 0 := by
    intro zero
    have least := UInt8.le_iff_toNat_le.mp small.1
    rw [show b.toNat = 0 from congrArg Fin.val zero] at least
    exact absurd least (by decide)
  simpa only [UInt8.ofNat_toNat] using smallIntegers ⟨b.toNat, low⟩ positive

theorem pushesBy_pushing (data : Bytes) : PushesBy data (pushing data) := by
  match data with
  | [] => exact .plainly (by decide) rfl
  | [b] =>
    rw [pushing]
    by_cases small : 1 ≤ b ∧ b ≤ 16
    · rw [if_pos small]
      obtain ⟨asked, written, low, high⟩ := smallInteger small
      exact .asInteger asked written low high
    rw [if_neg small]
    by_cases negative : b = 0x81
    · rw [if_pos negative, negative]
      exact .asInteger rfl (by decide +kernel) (by decide) (by decide)
    · rw [if_neg negative]
      refine .plainly (by decide) ?_
      simp only [isMinimalPush, Bool.and_eq_true, Bool.not_eq_true', Bool.and_eq_false_iff,
        decide_eq_false_iff_not, bne_iff_ne, beq_self_eq_true, and_true]
      exact ⟨by tauto, negative⟩
  | first :: second :: rest =>
    simp only [pushing]
    by_cases byte : (first :: second :: rest).length ≤ 75
    · have whole := toNat_ofNat_of_le byte (by decide)
      rw [if_pos byte]
      refine .plainly ?_ ?_
      · rw [UInt8.le_iff_toNat_le, whole]
        exact byte.trans (by decide)
      · simp only [isMinimalPush, if_pos byte, whole, beq_self_eq_true]
    rw [if_neg byte]
    by_cases one : (first :: second :: rest).length ≤ 255
    · rw [if_pos one]
      exact .plainly (by decide) (by simp only [isMinimalPush, if_neg byte, if_pos one]; rfl)
    rw [if_neg one]
    by_cases two : (first :: second :: rest).length ≤ 65535
    · rw [if_pos two]
      exact .plainly (by decide)
        (by simp only [isMinimalPush, if_neg byte, if_neg one, if_pos two]; rfl)
    · rw [if_neg two]
      exact .plainly (by decide)
        (by simp only [isMinimalPush, if_neg byte, if_neg one, if_neg two])

theorem encode_pushing (data : Bytes) : (pushing data).encode = push data := by
  match data with
  | [] => rfl
  | [b] =>
    rw [pushing, push]
    by_cases small : 1 ≤ b ∧ b ≤ 16
    · rw [if_pos small, if_pos small]
      have high : 0x4e < 0x50 + b := (smallInteger small).2.2.2
      rw [Instruction.encode, lengthWidth_of_high high]
      rfl
    · rw [if_neg small, if_neg small]
      split <;> rfl
  | first :: second :: rest =>
    simp only [pushing, push]
    by_cases byte : (first :: second :: rest).length ≤ 75
    · have low := ofNat_lt_of_le byte
      rw [if_pos byte, if_pos byte, Instruction.encode, lengthWidth_of_low low]
      rfl
    · rw [if_neg byte, if_neg byte]
      split
      · rfl
      · split <;> rfl

theorem tellsLength_pushing {data : Bytes} (short : data.length < 256 ^ 4) :
    (pushing data).TellsLength := by
  match data with
  | [] => exact rfl
  | [b] =>
    rw [pushing]
    by_cases small : 1 ≤ b ∧ b ≤ 16
    · have high : 0x4e < 0x50 + b := (smallInteger small).2.2.2
      rw [if_pos small, Instruction.TellsLength, if_pos (lengthWidth_of_high high),
        ownLength_of_high high]
      rfl
    · rw [if_neg small]
      split <;> exact rfl
  | first :: second :: rest =>
    simp only [pushing]
    by_cases byte : (first :: second :: rest).length ≤ 75
    · have low := ofNat_lt_of_le byte
      rw [if_pos byte, Instruction.TellsLength, if_pos (lengthWidth_of_low low),
        Instruction.ownLength, if_pos low, toNat_ofNat_of_le byte (by decide)]
    rw [if_neg byte]
    by_cases one : (first :: second :: rest).length ≤ 255
    · rw [if_pos one]
      exact Nat.lt_succ_of_le one
    rw [if_neg one]
    by_cases two : (first :: second :: rest).length ≤ 65535
    · rw [if_pos two]
      exact Nat.lt_succ_of_le two
    · rw [if_neg two]
      exact short

/-! ## Steps -/

variable [Primitives] {flags : ScriptFlags} {spend : Spend}

/-- What a step takes whose instruction passes the limits. -/
theorem step_eq_ok {m next : Machine} {located : Located}
    (small : located.instruction.data.length ≤ maxElementSize)
    (affordable : (m.counting located.instruction.opcode).operations ≤ maxOperations)
    (enabled : Opcode.isDisabled located.instruction.opcode flags = false)
    (done : (m.counting located.instruction.opcode).execute located flags spend = .ok next)
    (room : next.stack.length + next.altStack.length ≤ maxStackSize) :
    m.step flags spend located = .ok next := by
  refine Outcome.refuse_eq_ok_iff.mpr ⟨Nat.not_lt.mpr small, ?_⟩
  refine Outcome.refuse_eq_ok_iff.mpr ⟨Nat.not_lt.mpr affordable, ?_⟩
  refine Outcome.refuse_eq_ok_iff.mpr ⟨ne_true_of_eq_false enabled, ?_⟩
  refine Outcome.bind_eq_ok_iff.mpr ⟨next, done, ?_⟩
  exact Outcome.refuse_eq_ok_iff.mpr ⟨Nat.not_lt.mpr room, rfl⟩

/-- What an operation on the stack does that no flag takes out of the language. -/
theorem execute_stackOp {m : Machine} {opcode : UInt8} {data following : Bytes} {op : StackOp}
    {left : Stack} (running : m.isRunning = true) (high : 0x4e < opcode)
    (kept : Opcode.isLegacyRemoved opcode = false)
    (asked : Operation.ofByte? opcode = some (.stack op))
    (done : op.apply flags.minimalData m.stack = .ok left) :
    m.execute ⟨⟨opcode, data⟩, following⟩ flags spend = .ok { m with stack := left } := by
  have above : decide (opcode ≤ 0x4e) = false := decide_eq_false (UInt8.not_le.mpr high)
  simp only [execute, running, above, kept, asked, perform, done, Bool.and_false, Bool.true_or,
    if_true, Bool.false_eq_true, if_false]
  rfl

/-- A counted operation on the stack that no flag takes out of the language. -/
theorem step_stackOp {m : Machine} {opcode : UInt8} {following : Bytes} {op : StackOp}
    {left : Stack} (running : m.isRunning = true) (high : 0x60 < opcode)
    (affordable : m.operations + 1 ≤ maxOperations)
    (enabled : Opcode.isDisabled opcode flags = false)
    (kept : Opcode.isLegacyRemoved opcode = false)
    (asked : Operation.ofByte? opcode = some (.stack op))
    (done : op.apply flags.minimalData m.stack = .ok left)
    (room : left.length + m.altStack.length ≤ maxStackSize) :
    m.step flags spend ⟨⟨opcode, []⟩, following⟩
      = .ok { m with stack := left, operations := m.operations + 1 } := by
  have counted : m.counting opcode = { m with operations := m.operations + 1 } := by
    rw [counting, Opcode.isCounted, decide_eq_true high]
    rfl
  refine step_eq_ok (Nat.zero_le _) ?_ enabled ?_ room
  · rwa [counted]
  · rw [counted]
    exact execute_stackOp running (UInt8.lt_trans (by decide) high) kept asked done

omit [Primitives] in
/-- No rule takes a push out of the language. -/
theorem plain_of_isPush (flags : ScriptFlags) {opcode : UInt8}
    (push : Opcode.isPush opcode = true) :
    Opcode.isCounted opcode = false ∧ Opcode.isDisabled opcode flags = false ∧
      Opcode.isLegacyRemoved opcode = false := by
  have table : ∀ row : Fin 97, Opcode.isCounted (UInt8.ofNat row) = false ∧
      Opcode.isAlwaysDisabled (UInt8.ofNat row) = false ∧
      Opcode.isLegacyDisabled (UInt8.ofNat row) = false ∧
      Opcode.isLegacyRemoved (UInt8.ofNat row) = false := by decide +kernel
  have low : opcode.toNat < 97 :=
    Nat.lt_succ_of_le (UInt8.le_iff_toNat_le.mp (of_decide_eq_true push))
  obtain ⟨counted, always, legacy, removed⟩ := table ⟨opcode.toNat, low⟩
  rw [UInt8.ofNat_toNat] at counted always legacy removed
  refine ⟨counted, ?_, removed⟩
  rw [Opcode.isDisabled, always, legacy, Bool.and_false, Bool.or_false]

namespace PushesBy

variable {data : Bytes} {instruction : Instruction}

omit [Primitives] in
theorem isPush (pushes : PushesBy data instruction) :
    Opcode.isPush instruction.opcode = true := by
  cases pushes with
  | plainly low => exact decide_eq_true (UInt8.le_trans low (by decide))
  | asInteger _ _ low => exact decide_eq_true low

omit [Primitives] in
theorem length_le (pushes : PushesBy data instruction) :
    instruction.data.length ≤ data.length := by
  cases pushes with
  | plainly => exact Nat.le_refl _
  | asInteger => exact Nat.zero_le _

theorem execute {m : Machine} (pushes : PushesBy data instruction) (running : m.isRunning = true)
    (following : Bytes) :
    m.execute ⟨instruction, following⟩ flags spend = .ok { m with stack := data :: m.stack } := by
  cases pushes with
  | plainly low minimal =>
    simp only [Machine.execute, running, low, minimal, decide_true, Bool.and_true, if_true,
      Bool.not_true, Bool.and_false, Bool.false_eq_true, if_false]
    rfl
  | asInteger asked written low high =>
    have kept := (plain_of_isPush flags (decide_eq_true low)).2.2
    refine execute_stackOp running high kept asked ?_
    exact congrArg (fun top => Except.ok (top :: m.stack)) written

/-- A push leaves what it pushes wherever there is room, under every set of flags. -/
theorem step {m : Machine} (pushes : PushesBy data instruction) (running : m.isRunning = true)
    (short : data.length ≤ maxElementSize) (affordable : m.operations ≤ maxOperations)
    (room : m.stack.length + m.altStack.length < maxStackSize) (following : Bytes) :
    m.step flags spend ⟨instruction, following⟩ = .ok { m with stack := data :: m.stack } := by
  obtain ⟨counted, enabled, -⟩ := plain_of_isPush flags pushes.isPush
  have uncounted : m.counting instruction.opcode = m := by
    rw [counting, counted]
    rfl
  refine step_eq_ok (pushes.length_le.trans short) ?_ enabled ?_ ?_
  · rwa [uncounted]
  · rw [uncounted]
    exact pushes.execute running following
  · dsimp only
    rw [List.length_cons]
    omega

end PushesBy

/-! ## Runs -/

omit [Primitives] in
theorem parse_nil : parse [] = ([], []) := parse_of_read?_eq_none rfl

omit [Primitives] in
theorem parse_push_append {data : Bytes} (short : data.length ≤ maxElementSize) (rest : Bytes) :
    parse (push data ++ rest) = (⟨pushing data, rest⟩ :: (parse rest).1, (parse rest).2) := by
  have told := tellsLength_pushing (short.trans_lt (by decide : maxElementSize < 256 ^ 4))
  rw [← encode_pushing]
  exact parse_of_read? (Instruction.read?_encode told rest)

/-- Pushes leave what they push, last on top. -/
theorem run_pushes {ds : List Bytes} {m : Machine} (running : m.isRunning = true)
    (short : ∀ data ∈ ds, data.length ≤ maxElementSize) (affordable : m.operations ≤ maxOperations)
    (room : m.stack.length + m.altStack.length + ds.length ≤ maxStackSize) :
    run flags spend m (parse (ds.flatMap push)).1
      = .ok { m with stack := ds.reverse ++ m.stack } := by
  induction ds generalizing m with
  | nil =>
    rw [List.flatMap_nil, parse_nil]
    rfl
  | cons data ds ih =>
    obtain ⟨here, later⟩ := List.forall_mem_cons.mp short
    rw [List.length_cons] at room
    rw [List.flatMap_cons, parse_push_append here]
    refine Outcome.bind_eq_ok_iff.mpr
      ⟨_, (pushesBy_pushing data).step running here affordable (by omega) _, ?_⟩
    have below : (data :: m.stack).length + m.altStack.length + ds.length ≤ maxStackSize := by
      rw [List.length_cons]
      omega
    rw [List.reverse_cons, List.append_assoc]
    exact ih running later affordable below

omit [Primitives] in
theorem parse_pushes {ds : List Bytes} (short : ∀ data ∈ ds, data.length ≤ maxElementSize) :
    tail (ds.flatMap push) = [] ∧ instructions (ds.flatMap push) = ds.map pushing := by
  induction ds with
  | nil =>
    rw [List.flatMap_nil, tail, instructions, parse_nil]
    exact ⟨rfl, rfl⟩
  | cons data ds ih =>
    obtain ⟨here, later⟩ := List.forall_mem_cons.mp short
    obtain ⟨complete, read⟩ := ih later
    simp only [tail, instructions] at complete read ⊢
    rw [List.flatMap_cons, parse_push_append here]
    exact ⟨complete, congrArg (pushing data :: ·) read⟩

omit [Primitives] in
theorem isPushOnly_pushes {ds : List Bytes} (short : ∀ data ∈ ds, data.length ≤ maxElementSize) :
    isPushOnly (ds.flatMap push) = true := by
  obtain ⟨complete, read⟩ := parse_pushes short
  rw [isPushOnly, complete, read, List.all_map]
  exact List.all_eq_true.mpr fun data _ => (pushesBy_pushing data).isPush

theorem eval_pushes_onto {ds : List Bytes} (stack : Stack)
    (small : (ds.flatMap push).length ≤ maxScriptSize)
    (short : ∀ data ∈ ds, data.length ≤ maxElementSize)
    (few : stack.length + ds.length ≤ maxStackSize) :
    eval (ds.flatMap push) stack flags spend = .ok (ds.reverse ++ stack, 0) := by
  have ran : run flags spend (Machine.start (ds.flatMap push) stack) (parse (ds.flatMap push)).1
      = .ok ⟨ds.reverse ++ stack, [], [], 0, 0, ds.flatMap push⟩ :=
    run_pushes rfl short (Nat.zero_le _) few
  exact eval_eq_ok_iff.mpr ⟨small, (parse_pushes short).1, _, ran, rfl, rfl, rfl⟩

theorem eval_pushes {ds : List Bytes} (small : (ds.flatMap push).length ≤ maxScriptSize)
    (short : ∀ data ∈ ds, data.length ≤ maxElementSize) (few : ds.length ≤ maxStackSize) :
    eval (ds.flatMap push) [] flags spend = .ok (ds.reverse, 0) := by
  rw [eval_pushes_onto [] small short (by rwa [List.length_nil, Nat.zero_add]), List.append_nil]

/-! ## Outputs that hash a script -/

/-- The output script that asks for a script with a given hash. -/
def payToScriptHash (hash : Hash160) : Bytes :=
  [0xa9, 0x14] ++ hash.bytes ++ [0x87]

omit [Primitives] in
theorem isPayToScriptHash_payToScriptHash (hash : Hash160) :
    isPayToScriptHash (payToScriptHash hash) = true := by
  have size := hash.length_bytes
  simp [isPayToScriptHash, payToScriptHash, size]

omit [Primitives] in
/-- What stands between the operations is a push of the hash. -/
theorem push_hash (hash : Hash160) : push hash.bytes = 0x14 :: hash.bytes := by
  have size := hash.length_bytes
  match bytes : hash.bytes with
  | [] => simp [bytes] at size
  | [b] => simp [bytes] at size
  | first :: second :: rest =>
    rw [bytes] at size
    simp only [push, size]
    rfl

omit [Primitives] in
theorem parse_payToScriptHash (hash : Hash160) :
    parse (payToScriptHash hash) =
      ([⟨⟨0xa9, []⟩, push hash.bytes ++ [0x87]⟩, ⟨pushing hash.bytes, [0x87]⟩,
        ⟨⟨0x87, []⟩, []⟩], []) := by
  have layout : payToScriptHash hash = 0xa9 :: (push hash.bytes ++ [0x87]) := by
    rw [push_hash]
    rfl
  have short : hash.bytes.length ≤ maxElementSize := by
    rw [hash.length_bytes]
    decide
  have first : Instruction.read? (0xa9 :: (push hash.bytes ++ [0x87]))
      = some (⟨0xa9, []⟩, push hash.bytes ++ [0x87]) :=
    Instruction.read?_encode (show Instruction.TellsLength ⟨0xa9, []⟩ from rfl) _
  have last : Instruction.read? [0x87] = some (⟨0x87, []⟩, []) :=
    Instruction.read?_encode (show Instruction.TellsLength ⟨0x87, []⟩ from rfl) []
  rw [layout, parse_of_read? first, parse_push_append short, parse_of_read? last, parse_nil]

/-- Such an output leaves, in the place of the top, whether it hashes to the given hash. -/
theorem eval_payToScriptHash {hash : Hash160} {top : Bytes} {below : Stack}
    (room : below.length + 2 ≤ maxStackSize) :
    eval (payToScriptHash hash) (top :: below) flags spend =
      .ok (ScriptNumber.ofBool ((hash160 top).bytes == hash.bytes) :: below, 0) := by
  let code := payToScriptHash hash
  let verdict := ScriptNumber.ofBool ((hash160 top).bytes == hash.bytes)
  let hashed : Machine := ⟨(hash160 top).bytes :: below, [], [], 1, 0, code⟩
  have enabled : ∀ opcode : UInt8, opcode = 0xa9 ∨ opcode = 0x87 →
      Opcode.isDisabled opcode flags = false := by
    rintro opcode (rfl | rfl) <;> exact Bool.and_false _
  have hashing : (Machine.start code (top :: below)).step flags spend
      ⟨⟨0xa9, []⟩, push hash.bytes ++ [0x87]⟩ = .ok hashed :=
    step_stackOp rfl (by decide) (by decide : 0 + 1 ≤ maxOperations) (enabled 0xa9 (Or.inl rfl))
      (by decide) rfl rfl (by simp only [Machine.start, List.length_cons, List.length_nil]; omega)
  have pushed : hashed.step flags spend ⟨pushing hash.bytes, [0x87]⟩
      = .ok { hashed with stack := hash.bytes :: hashed.stack } := by
    have short : hash.bytes.length ≤ maxElementSize := by
      rw [hash.length_bytes]
      decide
    refine (pushesBy_pushing hash.bytes).step rfl short (by decide : 1 ≤ maxOperations) ?_ _
    change below.length + 1 + 0 < maxStackSize
    omega
  have comparing : Machine.step flags spend { hashed with stack := hash.bytes :: hashed.stack }
      ⟨⟨0x87, []⟩, []⟩ = .ok ⟨verdict :: below, [], [], 2, 0, code⟩ := by
    refine step_stackOp rfl (by decide) (by decide : 1 + 1 ≤ maxOperations)
      (enabled 0x87 (Or.inr rfl)) (by decide) rfl rfl ?_
    change below.length + 1 + 0 ≤ maxStackSize
    omega
  have small : code.length ≤ maxScriptSize := by
    simp [code, payToScriptHash, hash.length_bytes, maxScriptSize]
  have ran : run flags spend (Machine.start code (top :: below)) (parse code).1
      = .ok ⟨verdict :: below, [], [], 2, 0, code⟩ := by
    rw [parse_payToScriptHash]
    exact Outcome.bind_eq_ok_iff.mpr ⟨_, hashing, Outcome.bind_eq_ok_iff.mpr
      ⟨_, pushed, Outcome.bind_eq_ok_iff.mpr ⟨_, comparing, rfl⟩⟩⟩
  have complete : tail code = [] := by
    rw [tail, parse_payToScriptHash]
  exact eval_eq_ok_iff.mpr ⟨small, complete, _, ran, rfl, rfl, rfl⟩

/-- What is decided by a script that runs on some pushes, last on top: whether it leaves a true
top and, where that is asked for, nothing else. -/
def decideOn (script : Bytes) (pushes : List Bytes) (flags : ScriptFlags) (spend : Spend) :
    Except ScriptError Nat :=
  match eval script pushes.reverse flags spend with
  | .error cause => .error cause
  | .ok ([], _) => .error .evalFalse
  | .ok (top :: below, checks) =>
    if ScriptNumber.isTrue top = false then .error .evalFalse
    else if flags.cleanStack = true ∧ below ≠ [] then .error .cleanStack
    else .ok checks

omit [Primitives] in
theorem isTrue_ofBool (b : Bool) : ScriptNumber.isTrue (ScriptNumber.ofBool b) = b := by
  cases b <;> decide

/-- A spend whose output hashes a script is refused unless the hash is that of the last push, and
else decided by that push as a script on the pushes before it. -/
theorem verify_payToScriptHash {ds : List Bytes} {script : Bytes} {hash : Hash160}
    (p2sh : flags.p2sh = true) (short : ∀ data ∈ ds ++ [script], data.length ≤ maxElementSize)
    (few : ds.length ≤ 998) (small : ((ds ++ [script]).flatMap push).length ≤ maxScriptSize) :
    verify ((ds ++ [script]).flatMap push) (payToScriptHash hash) flags spend =
      if hash160 script = hash then decideOn script ds flags spend else .error .evalFalse := by
  have pushOnly := isPushOnly_pushes short
  have pushed : eval ((ds ++ [script]).flatMap push) [] flags spend
      = .ok (script :: ds.reverse, 0) := by
    have room : (ds ++ [script]).length ≤ maxStackSize := by
      rw [List.length_append, List.length_singleton, maxStackSize]
      omega
    rw [eval_pushes small short room, List.reverse_append]
    rfl
  have compared : eval (payToScriptHash hash) (script :: ds.reverse) flags spend = .ok
      (ScriptNumber.ofBool ((hash160 script).bytes == hash.bytes) :: ds.reverse, 0) :=
    eval_payToScriptHash (by rw [List.length_reverse, maxStackSize]; omega)
  have asked : (flags.p2sh && isPayToScriptHash (payToScriptHash hash)) = true := by
    rw [p2sh, isPayToScriptHash_payToScriptHash]
    rfl
  have permitted : (flags.sigPushOnly && !isPushOnly ((ds ++ [script]).flatMap push)) = false := by
    rw [pushOnly]
    exact Bool.and_false _
  have bytes : ((hash160 script).bytes == hash.bytes) = decide (hash160 script = hash) := by
    rw [beq_eq_decide]
    exact decide_eq_decide.mpr ⟨Digest.ext_bytes, congrArg Digest.bytes⟩
  rw [bytes] at compared
  rw [verify, permitted, if_neg Bool.false_ne_true, pushed, Outcome.ok_bind]
  dsimp only
  rw [compared, Outcome.ok_bind]
  dsimp only
  rw [requireTrue, isTrue_ofBool, if_pos asked, redeem, pushOnly]
  by_cases same : hash160 script = hash
  · rw [decide_eq_true same, if_pos rfl, if_pos same, decideOn]
    cases ran : eval script ds.reverse flags spend with
    | error cause => rfl
    | ok left =>
      obtain ⟨stack, checks⟩ := left
      cases stack with
      | nil => rfl
      | cons top below =>
        cases verdict : ScriptNumber.isTrue top with
        | false =>
          simp only [requireTrue, verdict, Outcome.ok_bind]
          rfl
        | true =>
          have alone : ((top :: below).length != 1) = decide (below ≠ []) := by
            cases below <;> rfl
          simp only [requireTrue, verdict, Outcome.ok_bind]
          change (if (flags.cleanStack && (top :: below).length != 1) = true
              then Except.error ScriptError.cleanStack else Except.ok (0 + 0 + checks))
            = if flags.cleanStack = true ∧ below ≠ [] then .error .cleanStack else .ok checks
          simp only [alone, Bool.and_eq_true, decide_eq_true_eq, Nat.zero_add]
  · rw [decide_eq_false same, if_neg Bool.false_ne_true, if_neg same]
    rfl

end Script

namespace Script.Redeemed

local instance : Primitives := Primitives.transparent

def tx : Transaction := ⟨1, [], [], 0⟩

def spend : Spend := ⟨tx, 0, 0, Sighash.Midstate.of tx⟩

def hashed : ScriptFlags := { ScriptFlags.none with p2sh := true, cleanStack := true }

/-- Seven is what it asks for. -/
def seven : Bytes := [0x57, 0x87]

/-- The hash of another script. -/
def another : Hash160 := Digest.ofBytes [1]

theorem verify_seven :
    verify (([[7]] ++ [seven]).flatMap push) (payToScriptHash (hash160 seven)) hashed spend
        = .ok 0 ∧
      verify (([[8]] ++ [seven]).flatMap push) (payToScriptHash (hash160 seven)) hashed spend
        = .error .evalFalse ∧
      verify (([[9], [7]] ++ [seven]).flatMap push) (payToScriptHash (hash160 seven)) hashed spend
        = .error .cleanStack ∧
      verify (([[7]] ++ [seven]).flatMap push) (payToScriptHash another) hashed spend
        = .error .evalFalse := by
  have equal : decideOn seven [[7]] hashed spend = .ok 0 := by decide +kernel
  have unequal : decideOn seven [[8]] hashed spend = .error .evalFalse := by
    decide +kernel
  have crowded : decideOn seven [[9], [7]] hashed spend = .error .cleanStack := by
    decide +kernel
  have same : hash160 seven = hash160 seven := rfl
  have other : hash160 seven ≠ another := by decide +kernel
  refine ⟨?_, ?_, ?_, ?_⟩
  · rw [← equal]
    exact (verify_payToScriptHash rfl (by decide) (by decide) (by decide)).trans (if_pos same)
  · rw [← unequal]
    exact (verify_payToScriptHash rfl (by decide) (by decide) (by decide)).trans (if_pos same)
  · rw [← crowded]
    exact (verify_payToScriptHash rfl (by decide) (by decide) (by decide)).trans (if_pos same)
  · exact (verify_payToScriptHash rfl (by decide) (by decide) (by decide)).trans (if_neg other)

end Script.Redeemed

end ScryptLedger
