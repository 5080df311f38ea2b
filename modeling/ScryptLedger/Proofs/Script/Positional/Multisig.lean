import ScryptLedger.Proofs.Script.Multisig
import ScryptLedger.Proofs.Script.Positional.Spend
import ScryptLedger.Proofs.Script.Positional.StackOp

/-!
# Several signatures, by index

The operands of CHECKMULTISIG are counted from the top of the stack. Where
signatures are matched in order, an index into the keys goes up by one with each
try. Where a selector names the keys, its bits are scanned upward from the last
one found, and nothing but the number of bits ends the scan.
-/

namespace ScryptLedger.Script.Positional

open Attempt

/-! ## The operands -/

/-- The operands of CHECKMULTISIG, and how many elements of the stack they are. -/
structure Operands where
  keys : List Bytes
  signatures : List Bytes
  selector : Bytes
  depth : Nat

/-- The element some way below the one at a depth. -/
def below (stack : List Bytes) (depth distance : Nat) : Attempt Bytes := do
  item stack (← minus (← minus stack.length depth) distance)

/-- The operands, once their numbers are known. None of them is taken off the stack. -/
def readOperands (stack : List Bytes) (keyCount signatureCount : Nat) : Attempt Operands := do
  let depth := 3 + keyCount + signatureCount
  require stack depth
  let keys ← (List.range keyCount).mapM (below stack 2)
  let signatures ← (List.range signatureCount).mapM (below stack (3 + keyCount))
  return ⟨keys, signatures, ← below stack depth 0, depth⟩

/-- The operands, and the count of operations with the keys. -/
def operands (minimal : Bool) (performed : Nat) (stack : List Bytes) :
    Attempt (Operands × Nat) := do
  let keyCount ← decode (← top stack 1) minimal maxNumberSize
  if keyCount < 0 ∨ maxMultisigKeys < keyCount.toNat then refuse .pubkeyCount
  else if maxOperations < performed + keyCount.toNat then refuse .opCount
  else do
    let signatureCount ← decode (← top stack (2 + keyCount.toNat)) minimal maxNumberSize
    if signatureCount < 0 ∨ keyCount.toNat < signatureCount.toNat then refuse .sigCount
    else do
      let operands ← readOperands stack keyCount.toNat signatureCount.toNat
      return (operands, performed + keyCount.toNat)

/-- The stack without some elements on top. -/
def truncate (stack : List Bytes) (count : Nat) : Attempt (List Bytes) := do
  return stack.take (← minus stack.length count)

section Operands

variable {minimal : Bool} {performed : Nat} {s : Stack}

theorem below_append {above found left : Stack} {depth distance : Nat}
    (laid : s = above ++ found ++ left) (behind : above.length + 1 = depth)
    (inside : distance < found.length) :
    below s.reverse depth distance = pure found[distance] := by
  have length := congrArg List.length laid
  simp only [List.length_append] at length
  have opposite : s.length - depth - distance + (above.length + distance) + 1 = s.length := by omega
  rw [below, List.length_reverse, minus_eq (by omega), pure_bind, minus_eq (by omega), pure_bind,
    item_reverse opposite]
  refine item_eq ?_
  rw [laid, List.append_assoc, List.getElem?_append_right (by omega), Nat.add_sub_cancel_left,
    List.getElem?_append_left inside, List.getElem?_eq_getElem inside]

/-- What is read behind the elements above it. -/
theorem mapM_below {above found left : Stack} {depth : Nat}
    (laid : s = above ++ found ++ left) (behind : above.length + 1 = depth) :
    (List.range found.length).mapM (below s.reverse depth) = pure found := by
  have read : (List.range found.length).mapM (below s.reverse depth) = pure (found.map id) :=
    mapM_range found fun _ inside => below_append laid behind inside
  rwa [List.map_id] at read

theorem truncate_append (above : Stack) {left : Stack} {count : Nat}
    (whole : above.length = count) :
    truncate (above ++ left).reverse count = pure left.reverse := by
  rw [truncate, List.length_reverse, List.length_append, whole, minus_eq (by omega), pure_bind,
    Nat.add_sub_cancel_left, List.reverse_append, List.take_left' List.length_reverse]

/-- A sequence from which something is left after some elements starts with that many. -/
theorem exists_append_of_drop {values left : List Bytes} {next : Bytes} {count : Nat}
    (dropped : values.drop count = next :: left) :
    ∃ first, values = first ++ next :: left ∧ first.length = count := by
  have length := congrArg List.length dropped
  rw [List.length_drop, List.length_cons] at length
  refine ⟨values.take count, ?_, ?_⟩
  · rw [← dropped, List.take_append_drop]
  · rw [List.length_take]
    omega

theorem readOperands_eq {keyCount signatureCount selector : Bytes} {keys signatures left : Stack} :
    readOperands
        (keyCount :: (keys ++ signatureCount :: (signatures ++ selector :: left))).reverse
        keys.length signatures.length
      = pure ⟨keys, signatures, selector, 3 + keys.length + signatures.length⟩ := by
  generalize laid : keyCount :: (keys ++ signatureCount :: (signatures ++ selector :: left)) = s
  have enough : 3 + keys.length + signatures.length ≤ s.length := by
    simp only [← laid, List.length_cons, List.length_append]
    omega
  have keysAt : s = [keyCount] ++ keys ++ signatureCount :: (signatures ++ selector :: left) := by
    simp [← laid]
  have signaturesAt : s = (keyCount :: keys ++ [signatureCount]) ++ signatures
      ++ selector :: left := by
    simp [← laid]
  have selectorAt : s = (keyCount :: keys ++ signatureCount :: signatures) ++ [selector]
      ++ left := by
    simp [← laid]
  have readKeys : (List.range keys.length).mapM (below s.reverse 2) = pure keys :=
    mapM_below keysAt rfl
  have readSignatures :
      (List.range signatures.length).mapM (below s.reverse (3 + keys.length))
        = pure signatures :=
    mapM_below signaturesAt (by simp; omega)
  have readSelector :
      below s.reverse (3 + keys.length + signatures.length) 0 = pure selector :=
    below_append selectorAt (by simp; omega) Nat.zero_lt_one
  rw [readOperands, require_reverse, if_neg (by omega), pure_bind, readKeys, pure_bind,
    readSignatures, pure_bind, readSelector, pure_bind]

theorem readOperands_short {keys signatures : Nat} (short : s.length < 3 + keys + signatures) :
    readOperands s.reverse keys signatures = refuse .invalidStackOperation := by
  rw [readOperands, require_reverse, if_pos short]
  rfl

theorem operands_eq :
    operands minimal performed s.reverse
      = of (fun (multisig, operations) => (⟨multisig.keys, multisig.signatures, multisig.selector,
          3 + multisig.keys.length + multisig.signatures.length⟩, operations))
        (Multisig.ofStack minimal performed s) := by
  rcases s with _ | ⟨keyCount, rest⟩
  · rfl
  rw [operands, top_reverse]
  simp only [List.getElem?_cons_zero, pure_bind, decode_eq (by decide : maxNumberSize ≤ 8),
    Multisig.ofStack]
  refine bind_id_eq_of fun keys _ => refuse_eq_of fun inRange => refuse_eq_of fun _ => ?_
  rw [show 2 + keys.toNat = keys.toNat + 1 + 1 by omega, top_reverse, List.getElem?_cons_succ,
    ← List.head?_drop]
  cases afterKeys : rest.drop keys.toNat with
  | nil => rfl
  | cons signatureCount belowCount =>
    obtain ⟨upper, rfl, keyLength⟩ := exists_append_of_drop afterKeys
    rw [List.head?_cons, pure_bind]
    refine bind_id_eq_of fun signatures _ => ?_
    have compared : (signatures < 0 ∨ keys.toNat < signatures.toNat)
        ↔ (signatures < 0 ∨ keys < signatures) := by omega
    simp only [compared]
    refine refuse_eq_of fun _ => ?_
    cases afterSignatures : belowCount.drop signatures.toNat with
    | nil =>
      have few := List.drop_eq_nil_iff.mp afterSignatures
      rw [readOperands_short (by simp; omega)]
      rfl
    | cons selector left =>
      obtain ⟨lower, rfl, signatureLength⟩ := exists_append_of_drop afterSignatures
      rw [← keyLength, ← signatureLength, readOperands_eq, pure_bind, List.take_left,
        List.take_left]
      rfl

theorem length_keys_le {multisig : Multisig} {operations : Nat}
    (taken : Multisig.ofStack minimal performed s = .ok (multisig, operations)) :
    multisig.keys.length ≤ maxMultisigKeys := by
  obtain ⟨keyCount, signatureCount, rfl, readKeys, -⟩ := Multisig.stack_of_ofStack taken
  obtain ⟨keys, readAgain, taken⟩ := Outcome.bind_eq_ok_iff.mp taken
  cases readAgain.symm.trans readKeys
  obtain ⟨inRange, -⟩ := Outcome.refuse_eq_ok_iff.mp taken
  omega

/-- What is left below the operands. -/
theorem truncate_of_ofStack {multisig : Multisig} {operations : Nat}
    (taken : Multisig.ofStack minimal performed s = .ok (multisig, operations)) :
    truncate s.reverse (3 + multisig.keys.length + multisig.signatures.length)
      = pure multisig.below.reverse := by
  obtain ⟨keyCount, signatureCount, laid, -⟩ := Multisig.stack_of_ofStack taken
  have split : s = (keyCount :: multisig.keys ++ signatureCount :: multisig.signatures
      ++ [multisig.selector]) ++ multisig.below := by
    simp [laid]
  rw [split]
  refine truncate_append _ ?_
  simp only [List.length_append, List.length_cons, List.length_nil]
  omega

/-- No more signatures are read than keys, and no more keys than an operation may name. -/
theorem lengths_of_operands {stack : List Bytes} {given : Operands} {operations : Nat}
    (read : operands minimal performed stack = .ok (given, operations)) :
    given.signatures.length ≤ given.keys.length ∧ given.keys.length ≤ maxMultisigKeys := by
  rw [← List.reverse_reverse stack, operands_eq] at read
  cases taken : Multisig.ofStack minimal performed stack.reverse with
  | error cause =>
    rw [taken] at read
    cases read
  | ok result =>
    obtain ⟨multisig, counted⟩ := result
    rw [taken] at read
    cases read
    obtain ⟨-, -, -, -, -, fewer, -, -⟩ := Multisig.stack_of_ofStack taken
    exact ⟨fewer, length_keys_le taken⟩

end Operands

/-! ## Keys named by a selector -/

/-- Whether bits are set beyond the first ones. -/
def exceeds (bits : BitVec 32) (size : Nat) : Attempt Bool :=
  if size < 32 then do return (← shiftRight bits size) != 0 else return false

/-- The bits of a selector of just enough bytes, none of them beyond the keys. -/
def selectedBits (selector : Bytes) (size : Nat) : Attempt (BitVec 32) :=
  if selector.length ≠ (size + 7) / 8 then refuse .bitfieldSize
  else do
    let bits ← joinFrom 0#32 0 selector
    if ← exceeds bits size then refuse .bitRange else return bits

/-- How many bits are set. -/
def bitCount (bits : BitVec 32) : Nat := (List.range 32).countP bits.getLsbD

/-- The first bit set from an index on. Nothing but a bit that is set ends the search. -/
def nextSet (bits : BitVec 32) (index : Nat) : Attempt Nat :=
  if index < 32 then
    if bits >>> index &&& 1 = 0 then nextSet bits (index + 1) else return index
  else fault .wideShift
termination_by 32 - index

/-- The keys from an index on whose bits are set. -/
def selectedFrom (bits : BitVec 32) (keys : List Bytes) (index : Nat) : List Bytes :=
  ((keys.zipIdx.drop index).filter fun (_, i) => bits.getLsbD i).map Prod.fst

section Selected

variable {bits : BitVec 32} {keys chosen : List Bytes} {index : Nat} {selector : Bytes}

theorem bitCount_le : bitCount bits ≤ 32 := by
  simpa [bitCount] using List.countP_le_length (p := bits.getLsbD) (l := List.range 32)

theorem and_one_eq_zero_iff : bits >>> index &&& 1 = 0 ↔ bits.getLsbD index = false := by
  rw [BitVec.ofNat_eq_ofNat, BitVec.and_one_eq_setWidth_ofBool_getLsbD, BitVec.getLsbD_ushiftRight]
  cases bits.getLsbD index <;> simp

theorem selectedFrom_of_length_le (outside : keys.length ≤ index) :
    selectedFrom bits keys index = [] := by
  rw [selectedFrom, List.drop_of_length_le (by rwa [List.length_zipIdx])]
  rfl

theorem selectedFrom_of_lt (inside : index < keys.length) :
    selectedFrom bits keys index
      = if bits.getLsbD index then keys[index] :: selectedFrom bits keys (index + 1)
        else selectedFrom bits keys (index + 1) := by
  have length : index < keys.zipIdx.length := by rwa [List.length_zipIdx]
  rw [selectedFrom, List.drop_eq_getElem_cons length, List.getElem_zipIdx, Nat.zero_add]
  cases isSet : bits.getLsbD index <;> simp [isSet, selectedFrom]

theorem lt_of_selectedFrom {key : Bytes} (left : selectedFrom bits keys index = key :: chosen) :
    index < keys.length := by
  by_contra outside
  rw [selectedFrom_of_length_le (by omega)] at left
  exact List.cons_ne_nil _ _ left.symm

/-- Where keys are left to select, the search ends at the next of them, before the keys do. -/
theorem nextSet_eq {key : Bytes} (few : keys.length ≤ 32)
    (left : selectedFrom bits keys index = key :: chosen) :
    ∃ found, nextSet bits index = pure found ∧ keys[found]? = some key ∧
      selectedFrom bits keys (found + 1) = chosen := by
  fun_induction nextSet bits index with
  | case1 index near clear ih =>
    rw [selectedFrom_of_lt (lt_of_selectedFrom left), and_one_eq_zero_iff.mp clear] at left
    exact ih left
  | case2 index near isSet =>
    rw [and_one_eq_zero_iff, Bool.not_eq_false] at isSet
    rw [selectedFrom_of_lt (lt_of_selectedFrom left), if_pos isSet] at left
    obtain ⟨here, rest⟩ := List.cons.inj left
    exact ⟨index, rfl, List.getElem?_eq_some_iff.mpr ⟨_, here⟩, rest⟩
  | case3 index far => exact absurd ((lt_of_selectedFrom left).trans_le few) far

/-- The search ends at a bit that is set, if there is one from the index on. -/
theorem exists_nextSet {later : Nat} (ahead : index ≤ later) (isSet : bits.getLsbD later = true) :
    ∃ found, nextSet bits index = pure found ∧ bits.getLsbD found = true := by
  fun_induction nextSet bits index with
  | case1 index near clear ih =>
    have passed : index ≠ later := by
      rintro rfl
      rw [and_one_eq_zero_iff.mp clear] at isSet
      exact Bool.false_ne_true isSet
    exact ih (Nat.lt_of_le_of_ne ahead passed)
  | case2 index near here =>
    rw [and_one_eq_zero_iff, Bool.not_eq_false] at here
    exact ⟨index, rfl, here⟩
  | case3 index far =>
    rw [BitVec.getLsbD_of_ge bits later (by omega)] at isSet
    exact absurd isSet Bool.false_ne_true

theorem exceeds_eq {size : Nat} :
    exceeds bits size = pure (decide (1 <<< size ≤ bits.toNat)) := by
  rw [exceeds, Nat.one_shiftLeft]
  by_cases narrow : size < 32
  · have beyond : bits >>> size ≠ 0 ↔ 2 ^ size ≤ bits.toNat := by
      rw [← BitVec.toNat_inj.ne, BitVec.toNat_ushiftRight, Nat.shiftRight_eq_div_pow]
      simp [Nat.div_eq_zero_iff]
    rw [if_pos narrow, shiftRight_eq narrow, pure_bind, bne, beq_eq_decide, ← decide_not,
      decide_eq_decide.mpr beyond]
  · have low : bits.toNat < 2 ^ size :=
      bits.isLt.trans_le (Nat.pow_le_pow_right (by decide) (Nat.not_lt.mp narrow))
    rw [if_neg narrow, decide_eq_false (Nat.not_le.mpr low)]

theorem selectedBits_eq (few : keys.length ≤ 32) :
    selectedBits selector keys.length
      = of (fun _ => BitVec.ofNat 32 (ofLittleEndian selector))
        (Multisig.selected keys selector) := by
  rw [selectedBits, Multisig.selected]
  refine refuse_eq_of fun size => ?_
  obtain ⟨bits, joined, digits⟩ := joinFrom_zero 32 selector (by omega)
  have same : BitVec.ofNat 32 (ofLittleEndian selector) = bits := by
    rw [← digits, BitVec.ofNat_toNat, BitVec.setWidth_eq]
  rw [joined, pure_bind, exceeds_eq, pure_bind, digits]
  simp only [decide_eq_true_eq]
  exact refuse_eq_of fun _ => congrArg pure same.symm

theorem lt_of_selectedBits {size place : Nat} (done : selectedBits selector size = .ok bits)
    (isSet : bits.getLsbD place = true) : place < size := by
  obtain ⟨-, done⟩ := Outcome.refuse_eq_ok_iff.mp done
  obtain ⟨joined, -, done⟩ := Outcome.bind_eq_ok_iff.mp done
  rw [exceeds_eq, pure_bind] at done
  obtain ⟨inside, done⟩ := Outcome.refuse_eq_ok_iff.mp done
  cases Outcome.pure_eq_ok_iff.mp done
  rw [decide_eq_true_eq, Nat.one_shiftLeft, Nat.not_le] at inside
  exact (Nat.pow_lt_pow_iff_right (by decide)).mp
    ((Nat.ge_two_pow_of_testBit isSet).trans_lt inside)

/-- The keys that a selector names are those at its bits, one for each bit. -/
theorem selectedFrom_zero (few : keys.length ≤ 32)
    (named : Multisig.selected keys selector = .ok chosen) :
    selectedFrom (BitVec.ofNat 32 (ofLittleEndian selector)) keys 0 = chosen ∧
      bitCount (BitVec.ofNat 32 (ofLittleEndian selector)) = chosen.length := by
  obtain ⟨-, named⟩ := Outcome.refuse_eq_ok_iff.mp named
  obtain ⟨inside, named⟩ := Outcome.refuse_eq_ok_iff.mp named
  cases Outcome.pure_eq_ok_iff.mp named
  rw [Nat.not_le, Nat.one_shiftLeft] at inside
  have small : ofLittleEndian selector < 2 ^ 32 :=
    inside.trans_le (Nat.pow_le_pow_right (by decide) few)
  have bit : (BitVec.ofNat 32 (ofLittleEndian selector)).getLsbD
      = (ofLittleEndian selector).testBit := by
    funext i
    rw [BitVec.getLsbD, BitVec.toNat_ofNat, Nat.mod_eq_of_lt small]
  have numbered : List.range keys.length = keys.zipIdx.map Prod.snd := by
    rw [List.zipIdx_map_snd, List.range_eq_range']
  refine ⟨by rw [selectedFrom, bit, List.drop_zero], ?_⟩
  rw [bitCount, bit, List.countP_eq_length_filter, ← Multisig.bitIndices_eq_filter small,
    Multisig.bitIndices_eq_filter inside, numbered, List.filter_map, List.length_map,
    List.length_map]
  rfl

end Selected

/-! ## Checking -/

section Checking

variable [Primitives]

/-- Checks each signature with the key selected for it, and counts the checks. -/
def checkSelected (spend : Spend) (code : Bytes) (flags : ScriptFlags) (bits : BitVec 32)
    (keys : List Bytes) (index checks : Nat) : List Bytes → Attempt Nat
  | [] => return checks
  | signature :: signatures => do
    let index ← nextSet bits index
    let key ← item keys index
    of id (checkSchnorrSignature signature flags)
    checkKey key flags
    if ← checkSignature spend signature key code flags then
      checkSelected spend code flags bits keys (index + 1) (← unsigned 32 (checks + 1)) signatures
    else refuse .sigNullFail

/-- Tries the keys from an index on, each with the first signature not matched yet. Keys that
run out are a fault, and only counting those that are left prevents it. -/
def matchFrom (spend : Spend) (code : Bytes) (flags : ScriptFlags) (keys signatures : List Bytes)
    (keyIndex signatureIndex : Nat) : Attempt Bool :=
  if signatureIndex < signatures.length then
    if inside : keyIndex < keys.length then do
      let signature ← item signatures signatureIndex
      let key := keys[keyIndex]
      checkEcdsaSignature signature flags
      checkKey key flags
      let covered ← checkSignature spend signature key code flags
      let matched := if covered then signatureIndex + 1 else signatureIndex
      let unmatched ← minus signatures.length matched
      let left ← minus keys.length (keyIndex + 1)
      if left < unmatched then return false
      else matchFrom spend code flags keys signatures (keyIndex + 1) matched
    else fault .outOfRange
  else return true
termination_by keys.length - keyIndex

/-- Whether the check succeeds, and how many signature checks it counts for. -/
def checkOperands (spend : Spend) (code : Bytes) (flags : ScriptFlags) (operands : Operands) :
    Attempt (Bool × Nat) :=
  let ⟨keys, signatures, selector, _⟩ := operands
  if flags.schnorrMultisig && !selector.isEmpty then do
    let bits ← selectedBits selector keys.length
    if bitCount bits ≠ signatures.length then refuse .invalidBitCount
    else do return (true, ← checkSelected spend code flags bits keys 0 0 signatures)
  else if flags.nullDummy && !selector.isEmpty then refuse .sigNullDummy
  else do
    let success ← matchFrom spend code flags keys signatures 0 0
    let signed := signatures.any (!·.isEmpty)
    let checks ← unsigned 32 (if signed then keys.length else 0)
    if !success && flags.nullFail && signed then refuse .sigNullFail else return (success, checks)

/-- CHECKMULTISIG: whether it succeeds, how many signature checks it counts for, the stack it
leaves and the count of operations. -/
def checkMultisig (minimal : Bool) (performed : Nat) (stack : List Bytes) (code : Bytes)
    (flags : ScriptFlags) (spend : Spend) : Attempt (Bool × Nat × List Bytes × Nat) := do
  let (operands, operations) ← operands minimal performed stack
  let (success, checks) ← checkOperands spend code flags operands
  return (success, checks, ← truncate stack operands.depth, operations)

variable {spend : Spend} {code : Bytes} {flags : ScriptFlags} {keys signatures chosen : List Bytes}
  {index checks : Nat}

theorem checkSelected_eq {bits : BitVec 32} (few : keys.length ≤ 32)
    (named : selectedFrom bits keys index = chosen) (paired : chosen.length = signatures.length)
    (room : checks + signatures.length < 2 ^ 32) :
    checkSelected spend code flags bits keys index checks signatures
      = of (fun _ => checks + signatures.length)
        (Multisig.checkPairs spend code flags (signatures.zip chosen)) := by
  induction signatures generalizing chosen index checks with
  | nil => rfl
  | cons signature signatures ih =>
    cases chosen with
    | nil => exact absurd paired (by simp)
    | cons key chosen =>
      obtain ⟨found, searched, there, rest⟩ := nextSet_eq few named
      rw [List.length_cons] at room
      have counted : checks + 1 < 2 ^ 32 := by omega
      simp only [checkSelected, searched, pure_bind, item_eq there, checkKey_eq, checkSignature_eq,
        List.zip_cons_cons, Multisig.checkPairs, of_bind, unsigned_eq counted]
      refine bind_congr fun _ => bind_congr fun _ => bind_congr fun covered => ?_
      cases covered with
      | false => rfl
      | true =>
        have more : checks + 1 + signatures.length < 2 ^ 32 := by omega
        have again := ih rest (Nat.succ.inj paired) more
        simp only [if_true, again]
        rw [List.length_cons, Nat.add_assoc, Nat.add_comm 1]

theorem matchFrom_eq {keyIndex signatureIndex : Nat} (tried : keyIndex ≤ keys.length)
    (matched : signatureIndex ≤ signatures.length)
    (enough : signatures.length - signatureIndex ≤ keys.length - keyIndex) :
    matchFrom spend code flags keys signatures keyIndex signatureIndex
      = of id (Multisig.matchInOrder spend code flags (keys.drop keyIndex)
          (signatures.drop signatureIndex)) := by
  fun_induction matchFrom spend code flags keys signatures keyIndex signatureIndex with
  | case1 keyIndex signatureIndex left inside ih =>
    simp only [item_eq (List.getElem?_eq_getElem left), pure_bind, checkEcdsaSignature_eq,
      checkKey_eq, checkSignature_eq, List.drop_eq_getElem_cons inside,
      List.drop_eq_getElem_cons left, Multisig.matchInOrder, of_bind]
    refine bind_congr fun _ => bind_congr fun _ => bind_congr fun covered => ?_
    have unmatched : (if covered then signatures.drop (signatureIndex + 1)
        else signatures[signatureIndex] :: signatures.drop (signatureIndex + 1))
          = signatures.drop (if covered then signatureIndex + 1 else signatureIndex) := by
      rw [← List.drop_eq_getElem_cons left]
      exact (apply_ite signatures.drop _ _ _).symm
    have bound : (if covered then signatureIndex + 1 else signatureIndex) ≤ signatures.length := by
      split <;> omega
    simp only [id_eq, unmatched, List.length_drop, minus_eq bound,
      minus_eq (Nat.succ_le_of_lt inside), pure_bind, of_ite, of_pure]
    by_cases few : keys.length - (keyIndex + 1)
        < signatures.length - (if covered then signatureIndex + 1 else signatureIndex)
    · rw [if_pos few, if_pos few]
    · rw [if_neg few, if_neg few]
      exact ih covered inside bound (Nat.not_lt.mp few)
  | case2 keyIndex signatureIndex left outside =>
    -- As many keys are left as signatures, so the keys do not run out.
    omega
  | case3 keyIndex signatureIndex none =>
    rw [List.drop_of_length_le (Nat.not_lt.mp none)]
    cases keys.drop keyIndex <;> rfl

/-- With no more signatures than keys, the keys do not run out. -/
theorem not_faults_matchFrom (fewer : signatures.length ≤ keys.length) :
    ¬ (matchFrom spend code flags keys signatures 0 0).Faults := by
  rw [matchFrom_eq (Nat.zero_le _) (Nat.zero_le _) fewer]
  exact not_faults_of

/-- With as many bits as signatures, neither the bits nor the keys run out. -/
theorem not_faults_checkSelected {bits : BitVec 32} {selector : Bytes} (few : keys.length ≤ 32)
    (read : selectedBits selector keys.length = .ok bits)
    (counted : bitCount bits = signatures.length) :
    ¬ (checkSelected spend code flags bits keys 0 0 signatures).Faults := by
  have short : signatures.length ≤ 32 := counted ▸ bitCount_le
  rw [selectedBits_eq few] at read
  cases named : Multisig.selected keys selector with
  | error cause =>
    rw [named] at read
    cases read
  | ok chosen =>
    rw [named] at read
    cases read
    obtain ⟨found, count⟩ := selectedFrom_zero few named
    have room : 0 + signatures.length < 2 ^ 32 := by omega
    rw [checkSelected_eq few found (count.symm.trans counted) room]
    exact not_faults_of

theorem checkOperands_eq {multisig : Multisig} {depth : Nat}
    (few : multisig.keys.length ≤ maxMultisigKeys)
    (fewer : multisig.signatures.length ≤ multisig.keys.length) :
    checkOperands spend code flags ⟨multisig.keys, multisig.signatures, multisig.selector, depth⟩
      = of id (multisig.check spend code flags) := by
  obtain ⟨keys, signatures, selector, left⟩ := multisig
  dsimp only at few fewer
  have narrow : keys.length ≤ 32 := few.trans (by decide)
  rw [checkOperands, Multisig.check]
  dsimp only
  cases selecting : flags.schnorrMultisig && !selector.isEmpty with
  | true =>
    rw [if_pos rfl, if_pos rfl, selectedBits_eq narrow]
    refine bind_eq_of fun chosen named => ?_
    obtain ⟨found, count⟩ := selectedFrom_zero narrow named
    rw [count]
    refine refuse_eq_of fun same => ?_
    have room : 0 + signatures.length < 2 ^ 32 := by omega
    rw [checkSelected_eq narrow found (not_not.mp same) room, Nat.zero_add]
    exact bind_eq_of fun _ _ => rfl
  | false =>
    rw [if_neg Bool.false_ne_true, if_neg Bool.false_ne_true]
    refine refuse_eq_of fun _ => ?_
    have room : (if signatures.any (!·.isEmpty) then keys.length else 0) < 2 ^ 32 := by
      split <;> omega
    have tried : matchFrom spend code flags keys signatures 0 0
        = of id (Multisig.matchInOrder spend code flags keys signatures) :=
      matchFrom_eq (Nat.zero_le _) (Nat.zero_le _) fewer
    rw [tried]
    refine bind_id_eq_of fun success _ => ?_
    rw [unsigned_eq room, pure_bind]
    exact refuse_eq_of fun _ => rfl

theorem checkMultisig_eq {minimal : Bool} {performed : Nat} {s : Stack} :
    checkMultisig minimal performed s.reverse code flags spend
      = of id (do
          let (multisig, operations) ← Multisig.ofStack minimal performed s
          let (success, checks) ← multisig.check spend code flags
          return (success, checks, multisig.below.reverse, operations)) := by
  rw [checkMultisig, operands_eq]
  refine bind_eq_of ?_
  rintro ⟨multisig, operations⟩ taken
  obtain ⟨-, -, -, -, -, fewer, -, -⟩ := Multisig.stack_of_ofStack taken
  dsimp only
  rw [checkOperands_eq (length_keys_le taken) fewer, truncate_of_ofStack taken]
  exact bind_eq_of fun _ _ => rfl

end Checking

end ScryptLedger.Script.Positional
