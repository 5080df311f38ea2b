import ScryptLedger.Proofs.Script.Positional.Number
import ScryptLedger.Proofs.Script.Positional.Reader
import ScryptLedger.Script.Signature

/-!
# Signatures and keys by position

The encoding of a signature is checked at fixed offsets and at offsets that the
signature itself tells. Each offset is reached only after the checks that leave
it inside.
-/

namespace ScryptLedger.Script.Positional

open Attempt

/-! ## Encodings -/

/-- Whether an integer of a given length, behind its tag and that length, is in minimal form. -/
def isIntegerAt (signature : Bytes) (tag length : Nat) : Attempt Bool :=
  (do return (← item signature tag) == 0x02) <&&> pure (length != 0)
    <&&> (do return (← item signature (tag + 2)) &&& 0x80 == 0)
    <&&> notM (pure (decide (1 < length))
      <&&> (do return (← item signature (tag + 2)) == 0)
      <&&> (do return (← item signature (tag + 3)) &&& 0x80 == 0))

/-- Whether the two integers of a signature, the first of a given length, are all of it and in
minimal form. -/
def areIntegers (signature : Bytes) (lengthR : Nat) : Attempt Bool := do
  let lengthS := (← item signature (5 + lengthR)).toNat
  pure (lengthR + lengthS + 6 == signature.length)
    <&&> isIntegerAt signature 2 lengthR
    <&&> isIntegerAt signature (lengthR + 4) lengthS

/-- Whether a signature, without its hash type, is strict DER. -/
def isStrictDer (signature : Bytes) : Attempt Bool :=
  pure (decide (8 ≤ signature.length ∧ signature.length ≤ 72))
    <&&> (do return (← item signature 0) == 0x30)
    <&&> (do return (← item signature 1).toNat == (← minus signature.length 2))
    <&&> do
      let lengthR := (← item signature 3).toNat
      pure (decide (5 + lengthR < signature.length)) <&&> areIntegers signature lengthR

section Encodings

theorem pure_andM {first : Bool} {second : Attempt Bool} :
    (pure first <&&> second) = if first then second else pure false := by
  cases first <;> rfl

theorem andM_pure {first second : Bool} :
    (pure first <&&> pure second : Attempt Bool) = pure (first && second) := by
  cases first <;> rfl

theorem notM_pure {value : Bool} : notM (pure value : Attempt Bool) = pure (!value) := rfl

theorem and_0x80_beq_zero (b : UInt8) : (b &&& 0x80 == 0) = decide (b < 0x80) := by
  rw [beq_eq_decide]
  exact decide_eq_decide.mpr (and_0x80_eq_zero_iff b)

/-- Where an integer has the length that is told, its form is what is checked. -/
theorem isIntegerAt_eq {signature : Bytes} (before : Bytes) {value after : Bytes}
    {tag length : UInt8}
    (layout : before ++ tag :: length :: (value ++ after) = signature) :
    isIntegerAt signature before.length value.length
      = pure (tag == 0x02 && isMinimalPositive value) := by
  have head : item signature before.length = pure tag := item_eq (by simp [← layout])
  rw [isIntegerAt, head, pure_bind]
  match value with
  | [] => cases tag == 0x02 <;> rfl
  | [b] =>
    have first : item signature (before.length + 2) = pure b := item_eq (by simp [← layout])
    rw [first, pure_bind, isMinimalPositive, and_0x80_beq_zero]
    cases tag == 0x02 <;> cases decide (b < 0x80) <;> rfl
  | b :: next :: rest =>
    have first : item signature (before.length + 2) = pure b := item_eq (by simp [← layout])
    have second : item signature (before.length + 3) = pure next := item_eq (by simp [← layout])
    have several : decide (1 < (b :: next :: rest).length) = true := by simp
    have nonempty : ((b :: next :: rest).length != 0) = true := by simp
    have nonzero : (b != 0) = !(b == 0) := rfl
    have high : decide (0x80 ≤ next) = !decide (next < 0x80) := by
      rw [← decide_not]
      exact decide_eq_decide.mpr UInt8.not_lt.symm
    rw [first, second, pure_bind, pure_bind, pure_bind, isMinimalPositive, and_0x80_beq_zero,
      and_0x80_beq_zero, several, nonempty, high, nonzero]
    cases tag == 0x02 <;> cases decide (b < 0x80) <;> cases b == 0 <;>
      cases decide (next < 0x80) <;> rfl

theorem areIntegers_eq {signature r s : Bytes} {a length c lengthR tag lengthS : UInt8}
    (layout : a :: length :: c :: lengthR :: (r ++ tag :: lengthS :: s) = signature)
    (size : r.length = lengthR.toNat) :
    areIntegers signature lengthR.toNat = pure (s.length == lengthS.toNat
      && (c == 0x02 && isMinimalPositive r) && (tag == 0x02 && isMinimalPositive s)) := by
  have whole : signature.length = r.length + s.length + 6 := by
    simp [← layout, Nat.add_assoc]
  have found : item signature (5 + lengthR.toNat) = pure lengthS :=
    item_eq (by simp [← layout, ← size, Nat.add_comm 5])
  have filled : (lengthR.toNat + lengthS.toNat + 6 == signature.length)
      = (s.length == lengthS.toNat) := by
    rw [beq_eq_decide, beq_eq_decide]
    exact decide_eq_decide.mpr (by omega)
  have first : isIntegerAt signature 2 lengthR.toNat = pure (c == 0x02 && isMinimalPositive r) :=
    size ▸ isIntegerAt_eq [a, length] layout
  rw [areIntegers, found, pure_bind]
  dsimp only
  rw [filled, first]
  by_cases told : s.length = lengthS.toNat
  · have second : isIntegerAt signature (lengthR.toNat + 4) lengthS.toNat
        = pure (tag == 0x02 && isMinimalPositive s) := by
      rw [← size, ← told]
      have ended : (a :: length :: c :: lengthR :: r) ++ tag :: lengthS :: (s ++ [])
          = signature := by
        rw [List.append_nil, ← layout]
        rfl
      exact isIntegerAt_eq (a :: length :: c :: lengthR :: r) ended
    rw [second, beq_iff_eq.mpr told]
    cases c == 0x02 && isMinimalPositive r <;> rfl
  · rw [beq_false_of_ne told]
    rfl

/-- What is read as strict DER, up to the fields behind the first integer. -/
theorem isStrictDer_cons {a length c lengthR : UInt8} {rest : Bytes} :
    Script.isStrictDer (a :: length :: c :: lengthR :: rest) =
      (a == 0x30 && c == 0x02 && match rest.drop lengthR.toNat with
        | tag :: lengthS :: s => tag == 0x02 && 8 ≤ rest.length + 4 && rest.length + 4 ≤ 72
          && length.toNat + 2 == rest.length + 4
          && (rest.take lengthR.toNat).length == lengthR.toNat
          && s.length == lengthS.toNat && isMinimalPositive (rest.take lengthR.toNat)
          && isMinimalPositive s
        | _ => false) := by
  by_cases first : a = 0x30
  · by_cases third : c = 0x02
    · subst first third
      simp only [Script.isStrictDer]
      rcases rest.drop lengthR.toNat with _ | ⟨tag, _ | ⟨lengthS, s⟩⟩
      · rfl
      · simp
      · by_cases second : tag = 0x02
        · subst second
          rfl
        · simp [second]
    · simp [Script.isStrictDer, third]
  · simp [Script.isStrictDer, first]

theorem isStrictDer_of_length {signature : Bytes}
    (unsized : ¬ (8 ≤ signature.length ∧ signature.length ≤ 72)) :
    Script.isStrictDer signature = false := by
  have both : (decide (8 ≤ signature.length) && decide (signature.length ≤ 72)) = false := by
    rw [← Bool.decide_and]
    exact decide_eq_false unsized
  unfold Script.isStrictDer
  split
  · dsimp only
    split
    · rw [both]
      rfl
    · rfl
  · rfl

theorem isStrictDer_eq (signature : Bytes) :
    isStrictDer signature = pure (Script.isStrictDer signature) := by
  by_cases sized : 8 ≤ signature.length ∧ signature.length ≤ 72
  swap
  · rw [isStrictDer, pure_andM, if_neg (by simpa using sized), isStrictDer_of_length sized]
  match signature with
  | [] | [_] | [_, _] | [_, _, _] => exact absurd sized.1 (by simp)
  | a :: length :: c :: lengthR :: rest =>
    have byte0 : item (a :: length :: c :: lengthR :: rest) 0 = pure a := item_eq rfl
    have byte1 : item (a :: length :: c :: lengthR :: rest) 1 = pure length := item_eq rfl
    have byte3 : item (a :: length :: c :: lengthR :: rest) 3 = pure lengthR := item_eq rfl
    have whole : (a :: length :: c :: lengthR :: rest).length = rest.length + 4 := rfl
    rw [isStrictDer, isStrictDer_cons, byte0, byte1, byte3, whole, minus_eq (by omega)]
    rw [whole] at sized
    simp only [pure_bind, pure_andM, decide_eq_true sized, if_true]
    by_cases deep : lengthR.toNat + 1 < rest.length
    · obtain ⟨r, tag, lengthS, s, rfl, size⟩ :
          ∃ r tag lengthS s, rest = r ++ tag :: lengthS :: s ∧ r.length = lengthR.toNat := by
        refine ⟨rest.take lengthR.toNat, rest[lengthR.toNat], rest[lengthR.toNat + 1],
          rest.drop (lengthR.toNat + 2), ?_, List.length_take_of_le (by omega)⟩
        rw [← List.drop_eq_getElem_cons, ← List.drop_eq_getElem_cons, List.take_append_drop]
      have total : (r ++ tag :: lengthS :: s).length = r.length + s.length + 2 := by
        simp [Nat.add_assoc]
      rw [total] at sized
      have inside : decide (5 + lengthR.toNat < r.length + s.length + 2 + 4) = true :=
        decide_eq_true (by omega)
      have outer : (length.toNat == r.length + s.length + 2 + 4 - 2)
          = (length.toNat + 2 == r.length + s.length + 2 + 4) := by
        rw [beq_eq_decide, beq_eq_decide]
        exact decide_eq_decide.mpr (by omega)
      rw [areIntegers_eq rfl size, total, List.drop_left' size, List.take_left' size, inside, outer,
        decide_eq_true sized.1, decide_eq_true sized.2, size, beq_self_eq_true]
      cases a == 0x30 with
      | false => rfl
      | true =>
        cases length.toNat + 2 == lengthR.toNat + s.length + 2 + 4 with
        | false => simp
        | true =>
          simp only [if_true, Bool.true_and, Bool.and_true]
          exact congrArg pure (by ac_rfl)
    · have shallow : ¬ 5 + lengthR.toNat < rest.length + 4 := by omega
      have few : (rest.drop lengthR.toNat).length ≤ 1 := by
        rw [List.length_drop]
        omega
      rw [decide_eq_false shallow]
      match rest.drop lengthR.toNat, few with
      | [], _ | [_], _ => simp

end Encodings

/-- The rules for a signature without its hash type. -/
def checkRawSignature (signature : Bytes) (flags : ScriptFlags) : Attempt Unit :=
  if signature.length = schnorrSize then return
  else do
    let malformed ← pure (flags.strictDer || flags.lowS || flags.strictEncoding)
      <&&> notM (isStrictDer signature)
    if malformed then refuse .sigDer
    else if flags.lowS && !hasLowS signature then refuse .sigHighS
    else return

/-- The rules for a transaction signature. -/
def checkTransactionSignature (signature : Bytes) (flags : ScriptFlags) : Attempt Unit :=
  if signature.isEmpty then return
  else do
    checkRawSignature (← slice signature 0 (← minus signature.length 1)) flags
    of id (checkHashType signature flags)

/-- The rules for a signature that is matched to keys in order. -/
def checkEcdsaSignature (signature : Bytes) (flags : ScriptFlags) : Attempt Unit :=
  if signature.length = schnorrSize + 1 then refuse .sigBadLength
  else checkTransactionSignature signature flags

/-- The rules for a signature over data. -/
def checkDataSignature (signature : Bytes) (flags : ScriptFlags) : Attempt Unit :=
  if signature.isEmpty then return else checkRawSignature signature flags

/-- Whether a key has the compressed or the full form. -/
def isPlainKey (key : Bytes) : Attempt Bool :=
  if key.length = 33 then do
    let tag ← item key 0
    return tag == 0x02 || tag == 0x03
  else if key.length = 65 then do return (← item key 0) == 0x04
  else return false

/-- The rules for a key. -/
def checkKey (key : Bytes) (flags : ScriptFlags) : Attempt Unit := do
  if ← pure flags.strictEncoding <&&> notM (isPlainKey key) then refuse .pubkeyType else return

section Rules

variable (signature key : Bytes) (flags : ScriptFlags)

theorem checkRawSignature_eq :
    checkRawSignature signature flags = of id (Script.checkRawSignature signature flags) := by
  rw [checkRawSignature, Script.checkRawSignature, isStrictDer_eq, notM_pure, pure_andM]
  simp only [of_ite, of_pure, of_throw]
  by_cases schnorr : signature.length = schnorrSize
  · rw [if_pos schnorr, if_pos schnorr]
  · rw [if_neg schnorr, if_neg schnorr]
    cases flags.strictDer || flags.lowS || flags.strictEncoding <;> rfl

theorem checkTransactionSignature_eq :
    checkTransactionSignature signature flags
      = of id (Script.checkTransactionSignature signature flags) := by
  rw [checkTransactionSignature, Script.checkTransactionSignature, of_ite]
  cases empty : signature.isEmpty with
  | true => rfl
  | false =>
    have nonempty : 1 ≤ signature.length :=
      List.length_pos_iff.mpr (List.isEmpty_eq_false_iff.mp empty)
    rw [if_neg Bool.false_ne_true, if_neg Bool.false_ne_true, minus_eq nonempty, pure_bind,
      slice_eq (Nat.zero_le _) (Nat.sub_le _ _), pure_bind, List.drop_zero, ← List.dropLast_eq_take,
      checkRawSignature_eq, of_bind]

theorem checkEcdsaSignature_eq :
    checkEcdsaSignature signature flags = of id (Script.checkEcdsaSignature signature flags) := by
  rw [checkEcdsaSignature, Script.checkEcdsaSignature, of_ite, checkTransactionSignature_eq]
  rfl

theorem checkDataSignature_eq :
    checkDataSignature signature flags = of id (Script.checkDataSignature signature flags) := by
  rw [checkDataSignature, Script.checkDataSignature, of_ite, checkRawSignature_eq]
  rfl

theorem isPlainKey_eq : isPlainKey key = pure (Script.isPlainKey key) := by
  match key with
  | [] => rfl
  | tag :: body =>
    have head : item (tag :: body) 0 = pure tag := item_eq rfl
    rw [isPlainKey, head, List.length_cons, Script.isPlainKey]
    by_cases compressed : body.length = 32
    · simp [compressed]
    · by_cases full : body.length = 64
      · simp [full]
      · simp [compressed, full, beq_false_of_ne]

theorem checkKey_eq : checkKey key flags = of id (Script.checkKey key flags) := by
  rw [checkKey, Script.checkKey, isPlainKey_eq, notM_pure, pure_andM, of_ite]
  cases flags.strictEncoding <;> rfl

end Rules

end ScryptLedger.Script.Positional
