import ScryptLedger.Proofs.Outcome
import ScryptLedger.Script.Verify

/-!
# Scripts under weaker rules

A set of flags relaxes another one when it asks for less: it drops checks, but
gives the same meaning to every operation. Reserved no-operations do nothing
under it, so an operation that has joined the language is at most a check. Each
part of the interpreter that succeeds under the stricter flags then succeeds
under the weaker ones, with the same outcome. The flags that choose a meaning
(which digest a signature covers, how signatures are matched to keys, whether a
hash stands for a script, which language is spoken) have to agree.
-/

namespace ScryptLedger

open Outcome (Implies)

/-- Whether a set of flags drops checks of a stricter one and changes nothing else. -/
structure ScriptFlags.Relaxes (weak strict : ScriptFlags) : Prop where
  p2sh : weak.p2sh = strict.p2sh
  sighashForkId : weak.sighashForkId = strict.sighashForkId
  schnorrMultisig : weak.schnorrMultisig = strict.schnorrMultisig
  legacyRules : weak.legacyRules = strict.legacyRules
  strictEncoding : weak.strictEncoding → strict.strictEncoding
  strictDer : weak.strictDer → strict.strictDer
  lowS : weak.lowS → strict.lowS
  nullDummy : weak.nullDummy → strict.nullDummy
  sigPushOnly : weak.sigPushOnly → strict.sigPushOnly
  minimalData : weak.minimalData → strict.minimalData
  cleanStack : weak.cleanStack → strict.cleanStack
  checkLockTime : weak.checkLockTime → strict.checkLockTime
  checkSequence : weak.checkSequence → strict.checkSequence
  minimalIf : weak.minimalIf → strict.minimalIf
  nullFail : weak.nullFail → strict.nullFail
  enforceSigChecks : weak.enforceSigChecks → strict.enforceSigChecks
  reservedDoNothing : weak.discourageUpgradableNops = false

namespace Script

variable {weak strict : ScriptFlags}

/-! ## Numbers and the stack -/

theorem decode_implies {weak strict : Bool} (asked : weak → strict) (bytes : Bytes)
    (maxLength : Nat) :
    Implies (ScriptNumber.decode bytes strict maxLength)
      (ScriptNumber.decode bytes weak maxLength) := by
  unfold ScriptNumber.decode
  exact .refuse id (.asked asked (.refl _))

theorem operand_implies {weak strict : Bool} (asked : weak → strict) (element : Bytes) :
    Implies (operand strict element) (operand weak element) :=
  decode_implies asked element maxNumberSize

/-- Only operations that read integers look at how these are encoded. -/
theorem StackOp.apply_implies [Primitives] {weak strict : Bool} (asked : weak → strict)
    (op : StackOp) (stack : Stack) :
    Implies (op.apply strict stack) (op.apply weak stack) := by
  have read := operand_implies asked
  cases op with
  | number | shuffle | depth => exact .refl _
  | verify | ifDup | toNumber | size | reverse | hash => cases stack <;> exact .refl _
  | cat | bitwise | equal | equalVerify =>
    rcases stack with _ | ⟨b, _ | ⟨a, stack⟩⟩ <;> exact .refl _
  | pick | roll | unary f =>
    rcases stack with _ | ⟨a, stack⟩
    · exact .refl _
    · exact .bind (read a) fun n => .refl _
  | split | toBinary =>
    rcases stack with _ | ⟨n, _ | ⟨a, stack⟩⟩
    · exact .refl _
    · exact .refl _
    · exact .bind (read n) fun n => .refl _
  | binary f | numEqualVerify =>
    rcases stack with _ | ⟨b, _ | ⟨a, stack⟩⟩
    · exact .refl _
    · exact .refl _
    · exact .bind (read b) fun b => .bind (read a) fun a => .refl _
  | within =>
    rcases stack with _ | ⟨max, _ | ⟨min, _ | ⟨a, stack⟩⟩⟩
    · exact .refl _
    · exact .refl _
    · exact .refl _
    · exact .bind (read max) fun max => .bind (read min) fun min => .bind (read a) fun a => .refl _

/-! ## Signatures and keys -/

section Encodings

variable (relaxed : weak.Relaxes strict)

include relaxed

theorem checkRawSignature_implies (signature : Bytes) :
    Implies (checkRawSignature signature strict) (checkRawSignature signature weak) := by
  unfold checkRawSignature
  refine .ite (.refl _) (.asked ?_ (.asked relaxed.lowS (.refl _)))
  simp only [Bool.or_eq_true]
  exact .imp (.imp relaxed.strictDer relaxed.lowS) relaxed.strictEncoding

/-- Where hash types are not looked at, each passes. -/
theorem checkHashType_implies (signature : Bytes) :
    Implies (checkHashType signature strict) (checkHashType signature weak) := by
  intro value done
  by_cases asked : weak.strictEncoding
  · simp only [checkHashType, relaxed.strictEncoding asked, asked, relaxed.sighashForkId] at done ⊢
    exact done
  · simp [checkHashType, asked, pure, Except.pure]

theorem checkTransactionSignature_implies (signature : Bytes) :
    Implies (checkTransactionSignature signature strict)
      (checkTransactionSignature signature weak) :=
  .ite (.refl _) (.bind (checkRawSignature_implies relaxed _) fun _ =>
    checkHashType_implies relaxed signature)

theorem checkEcdsaSignature_implies (signature : Bytes) :
    Implies (checkEcdsaSignature signature strict) (checkEcdsaSignature signature weak) :=
  .refuse id (checkTransactionSignature_implies relaxed signature)

theorem checkSchnorrSignature_implies (signature : Bytes) :
    Implies (checkSchnorrSignature signature strict) (checkSchnorrSignature signature weak) :=
  .refuse id (checkHashType_implies relaxed signature)

theorem checkDataSignature_implies (signature : Bytes) :
    Implies (checkDataSignature signature strict) (checkDataSignature signature weak) :=
  .ite (.refl _) (checkRawSignature_implies relaxed signature)

theorem checkKey_implies (key : Bytes) : Implies (checkKey key strict) (checkKey key weak) :=
  .asked relaxed.strictEncoding (.refl _)

/-- A failed check that comes with a signature is refused by no more flags. -/
theorem nullFail_implies (success : Bool) :
    (!success && weak.nullFail) → (!success && strict.nullFail) := by
  simp only [Bool.and_eq_true]
  exact And.imp_right relaxed.nullFail

/-- What a signature covers, and whether it does, are decided by the flags that agree. -/
theorem checkSignature_eq [Primitives] (spend : Spend) (signature key code : Bytes) :
    spend.checkSignature signature key code weak
      = spend.checkSignature signature key code strict := by
  simp only [Spend.checkSignature, Spend.digest, relaxed.legacyRules, relaxed.sighashForkId]

end Encodings

/-! ## Several signatures at once -/

namespace Multisig

theorem ofStack_implies {weak strict : Bool} (asked : weak → strict) (performed : Nat)
    (stack : Stack) :
    Implies (ofStack strict performed stack) (ofStack weak performed stack) := by
  have read := operand_implies asked
  cases stack with
  | nil => exact .refl _
  | cons keyCount rest =>
    refine .bind (read keyCount) fun keyCount => .refuse id (.refuse id ?_)
    cases rest.drop keyCount.toNat with
    | nil => exact .refl _
    | cons signatureCount belowCount =>
      exact .bind (read signatureCount) fun signatureCount => .refl _

variable [Primitives] (relaxed : weak.Relaxes strict) (spend : Spend) (code : Bytes)

include relaxed

theorem checkPairs_implies (pairs : List (Bytes × Bytes)) :
    Implies (checkPairs spend code strict pairs) (checkPairs spend code weak pairs) := by
  induction pairs with
  | nil => exact .refl _
  | cons pair rest ih =>
    obtain ⟨signature, key⟩ := pair
    refine .bind (checkSchnorrSignature_implies relaxed signature) fun _ =>
      .bind (checkKey_implies relaxed key) fun _ => ?_
    rw [checkSignature_eq relaxed]
    exact .bind (.refl _) fun covered => .ite ih (.refl _)

theorem matchInOrder_implies (keys signatures : List Bytes) :
    Implies (matchInOrder spend code strict keys signatures)
      (matchInOrder spend code weak keys signatures) := by
  induction keys generalizing signatures with
  | nil => cases signatures <;> exact .refl _
  | cons key keys ih =>
    cases signatures with
    | nil => exact .refl _
    | cons signature signatures =>
      refine .bind (checkEcdsaSignature_implies relaxed signature) fun _ =>
        .bind (checkKey_implies relaxed key) fun _ => ?_
      rw [checkSignature_eq relaxed]
      exact .bind (.refl _) fun covered => .ite (.refl _) (ih _)

theorem check_implies (multisig : Multisig) :
    Implies (multisig.check spend code strict) (multisig.check spend code weak) := by
  obtain ⟨keys, signatures, selector, below⟩ := multisig
  simp only [check, relaxed.schnorrMultisig]
  refine .ite (.bind (.refl _) fun keys => .refuse id (.bind ?_ fun _ => .refl _))
    (.asked relaxed.nullDummy (.bind ?_ fun success =>
      .asked (nullFail_implies relaxed success) (.refl _)))
  · exact checkPairs_implies relaxed spend code _
  · exact matchInOrder_implies relaxed spend code keys signatures

end Multisig

/-! ## Running a script -/

namespace Machine

variable (relaxed : weak.Relaxes strict)

include relaxed

theorem openBranch_implies (m : Machine) (negated : Bool) :
    Implies (m.openBranch negated strict) (m.openBranch negated weak) := by
  refine .ite ?_ (.refl _)
  cases m.stack with
  | nil => exact .refl _
  | cons condition stack => exact .asked relaxed.minimalIf (.refl _)

theorem reserved_eq (m : Machine) : m.reserved weak = .ok m := by
  simp [reserved, relaxed.reservedDoNothing, pure, Except.pure]

theorem reserved_implies (m : Machine) : Implies (m.reserved strict) (m.reserved weak) := by
  rw [reserved_eq relaxed]
  intro next done
  obtain ⟨-, done⟩ := Outcome.refuse_eq_ok_iff.mp done
  exact done

theorem lockTime_implies (m : Machine) : Implies (m.lockTime strict) (m.lockTime weak) := by
  unfold lockTime
  cases m.stack with
  | nil => exact .refl _
  | cons top stack => exact .bind (decode_implies relaxed.minimalData top 5) fun n => .refl _

/-- A lock time that only the stricter flags check changes nothing where it passes. -/
theorem implies_reserved {Value : Type} {m : Machine} {outcome : Except ScriptError Value}
    {passes : Value → Prop} [DecidablePred passes] {cause : ScriptError} :
    Implies (outcome >>= fun value => if passes value then return m else throw cause)
      (m.reserved weak) := by
  rw [reserved_eq relaxed]
  intro next done
  obtain ⟨value, -, done⟩ := Outcome.bind_eq_ok_iff.mp done
  by_cases holds : passes value
  · rwa [if_pos holds] at done
  · rw [if_neg holds] at done
    exact absurd done Outcome.throw_ne_ok

/-- An operation that asks for a lock time, where it has joined the language. -/
theorem joined_implies {Value : Type} {m : Machine} {outcome outcome' : Except ScriptError Value}
    {passes : Value → Prop} [DecidablePred passes] {cause : ScriptError} {joined joined' : Bool}
    (asked : joined' → joined) (read : Implies outcome outcome') :
    Implies
      (if joined then outcome >>= fun value => if passes value then return m else throw cause
        else m.reserved strict)
      (if joined' then outcome' >>= fun value => if passes value then return m else throw cause
        else m.reserved weak) := by
  by_cases now : joined'
  · rw [if_pos now, if_pos (asked now)]
    exact .bind read fun value => .refl _
  · rw [if_neg now]
    by_cases before : joined
    · rw [if_pos before]
      exact implies_reserved relaxed
    · rw [if_neg before]
      exact reserved_implies relaxed m

section Checks

variable [Primitives] (m : Machine) (verify : Bool) (spend : Spend)

theorem checkSig_implies :
    Implies (m.checkSig verify strict spend) (m.checkSig verify weak spend) := by
  unfold checkSig
  rcases m.stack with _ | ⟨key, _ | ⟨signature, stack⟩⟩
  · exact .refl _
  · exact .refl _
  refine .bind (checkTransactionSignature_implies relaxed signature) fun _ =>
    .bind (checkKey_implies relaxed key) fun _ => ?_
  rw [checkSignature_eq relaxed]
  exact .bind (.refl _) fun success => .asked (nullFail_implies relaxed success) (.refl _)

theorem checkDataSig_implies :
    Implies (m.checkDataSig verify strict) (m.checkDataSig verify weak) := by
  unfold checkDataSig
  rcases m.stack with _ | ⟨key, _ | ⟨message, _ | ⟨signature, stack⟩⟩⟩
  · exact .refl _
  · exact .refl _
  · exact .refl _
  exact .bind (checkDataSignature_implies relaxed signature) fun _ =>
    .bind (checkKey_implies relaxed key) fun _ => .asked (nullFail_implies relaxed _) (.refl _)

theorem checkMultisig_implies :
    Implies (m.checkMultisig verify strict spend) (m.checkMultisig verify weak spend) :=
  .bind (Multisig.ofStack_implies relaxed.minimalData _ _) fun (multisig, _) =>
    .bind (Multisig.check_implies relaxed spend m.code multisig) fun _ => .refl _

end Checks

variable [Primitives] (spend : Spend)

theorem perform_implies (m : Machine) (operation : Operation) (following : Bytes) :
    Implies (m.perform operation following strict spend)
      (m.perform operation following weak spend) := by
  cases operation with
  | ifTrue negated => exact openBranch_implies relaxed m negated
  | stack op =>
    exact .bind (StackOp.apply_implies relaxed.minimalData op m.stack) fun stack => .refl _
  | reservedNop => exact reserved_implies relaxed m
  | checkLockTime =>
    exact joined_implies relaxed relaxed.checkLockTime (lockTime_implies relaxed m)
  | checkSequence =>
    exact joined_implies relaxed relaxed.checkSequence (lockTime_implies relaxed m)
  | checkSig verify => exact checkSig_implies relaxed m verify spend
  | checkDataSig verify => exact checkDataSig_implies relaxed m verify
  | checkMultisig verify => exact checkMultisig_implies relaxed m verify spend
  | otherwise | endIf | toAlt | fromAlt | nop | fail | codeSeparator => exact .refl _

theorem execute_implies (m : Machine) (located : Located) :
    Implies (m.execute located strict spend) (m.execute located weak spend) := by
  obtain ⟨⟨opcode, data⟩, following⟩ := located
  simp only [execute, relaxed.legacyRules]
  refine .ite (.asked relaxed.minimalData (.refl _)) (.ite (.refuse id ?_) (.refl _))
  cases Operation.ofByte? opcode with
  | none => exact .refl _
  | some operation => exact perform_implies relaxed spend m operation following

theorem step_implies (m : Machine) (located : Located) :
    Implies (m.step strict spend located) (m.step weak spend located) := by
  simp only [step, Opcode.isDisabled, relaxed.legacyRules]
  exact .refuse id (.refuse id (.refuse id (.bind (execute_implies relaxed spend _ located)
    fun next => .refl _)))

end Machine

section Run

variable [Primitives] (relaxed : weak.Relaxes strict) (spend : Spend)

include relaxed

theorem run_implies (m : Machine) (instructions : List Located) :
    Implies (run strict spend m instructions) (run weak spend m instructions) := by
  induction instructions generalizing m with
  | nil => exact .refl _
  | cons located rest ih =>
    simp only [run, List.foldlM_cons]
    exact .bind (Machine.step_implies relaxed spend m located) ih

theorem eval_implies (script : Bytes) (stack : Stack) :
    Implies (eval script stack strict spend) (eval script stack weak spend) :=
  .refuse id (.bind (run_implies relaxed spend _ _) fun _ => .refl _)

theorem redeem_implies (scriptSig : Bytes) (stack : Stack) :
    Implies (redeem scriptSig stack strict spend) (redeem scriptSig stack weak spend) := by
  refine .refuse id ?_
  cases stack with
  | nil => exact .refl _
  | cons script stack => exact .bind (eval_implies relaxed spend script stack) fun _ => .refl _

/-- A spend that the stricter flags allow is allowed, and counts for the same checks. -/
theorem verify_implies (scriptSig scriptPubKey : Bytes) :
    Implies (verify scriptSig scriptPubKey strict spend)
      (verify scriptSig scriptPubKey weak spend) := by
  simp only [verify, relaxed.p2sh]
  refine .asked relaxed.sigPushOnly (.bind (eval_implies relaxed spend scriptSig [])
    fun (pushed, _) => .bind (eval_implies relaxed spend scriptPubKey pushed) fun _ =>
      .bind (.refl _) fun _ => .ite (.bind ?_ fun _ => ?_) ?_)
  · exact redeem_implies relaxed spend scriptSig pushed
  · exact .asked relaxed.cleanStack (.refl _)
  · exact .asked relaxed.cleanStack (.refl _)

end Run

end Script

end ScryptLedger
