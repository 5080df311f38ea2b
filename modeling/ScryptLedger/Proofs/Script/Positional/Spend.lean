import ScryptLedger.Proofs.Script.Positional.Signature
import ScryptLedger.Script.Spend

/-!
# What a signature signs, by index

The older digest goes through the inputs and the outputs of a transaction by
index, and the replay-protected one looks up the output at the index of the
input. That index is any number: it is looked up only where it is known to be
inside.
-/

namespace ScryptLedger.Script.Positional

open Attempt Sighash

/-! ## Digests -/

/-- The bytes of an input in the older digest. Only the one that is signed has a script, and where
outputs are not covered, a sequence number. -/
def legacyInput (tx : Transaction) (index : Nat) (code : Bytes) (type : SighashType) (i : Nat) :
    Attempt Bytes := do
  let input ← item tx.inputs i
  let script := if i = index then code else []
  let sequence :=
    if i ≠ index ∧ (type.coversNone || type.coversSingle) then 0 else input.sequence
  return input.outpoint.encode ++ Wire.sizedBytes script ++ bytesOfWord sequence

/-- The bytes of an output in the older digest; where only one is covered, those before it are
blank. -/
def legacyOutput (tx : Transaction) (index : Nat) (type : SighashType) (i : Nat) : Attempt Bytes :=
  if type.coversSingle ∧ i ≠ index then return blankOutput.encode
  else do return (← item tx.outputs i).encode

variable [Primitives]

/-- The older digest. -/
def legacyDigest (tx : Transaction) (index : Nat) (code : Bytes) (type : SighashType) :
    Attempt Hash :=
  if tx.inputs.length ≤ index then return one
  else if type.coversSingle ∧ tx.outputs.length ≤ index then return one
  else do
    let code ← withoutSeparators code
    let signing := if type.anyoneCanPay then [index] else List.range tx.inputs.length
    let inputs ← signing.mapM (legacyInput tx index code type)
    let count :=
      if type.coversNone then 0 else if type.coversSingle then index + 1 else tx.outputs.length
    let outputs ← (List.range count).mapM (legacyOutput tx index type)
    return sha256d (bytesOfInt32 tx.version ++ Wire.compactSize signing.length ++ inputs.flatten
      ++ Wire.compactSize count ++ outputs.flatten ++ bytesOfWord tx.lockTime
      ++ bytesOfWord type.value)

/-- The hash of the outputs that the replay-protected digest covers. -/
def coveredOutputs (tx : Transaction) (index : Nat) (type : SighashType) (midstate : Midstate) :
    Attempt Hash :=
  if !type.coversSingle && !type.coversNone then return midstate.outputs
  else if type.coversSingle ∧ index < tx.outputs.length then do
    return sha256d (← item tx.outputs index).encode
  else return Digest.zero

/-- The replay-protected digest. -/
def forkIdDigest (tx : Transaction) (index : Nat) (code : Bytes) (type : SighashType)
    (amount : Int64) (midstate : Midstate) : Attempt Hash := do
  let outpoints := if type.anyoneCanPay then Digest.zero else midstate.outpoints
  let sequences :=
    if type.anyoneCanPay || type.coversSingle || type.coversNone then Digest.zero
    else midstate.sequences
  let outputs ← coveredOutputs tx index type midstate
  let input :=
    match tx.inputs[index]? with
    | some input =>
      input.outpoint.encode ++ Wire.sizedBytes code ++ bytesOfInt64 amount
        ++ bytesOfWord input.sequence
    | none => []
  return sha256d (bytesOfInt32 tx.version ++ outpoints.bytes ++ sequences.bytes ++ input
    ++ outputs.bytes ++ bytesOfWord tx.lockTime ++ bytesOfWord (type.value &&& 0xff))

/-- The digest a signature with a given hash type covers. -/
def digest (spend : Spend) (code : Bytes) (type : SighashType) (flags : ScriptFlags) :
    Attempt Hash :=
  if type.hasForkId && flags.sighashForkId then
    forkIdDigest spend.tx spend.index code type spend.amount spend.midstate
  else legacyDigest spend.tx spend.index code type

/-- Whether a signature with its hash type covers the spend. -/
def checkSignature (spend : Spend) (signature key code : Bytes) (flags : ScriptFlags) :
    Attempt Bool :=
  match signature.getLast? with
  | none => return false
  | some last =>
    let raw := signature.dropLast
    if flags.legacyRules && raw.length == schnorrSize then refuse .sigNullFail
    else do
      let type : SighashType := ⟨last.toUInt32⟩
      let covered ←
        if type.hasForkId && flags.sighashForkId then pure code
        else withoutSignature code signature
      return verifies raw key (← digest spend covered type flags)

section Digests

variable (tx : Transaction) (index : Nat) (code : Bytes) (type : SighashType)

/-- Each input as the older digest covers it. -/
def maskedInputs : List TxInput :=
  tx.inputs.mapIdx fun i input =>
    if i = index then { input with scriptSig := code }
    else
      { input with
        scriptSig := []
        sequence := if type.coversNone || type.coversSingle then 0 else input.sequence }

omit [Primitives] in
theorem legacyInput_eq {i : Nat} (inside : i < (maskedInputs tx index code type).length) :
    legacyInput tx index code type i = pure (maskedInputs tx index code type)[i].encode := by
  have within : i < tx.inputs.length := by rwa [maskedInputs, List.length_mapIdx] at inside
  rw [legacyInput, item_eq (List.getElem?_eq_getElem within), pure_bind]
  simp only [maskedInputs, List.getElem_mapIdx]
  by_cases own : i = index
  · simp [own, TxInput.encode]
  · simp [own, TxInput.encode]

omit [Primitives] in
theorem length_inputs_masked (inside : index < tx.inputs.length) :
    (if type.anyoneCanPay then [index] else List.range tx.inputs.length).length
      = (masked tx index code type).inputs.length := by
  simp only [masked, apply_ite List.length, List.length_take, List.length_drop, List.length_mapIdx,
    List.length_range, List.length_singleton, Nat.min_eq_left (Nat.sub_pos_of_lt inside)]

omit [Primitives] in
/-- The inputs that are covered, one by one. -/
theorem mapM_legacyInput (inside : index < tx.inputs.length) :
    (if type.anyoneCanPay then [index] else List.range tx.inputs.length).mapM
        (legacyInput tx index code type)
      = pure ((masked tx index code type).inputs.map TxInput.encode) := by
  have chosen : (masked tx index code type).inputs = if type.anyoneCanPay then
      ((maskedInputs tx index code type).drop index).take 1
    else maskedInputs tx index code type := rfl
  rw [chosen]
  have length : (maskedInputs tx index code type).length = tx.inputs.length := by
    rw [maskedInputs, List.length_mapIdx]
  cases type.anyoneCanPay with
  | true =>
    have own := legacyInput_eq tx index code type (length ▸ inside)
    rw [if_pos rfl, if_pos rfl, List.mapM_cons, own, List.drop_eq_getElem_cons (length ▸ inside)]
    rfl
  | false =>
    have all := mapM_range (maskedInputs tx index code type)
      fun i inside => legacyInput_eq tx index code type inside
    rwa [length] at all

omit [Primitives] in
theorem length_outputs_masked (paired : ¬ (type.coversSingle ∧ tx.outputs.length ≤ index)) :
    (masked tx index code type).outputs.length =
      if type.coversNone then 0 else if type.coversSingle then index + 1
      else tx.outputs.length := by
  simp only [masked, apply_ite List.length]
  cases single : type.coversSingle with
  | true =>
    have inside : index < tx.outputs.length := Nat.not_le.mp fun outside => paired ⟨single, outside⟩
    have own : 1 ≤ tx.outputs.length - index := by omega
    rw [List.length_append, List.length_replicate, List.length_take, List.length_drop,
      Nat.min_eq_left own]
    rfl
  | false => rfl

omit [Primitives] in
theorem legacyOutput_eq (paired : ¬ (type.coversSingle ∧ tx.outputs.length ≤ index)) {i : Nat}
    (inside : i < (masked tx index code type).outputs.length) :
    legacyOutput tx index type i = pure (masked tx index code type).outputs[i].encode := by
  have length := length_outputs_masked tx index code type paired
  cases none : type.coversNone with
  | true =>
    rw [none, if_pos rfl] at length
    omega
  | false =>
    cases single : type.coversSingle with
    | false =>
      have same : (masked tx index code type).outputs = tx.outputs := by
        simp only [masked, none, single]
        rfl
      have within : i < tx.outputs.length := same ▸ inside
      rw [legacyOutput, if_neg (by simp [single]), item_eq (List.getElem?_eq_getElem within)]
      simp only [same]
      rfl
    | true =>
      have within : index < tx.outputs.length :=
        Nat.not_le.mp fun outside => paired ⟨single, outside⟩
      have same : (masked tx index code type).outputs
          = List.replicate index blankOutput ++ [tx.outputs[index]] := by
        simp only [masked, none, single, List.drop_eq_getElem_cons within]
        rfl
      simp only [same]
      rw [none, single, if_neg Bool.false_ne_true, if_pos rfl] at length
      by_cases own : i = index
      · subst own
        rw [legacyOutput, if_neg (by simp), item_eq (List.getElem?_eq_getElem within)]
        simp
      · have before : i < index := by omega
        rw [legacyOutput, if_pos ⟨single, own⟩]
        simp [List.getElem_append_left, before]

omit [Primitives] in
/-- The outputs that are covered, one by one. -/
theorem mapM_legacyOutput (paired : ¬ (type.coversSingle ∧ tx.outputs.length ≤ index)) :
    (List.range (masked tx index code type).outputs.length).mapM (legacyOutput tx index type)
      = pure ((masked tx index code type).outputs.map TxOutput.encode) :=
  mapM_range _ fun _ inside => legacyOutput_eq tx index code type paired inside

theorem legacyDigest_eq :
    legacyDigest tx index code type = pure (Sighash.legacyDigest tx index code type) := by
  rw [legacyDigest, Sighash.legacyDigest, Sighash.hasSubject]
  by_cases outside : tx.inputs.length ≤ index
  · rw [if_pos outside, decide_eq_false (Nat.not_lt.mpr outside)]
    rfl
  by_cases unpaired : type.coversSingle ∧ tx.outputs.length ≤ index
  · rw [if_neg outside, if_pos unpaired, unpaired.1, decide_eq_false (Nat.not_lt.mpr unpaired.2)]
    simp
  have subject : (decide (index < tx.inputs.length)
      && (!type.coversSingle || decide (index < tx.outputs.length))) = true := by
    rw [decide_eq_true (Nat.not_le.mp outside)]
    simpa [imp_iff_not_or] using unpaired
  let covered := masked tx index (Script.withoutSeparators code) type
  have signing : (if type.anyoneCanPay then [index] else List.range tx.inputs.length).length
      = covered.inputs.length := length_inputs_masked tx index _ type (Nat.not_le.mp outside)
  rw [if_neg outside, if_neg unpaired, withoutSeparators_eq, pure_bind, subject, if_pos rfl]
  dsimp only
  rw [mapM_legacyInput tx index _ type (Nat.not_le.mp outside), pure_bind, signing,
    ← length_outputs_masked tx index (Script.withoutSeparators code) type unpaired,
    mapM_legacyOutput tx index _ type unpaired, pure_bind]
  congr 2
  simp only [legacyPreimage, Transaction.encode, Wire.vector, List.flatMap, List.append_assoc]
  rfl

theorem coveredOutputs_eq (midstate : Midstate) :
    coveredOutputs tx index type midstate
      = pure (Sighash.coveredOutputs tx index type midstate) := by
  rw [coveredOutputs, Sighash.coveredOutputs]
  cases type.coversSingle with
  | true =>
    by_cases inside : index < tx.outputs.length
    · have found := List.getElem?_eq_getElem inside
      rw [item_eq found, found]
      simp [inside]
    · have missing := List.getElem?_eq_none (Nat.not_lt.mp inside)
      rw [missing]
      simp [inside]
  | false => cases type.coversNone <;> rfl

theorem forkIdDigest_eq (amount : Int64) (midstate : Midstate) :
    forkIdDigest tx index code type amount midstate
      = pure (Sighash.forkIdDigest tx index code type amount midstate) := by
  rw [forkIdDigest, coveredOutputs_eq, pure_bind]
  rfl

end Digests

section Signatures

variable (spend : Spend) (code : Bytes) (flags : ScriptFlags)

theorem digest_eq (type : SighashType) :
    digest spend code type flags = pure (spend.digest code type flags) := by
  rw [digest, Spend.digest, forkIdDigest_eq, legacyDigest_eq]
  exact (apply_ite pure _ _ _).symm

theorem checkSignature_eq (signature key : Bytes) :
    checkSignature spend signature key code flags
      = of id (spend.checkSignature signature key code flags) := by
  rw [checkSignature, Spend.checkSignature]
  cases signature.getLast? with
  | none => rfl
  | some last =>
    dsimp only
    rw [of_ite, withoutSignature_eq]
    simp only [pure_bind, digest_eq]
    by_cases replayProtected :
        ((⟨last.toUInt32⟩ : SighashType).hasForkId && flags.sighashForkId) = true
    · simp only [if_pos replayProtected]
      rfl
    · simp only [if_neg replayProtected]
      rfl

end Signatures

end ScryptLedger.Script.Positional
