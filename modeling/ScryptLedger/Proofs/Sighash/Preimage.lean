import ScryptLedger.Primitives.Transparent
import ScryptLedger.Proofs.Sighash.Coverage
import ScryptLedger.Proofs.Transaction.Codec
import ScryptLedger.Proofs.Wire.Separation

/-!
# Signatures commit to what they select

Two transactions have the same digests when they agree on what the hash type
selects. In the other direction the bytes that are hashed can be parsed in one
way only, although scripts and lists have no fixed length: from the older
digest's bytes the masked transaction can be told. The replay-protected
digest's bytes hold hashes in the place of whole lists, so that there is one
more case: two different lists could have the same hash.
-/

namespace ScryptLedger

namespace TxInput

end TxInput

namespace TxOutput

theorem encode_ne_nil (output : TxOutput) : output.encode ≠ [] := by
  simp [encode, bytesOfInt64, littleEndian]

/-- Whether the length of the script can be written. No byte string in a memory is longer. -/
def Sized (output : TxOutput) : Prop :=
  output.scriptPubKey.length < 256 ^ 8

end TxOutput

namespace Transaction

/-- Whether the lengths of a transaction's lists and output scripts can be written. -/
structure Sized (tx : Transaction) : Prop where
  inputs : tx.inputs.length < 256 ^ 8
  outputs : tx.outputs.length < 256 ^ 8
  scripts : ∀ output ∈ tx.outputs, output.Sized

end Transaction

namespace Sighash

variable {index : Nat} {code : Bytes} {type : SighashType} {amount : Int64} {a b : Transaction}

section Legacy

end Legacy

section ForkId

/-- What the midstate's hash of the outpoints is taken of. -/
def outpointBytes (tx : Transaction) : Bytes :=
  tx.inputs.flatMap fun input => input.outpoint.encode

/-- What the midstate's hash of the sequence numbers is taken of. -/
def sequenceBytes (tx : Transaction) : Bytes :=
  tx.inputs.flatMap fun input => bytesOfWord input.sequence

/-- What the midstate's hash of the outputs is taken of. -/
def outputBytes (tx : Transaction) : Bytes :=
  tx.outputs.flatMap TxOutput.encode

/-- What the hash of the output at an index is taken of. -/
def outputBytesAt (index : Nat) (tx : Transaction) : Bytes :=
  (tx.outputs[index]?).elim [] TxOutput.encode

/-- The parts of a transaction that the replay-protected digest covers through their hashes. -/
def hashedParts (index : Nat) (type : SighashType) : List (Transaction → Bytes) :=
  (if type.anyoneCanPay then [] else [outpointBytes])
    ++ (if type.anyoneCanPay || !type.coversAll then [] else [sequenceBytes])
    ++ (if type.coversSingle then [outputBytesAt index]
        else if type.coversNone then [] else [outputBytes])

theorem forall_hashedParts_iff {holds : (Transaction → Bytes) → Prop} :
    (∀ part ∈ hashedParts index type, holds part) ↔
      (type.anyoneCanPay = false → holds outpointBytes) ∧
        (type.anyoneCanPay = false → type.coversAll = true → holds sequenceBytes) ∧
        (type.coversAll = true → holds outputBytes) ∧
        (type.coversSingle = true → holds (outputBytesAt index)) := by
  cases single : type.coversSingle <;> cases none : type.coversNone <;>
    cases anyone : type.anyoneCanPay <;>
    simp [hashedParts, SighashType.coversAll, single, none, anyone]

theorem outpointBytes_eq_iff :
    outpointBytes a = outpointBytes b ↔
      a.inputs.map TxInput.outpoint = b.inputs.map TxInput.outpoint :=
  Wire.flatMap_eq_iff_of_reads OutPoint.decoder_reads
    (fun outpoint => by simp [OutPoint.encode, bytesOfWord, littleEndian]) TxInput.outpoint

theorem sequenceBytes_eq_iff :
    sequenceBytes a = sequenceBytes b ↔
      a.inputs.map TxInput.sequence = b.inputs.map TxInput.sequence :=
  Wire.flatMap_eq_iff_of_reads Decoder.uint32_reads
    (fun sequence => by simp [bytesOfWord, littleEndian]) TxInput.sequence

theorem Agree.hashedPart_eq (agree : Agree index type a b) :
    ∀ part ∈ hashedParts index type, part a = part b := by
  refine forall_hashedParts_iff.mpr ⟨fun only => ?_, fun only all => ?_, fun all => ?_,
    fun single => ?_⟩
  · exact outpointBytes_eq_iff.mpr (agree.outpoints only)
  · exact sequenceBytes_eq_iff.mpr (agree.sequences only all)
  · rw [outputBytes, agree.outputs all, outputBytes]
  · rw [outputBytesAt, agree.output single, outputBytesAt]

/-- The bytes of the input that is signed. -/
def ownBytes (tx : Transaction) (index : Nat) (code : Bytes) (amount : Int64) : Bytes :=
  match tx.inputs[index]? with
  | some input =>
    input.outpoint.encode ++ Wire.sizedBytes code ++ bytesOfInt64 amount
      ++ bytesOfWord input.sequence
  | none => []

theorem ownBytes_congr
    (outpoint : a.inputs[index]?.map TxInput.outpoint = b.inputs[index]?.map TxInput.outpoint)
    (sequence : a.inputs[index]?.map TxInput.sequence = b.inputs[index]?.map TxInput.sequence) :
    ownBytes a index code amount = ownBytes b index code amount := by
  rw [ownBytes, ownBytes]
  cases held : a.inputs[index]? <;> cases held' : b.inputs[index]? <;> simp_all

theorem ownBytes_append_inj (present : index < a.inputs.length ↔ index < b.inputs.length)
    {after after' : Bytes}
    (same : ownBytes a index code amount ++ after = ownBytes b index code amount ++ after') :
    a.inputs[index]?.map TxInput.outpoint = b.inputs[index]?.map TxInput.outpoint ∧
      a.inputs[index]?.map TxInput.sequence = b.inputs[index]?.map TxInput.sequence ∧
      after = after' := by
  rw [ownBytes, ownBytes] at same
  by_cases inside : index < a.inputs.length
  · have inside' := present.mp inside
    rw [List.getElem?_eq_getElem inside, List.getElem?_eq_getElem inside'] at same ⊢
    simp only [List.append_assoc] at same
    obtain ⟨outpoint, rest⟩ := OutPoint.decoder_reads.append_inj trivial trivial same
    obtain ⟨sequence, rest⟩ := Decoder.uint32_reads.append_inj trivial trivial
      (List.append_cancel_left (List.append_cancel_left rest))
    exact ⟨congrArg some outpoint, congrArg some sequence, rest⟩
  · have outside := Nat.le_of_not_lt inside
    have outside' := Nat.le_of_not_lt (inside ∘ present.mpr)
    rw [List.getElem?_eq_none outside, List.getElem?_eq_none outside'] at same ⊢
    exact ⟨rfl, rfl, same⟩

variable [Primitives]

/-- The hash that stands for the outpoints. -/
def coveredOutpoints (type : SighashType) (midstate : Midstate) : Hash :=
  if type.anyoneCanPay then Digest.zero else midstate.outpoints

/-- The hash that stands for the sequence numbers. -/
def coveredSequences (type : SighashType) (midstate : Midstate) : Hash :=
  if type.anyoneCanPay || type.coversSingle || type.coversNone then Digest.zero
  else midstate.sequences

theorem forkIdPreimage_eq (tx : Transaction) (midstate : Midstate) :
    forkIdPreimage tx index code type amount midstate =
      bytesOfInt32 tx.version ++ (coveredOutpoints type midstate).bytes
        ++ (coveredSequences type midstate).bytes ++ ownBytes tx index code amount
        ++ (coveredOutputs tx index type midstate).bytes ++ bytesOfWord tx.lockTime
        ++ bytesOfWord (type.value &&& 0xff) :=
  rfl

theorem coveredOutpoints_eq_iff :
    coveredOutpoints type (Midstate.of a) = coveredOutpoints type (Midstate.of b) ↔
      (type.anyoneCanPay = false → sha256d (outpointBytes a) = sha256d (outpointBytes b)) := by
  cases anyone : type.anyoneCanPay <;> simp [coveredOutpoints, anyone, Midstate.of, outpointBytes]

theorem coveredSequences_eq_iff :
    coveredSequences type (Midstate.of a) = coveredSequences type (Midstate.of b) ↔
      (type.anyoneCanPay = false → type.coversAll = true →
        sha256d (sequenceBytes a) = sha256d (sequenceBytes b)) := by
  cases single : type.coversSingle <;> cases none : type.coversNone <;>
    cases anyone : type.anyoneCanPay <;>
    simp [coveredSequences, SighashType.coversAll, single, none, anyone, Midstate.of,
      sequenceBytes]

theorem coveredOutputs_eq_iff
    (paired : type.coversSingle = true → (index < a.outputs.length ↔ index < b.outputs.length)) :
    coveredOutputs a index type (Midstate.of a) = coveredOutputs b index type (Midstate.of b) ↔
      (type.coversAll = true → sha256d (outputBytes a) = sha256d (outputBytes b)) ∧
        (type.coversSingle = true →
          sha256d (outputBytesAt index a) = sha256d (outputBytesAt index b)) := by
  rw [coveredOutputs, coveredOutputs]
  cases single : type.coversSingle with
  | true =>
    simp only [SighashType.coversAll_iff, single, if_true, true_implies, Bool.true_eq_false,
      and_false, false_implies, true_and]
    by_cases inside : index < a.outputs.length
    · have inside' := (paired single).mp inside
      simp [outputBytesAt, inside, inside']
    · have outside := Nat.le_of_not_lt inside
      have outside' := Nat.le_of_not_lt (inside ∘ (paired single).mpr)
      simp [outputBytesAt, outside, outside']
  | false =>
    cases none : type.coversNone <;>
      simp [SighashType.coversAll, single, none, Midstate.of, outputBytes]

/-- The hashes that stand in the digest's bytes are those of the parts that are covered so. -/
theorem covered_eq_iff
    (paired : type.coversSingle = true → (index < a.outputs.length ↔ index < b.outputs.length)) :
    (coveredOutpoints type (Midstate.of a) = coveredOutpoints type (Midstate.of b) ∧
        coveredSequences type (Midstate.of a) = coveredSequences type (Midstate.of b) ∧
        coveredOutputs a index type (Midstate.of a) =
          coveredOutputs b index type (Midstate.of b)) ↔
      ∀ part ∈ hashedParts index type, sha256d (part a) = sha256d (part b) := by
  rw [coveredOutpoints_eq_iff, coveredSequences_eq_iff, coveredOutputs_eq_iff paired,
    forall_hashedParts_iff]

/-- The replay-protected digest's bytes have a field for each part and each hash that is
selected. -/
theorem forkIdPreimage_eq_iff (present : index < a.inputs.length ↔ index < b.inputs.length)
    (paired : type.coversSingle = true →
      (index < a.outputs.length ↔ index < b.outputs.length)) :
    forkIdPreimage a index code type amount (Midstate.of a) =
        forkIdPreimage b index code type amount (Midstate.of b) ↔
      a.version = b.version ∧ a.lockTime = b.lockTime ∧
        a.inputs[index]?.map TxInput.outpoint = b.inputs[index]?.map TxInput.outpoint ∧
        a.inputs[index]?.map TxInput.sequence = b.inputs[index]?.map TxInput.sequence ∧
        ∀ part ∈ hashedParts index type, sha256d (part a) = sha256d (part b) := by
  rw [forkIdPreimage_eq, forkIdPreimage_eq, ← covered_eq_iff paired]
  constructor
  · intro same
    simp only [List.append_assoc] at same
    obtain ⟨version, same⟩ := Decoder.int32_reads.append_inj trivial trivial same
    obtain ⟨outpoints, same⟩ := Decoder.hash_reads.append_inj trivial trivial same
    obtain ⟨sequences, same⟩ := Decoder.hash_reads.append_inj trivial trivial same
    obtain ⟨outpoint, sequence, same⟩ := ownBytes_append_inj present same
    obtain ⟨outputs, same⟩ := Decoder.hash_reads.append_inj trivial trivial same
    obtain ⟨lockTime, -⟩ := Decoder.uint32_reads.append_inj trivial trivial same
    exact ⟨version, lockTime, outpoint, sequence, outpoints, sequences, outputs⟩
  · rintro ⟨version, lockTime, outpoint, sequence, outpoints, sequences, outputs⟩
    rw [version, lockTime, outpoints, sequences, outputs, ownBytes_congr outpoint sequence]

end ForkId

section Digests

variable [Primitives]

theorem Agree.forkIdPreimage_eq (agree : Agree index type a b) :
    forkIdPreimage a index code type amount (Midstate.of a) =
      forkIdPreimage b index code type amount (Midstate.of b) := by
  have paired (single : type.coversSingle = true) :
      index < a.outputs.length ↔ index < b.outputs.length :=
    getElem?_lt_iff (congrArg (Option.map id) (agree.output single))
  refine (forkIdPreimage_eq_iff (getElem?_lt_iff agree.outpoint) paired).mpr
    ⟨agree.version, agree.lockTime, agree.outpoint, agree.sequence, fun part covered => ?_⟩
  rw [agree.hashedPart_eq part covered]

end Digests

section Payment

/-- A payment that leaves some change. -/
def payment (scriptSig : Bytes) (paid change : Int64) : Transaction where
  version := 1
  inputs := [⟨⟨Digest.zero, 0⟩, scriptSig, 0⟩]
  outputs := [⟨paid, [0x51]⟩, ⟨change, []⟩]
  lockTime := 0

local instance : Primitives := Primitives.transparent

end Payment

end Sighash

end ScryptLedger
