import ScryptLedger.Proofs.Transaction.Check
import ScryptLedger.Proofs.Wire.Decoder
import ScryptLedger.Proofs.Wire.Length

/-!
# Transactions on the wire and back

A transaction fits into the wire format when none of its vectors is longer than
any vector may be. Exactly the encodings of such transactions are read. No
vector is longer than the encoding that holds it, so that small transactions
fit.
-/

namespace ScryptLedger

namespace Wire

theorem length_le_sizedBytes (bytes : Bytes) : bytes.length ≤ (sizedBytes bytes).length := by
  rw [sizedBytes, List.length_append]
  exact Nat.le_add_left _ _

theorem length_le_vector {Item : Type} (encode : Item → Bytes)
    (long : ∀ item, 1 ≤ (encode item).length) (items : List Item) :
    items.length ≤ (vector encode items).length := by
  have counted := Transaction.length_flatMap_ge encode long items
  rw [vector, List.length_append]
  omega

theorem length_encode_le_vector {Item : Type} (encode : Item → Bytes) {items : List Item}
    {item : Item} (held : item ∈ items) : (encode item).length ≤ (vector encode items).length := by
  obtain ⟨before, after, rfl⟩ := List.append_of_mem held
  simp only [vector, List.flatMap_append, List.flatMap_cons, List.length_append]
  omega

end Wire

namespace OutPoint

theorem decoder_reads : decoder.Reads encode fun _ => True := by
  intro bytes outpoint rest
  simp only [decoder, encode, Decoder.hash_reads.bind_eq_ok_iff,
    Decoder.uint32_reads.bind_eq_ok_iff, Decoder.apply_pure_eq_ok_iff, List.append_assoc]
  constructor
  · rintro ⟨hash, _, -, rfl, index, _, -, rfl, rfl, rfl⟩
    exact ⟨trivial, rfl⟩
  · rintro ⟨-, rfl⟩
    exact ⟨outpoint.hash, _, trivial, rfl, outpoint.index, rest, trivial, rfl, rfl, rfl⟩

end OutPoint

namespace TxInput

/-- Whether the script is no longer than any vector may be. -/
def Fits (input : TxInput) : Prop :=
  input.scriptSig.length ≤ maxVectorSize

theorem decoder_reads : decoder.Reads encode Fits := by
  intro bytes input rest
  simp only [decoder, encode, Fits, OutPoint.decoder_reads.bind_eq_ok_iff,
    Decoder.sizedBytes_reads.bind_eq_ok_iff, Decoder.uint32_reads.bind_eq_ok_iff,
    Decoder.apply_pure_eq_ok_iff, List.append_assoc]
  constructor
  · rintro ⟨outpoint, _, -, rfl, script, _, short, rfl, sequence, _, -, rfl, rfl, rfl⟩
    exact ⟨short, rfl⟩
  · rintro ⟨short, rfl⟩
    exact ⟨input.outpoint, _, trivial, rfl, input.scriptSig, _, short, rfl, input.sequence, rest,
      trivial, rfl, rfl, rfl⟩

theorem fits_of_length_le {input : TxInput} (short : input.encode.length ≤ maxVectorSize) :
    input.Fits := by
  have held := Wire.length_le_sizedBytes input.scriptSig
  rw [length_encode] at short
  exact Nat.le_trans held (by omega)

end TxInput

namespace TxOutput

/-- Whether the script is no longer than any vector may be. -/
def Fits (output : TxOutput) : Prop :=
  output.scriptPubKey.length ≤ maxVectorSize

theorem decoder_reads : decoder.Reads encode Fits := by
  intro bytes output rest
  simp only [decoder, encode, Fits, Decoder.int64_reads.bind_eq_ok_iff,
    Decoder.sizedBytes_reads.bind_eq_ok_iff, Decoder.apply_pure_eq_ok_iff, List.append_assoc]
  constructor
  · rintro ⟨value, _, -, rfl, script, _, short, rfl, rfl, rfl⟩
    exact ⟨short, rfl⟩
  · rintro ⟨short, rfl⟩
    exact ⟨output.value, _, trivial, rfl, output.scriptPubKey, rest, short, rfl, rfl, rfl⟩

theorem fits_of_length_le {output : TxOutput} (short : output.encode.length ≤ maxVectorSize) :
    output.Fits := by
  have held := Wire.length_le_sizedBytes output.scriptPubKey
  rw [length_encode] at short
  exact Nat.le_trans held (by omega)

end TxOutput

namespace Transaction

/-- Whether no vector of a transaction is longer than any vector may be. -/
structure Fits (tx : Transaction) : Prop where
  inputs : tx.inputs.length ≤ maxVectorSize
  scriptSigs : ∀ input ∈ tx.inputs, input.Fits
  outputs : tx.outputs.length ≤ maxVectorSize
  scriptPubKeys : ∀ output ∈ tx.outputs, output.Fits

theorem decoder_reads : decoder.Reads encode Fits := by
  intro bytes tx rest
  simp only [decoder, encode, Decoder.int32_reads.bind_eq_ok_iff,
    TxInput.decoder_reads.vector.bind_eq_ok_iff, TxOutput.decoder_reads.vector.bind_eq_ok_iff,
    Decoder.uint32_reads.bind_eq_ok_iff, Decoder.apply_pure_eq_ok_iff, List.append_assoc]
  constructor
  · rintro ⟨version, _, -, rfl, inputs, _, ⟨few, short⟩, rfl, outputs, _, ⟨few', short'⟩, rfl,
      lockTime, _, -, rfl, rfl, rfl⟩
    exact ⟨⟨few, short, few', short'⟩, rfl⟩
  · rintro ⟨⟨few, short, few', short'⟩, rfl⟩
    exact ⟨tx.version, _, trivial, rfl, tx.inputs, _, ⟨few, short⟩, rfl, tx.outputs, _,
      ⟨few', short'⟩, rfl, tx.lockTime, rest, trivial, rfl, rfl, rfl⟩

/-- Which byte strings are transactions. -/
theorem decode_eq_ok_iff {bytes : Bytes} {tx : Transaction} :
    decode bytes = .ok tx ↔ tx.Fits ∧ bytes = tx.encode :=
  decoder_reads.whole_eq_ok_iff

theorem fits_of_size_le {tx : Transaction} (small : tx.size ≤ maxVectorSize) : tx.Fits := by
  rw [size_eq] at small
  have inputs := Wire.length_le_vector TxInput.encode
    (fun input => by rw [TxInput.length_encode]; omega) tx.inputs
  have outputs := Wire.length_le_vector TxOutput.encode
    (fun output => by rw [TxOutput.length_encode]; omega) tx.outputs
  refine ⟨by omega, fun input held => ?_, by omega, fun output held => ?_⟩
  · have within := Wire.length_encode_le_vector TxInput.encode held
    exact TxInput.fits_of_length_le (by omega)
  · have within := Wire.length_encode_le_vector TxOutput.encode held
    exact TxOutput.fits_of_length_le (by omega)

end Transaction

end ScryptLedger
