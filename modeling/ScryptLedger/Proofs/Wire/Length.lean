import Mathlib.Algebra.Order.Ring.Nat
import ScryptLedger.Block.Codec
import ScryptLedger.Script.Push

/-!
# How long encodings are

Lengths are additive: a vector takes the room of its items and a length of at
most nine bytes. A short script number is pushed in its own length and one byte
more.
-/

namespace ScryptLedger

namespace Wire

theorem length_compactSize_le (size : Nat) : (compactSize size).length ≤ 9 := by
  have word (width value : Nat) (mark : UInt8) :
      (mark :: littleEndian width value).length = width + 1 := by
    rw [List.length_cons, length_littleEndian]
  rw [compactSize]
  split
  · exact Nat.le_trans (Nat.le_of_eq (length_littleEndian _ _)) (by decide)
  split
  · exact Nat.le_trans (Nat.le_of_eq (word _ _ _)) (by decide)
  split
  · exact Nat.le_trans (Nat.le_of_eq (word _ _ _)) (by decide)
  · exact Nat.le_of_eq (word _ _ _)

theorem length_compactSize_of_lt {size : Nat} (small : size < 0xfd) :
    (compactSize size).length = 1 := by
  rw [compactSize, if_pos small, length_littleEndian]

theorem length_sizedBytes_of_lt {bytes : Bytes} (small : bytes.length < 0xfd) :
    (sizedBytes bytes).length = bytes.length + 1 := by
  rw [sizedBytes, List.length_append, length_compactSize_of_lt small, Nat.add_comm]

theorem length_vector {Item : Type} (encode : Item → Bytes) (items : List Item) :
    (vector encode items).length =
      (compactSize items.length).length + (items.map fun item => (encode item).length).sum := by
  rw [vector, List.length_append, List.length_flatMap]

end Wire

namespace TxInput

theorem length_encode (input : TxInput) :
    input.encode.length = 40 + (Wire.sizedBytes input.scriptSig).length := by
  simp only [encode, OutPoint.encode, bytesOfWord, List.length_append, length_littleEndian,
    input.outpoint.hash.length_bytes]
  omega

end TxInput

namespace TxOutput

theorem length_encode (output : TxOutput) :
    output.encode.length = 8 + (Wire.sizedBytes output.scriptPubKey).length := by
  simp only [encode, bytesOfInt64, List.length_append, length_littleEndian]

end TxOutput

namespace Transaction

theorem size_eq (tx : Transaction) :
    tx.size = 8 + (Wire.vector TxInput.encode tx.inputs).length
      + (Wire.vector TxOutput.encode tx.outputs).length := by
  simp only [size, encode, bytesOfInt32, bytesOfWord, List.length_append, length_littleEndian]
  omega

end Transaction

namespace BlockHeader

theorem length_encode (header : BlockHeader) : header.encode.length = 80 := by
  simp only [encode, bytesOfInt32, bytesOfWord, List.length_append, length_littleEndian,
    header.previous.length_bytes, header.merkleRoot.length_bytes]

end BlockHeader

namespace Block

/-- A block without an announced proof is its header, a count and its transactions. -/
theorem length_encode_of_plain {block : Block}
    (plain : Version.hasAuxpow block.header.version = false) :
    block.encode.length = 80 + (Wire.compactSize block.transactions.length).length
      + (block.transactions.map Transaction.size).sum := by
  simp only [encode, proven, ProvenHeader.encode, plain, Bool.false_eq_true, if_false,
    List.append_nil, List.length_append, BlockHeader.length_encode, Wire.length_vector]
  exact (Nat.add_assoc _ _ _).symm

end Block

namespace ScriptNumber

theorem length_magnitude_le {n bytes : Nat} (small : n < 256 ^ bytes) :
    (magnitude n).length ≤ bytes := by
  rw [magnitude]
  by_cases zero : n = 0
  · rw [if_pos zero]
    exact Nat.zero_le bytes
  · rw [if_neg zero, length_littleEndian]
    have low : n.log2 < 8 * bytes := by
      rwa [Nat.log2_lt zero, Nat.pow_mul]
    omega

/-- The sign takes at most one byte. -/
theorem length_encode_le {n : Int} {bytes : Nat} (small : n.natAbs < 256 ^ bytes) :
    (encode n).length ≤ bytes + 1 := by
  have short := length_magnitude_le small
  rw [encode]
  cases (magnitude n.natAbs).getLast? with
  | none => exact Nat.zero_le _
  | some last =>
    dsimp only
    split
    · split
      · rw [List.length_append, List.length_dropLast, List.length_singleton]
        omega
      · omega
    · rw [List.length_append, List.length_singleton]
      omega

end ScriptNumber

namespace Script

theorem length_push_le {data : Bytes} (short : data.length ≤ 75) :
    (push data).length ≤ data.length + 1 := by
  match data with
  | [] => exact Nat.le_refl 1
  | [b] =>
    rw [push]
    split
    · exact Nat.le_succ 1
    split
    · exact Nat.le_succ 1
    · exact Nat.le_refl 2
  | first :: second :: rest =>
    simp only [push, if_pos short]
    exact Nat.le_refl _

theorem push_ne_nil (data : Bytes) : push data ≠ [] := by
  match data with
  | [] => simp [push]
  | [b] =>
    rw [push]
    split
    · simp
    split <;> simp
  | first :: second :: rest =>
    simp only [push]
    split
    · simp
    split
    · simp
    split <;> simp

end Script

end ScryptLedger
