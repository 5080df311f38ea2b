import ScryptLedger.Primitives
import ScryptLedger.Transaction.Basic
import ScryptLedger.Wire.Decoder

/-!
# Transactions on the wire

Version, inputs, outputs and lock time, each vector after its length. The
identity of a transaction is the double hash of these bytes.
-/

namespace ScryptLedger

namespace OutPoint

def encode (outpoint : OutPoint) : Bytes :=
  outpoint.hash.bytes ++ bytesOfWord outpoint.index

def decoder : Decoder OutPoint :=
  return ⟨← Decoder.hash, ← Decoder.uint32⟩

end OutPoint

namespace TxInput

def encode (input : TxInput) : Bytes :=
  input.outpoint.encode ++ Wire.sizedBytes input.scriptSig ++ bytesOfWord input.sequence

def decoder : Decoder TxInput :=
  return ⟨← OutPoint.decoder, ← Decoder.sizedBytes, ← Decoder.uint32⟩

end TxInput

namespace TxOutput

def encode (output : TxOutput) : Bytes :=
  bytesOfInt64 output.value ++ Wire.sizedBytes output.scriptPubKey

def decoder : Decoder TxOutput :=
  return ⟨← Decoder.int64, ← Decoder.sizedBytes⟩

end TxOutput

namespace Transaction

def encode (tx : Transaction) : Bytes :=
  bytesOfInt32 tx.version ++ Wire.vector TxInput.encode tx.inputs
    ++ Wire.vector TxOutput.encode tx.outputs ++ bytesOfWord tx.lockTime

def decoder : Decoder Transaction :=
  return ⟨← Decoder.int32, ← Decoder.vector TxInput.decoder, ← Decoder.vector TxOutput.decoder,
    ← Decoder.uint32⟩

def decode (bytes : Bytes) : Except WireError Transaction :=
  decoder.whole bytes

def size (tx : Transaction) : Nat :=
  tx.encode.length

def txid [Primitives] (tx : Transaction) : Hash :=
  sha256d tx.encode

end Transaction

end ScryptLedger
