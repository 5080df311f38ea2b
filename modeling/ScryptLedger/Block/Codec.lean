import ScryptLedger.Block.Basic
import ScryptLedger.Block.Version
import ScryptLedger.Transaction.Codec

/-!
# Blocks on the wire

A header takes 80 bytes. A merge-mining proof follows it exactly when the
header's version announces one; a block without the announced proof is written
with the empty proof, and a proof that is not announced is not written. The
transactions come last.
-/

namespace ScryptLedger

namespace BlockHeader

def encode (header : BlockHeader) : Bytes :=
  bytesOfInt32 header.version ++ header.previous.bytes ++ header.merkleRoot.bytes
    ++ bytesOfWord header.time ++ bytesOfWord header.bits ++ bytesOfWord header.nonce

def decoder : Decoder BlockHeader :=
  return ⟨← Decoder.int32, ← Decoder.hash, ← Decoder.hash, ← Decoder.uint32, ← Decoder.uint32,
    ← Decoder.uint32⟩

def decode (bytes : Bytes) : Except WireError BlockHeader :=
  decoder.whole bytes

def hash [Primitives] (header : BlockHeader) : Hash :=
  sha256d header.encode

/-- The hash that must meet the target. -/
def proofHash [Primitives] (header : BlockHeader) : Hash :=
  workHash header.encode

end BlockHeader

namespace AuxPow

def encode (auxpow : AuxPow) : Bytes :=
  auxpow.coinbase.encode ++ auxpow.parentHash.bytes
    ++ Wire.vector Digest.bytes auxpow.coinbaseBranch ++ bytesOfInt32 auxpow.index
    ++ Wire.vector Digest.bytes auxpow.chainBranch ++ bytesOfInt32 auxpow.chainIndex
    ++ auxpow.parent.encode

def decoder : Decoder AuxPow :=
  return ⟨← Transaction.decoder, ← Decoder.hash, ← Decoder.vector Decoder.hash, ← Decoder.int32,
    ← Decoder.vector Decoder.hash, ← Decoder.int32, ← BlockHeader.decoder⟩

def decode (bytes : Bytes) : Except WireError AuxPow :=
  decoder.whole bytes

end AuxPow

/-- A header with the proof its version announces, as nodes relay it. -/
structure ProvenHeader where
  header : BlockHeader
  auxpow : Option AuxPow
deriving DecidableEq, Repr

namespace ProvenHeader

def encode (proven : ProvenHeader) : Bytes :=
  proven.header.encode
    ++ if Version.hasAuxpow proven.header.version then (proven.auxpow.getD AuxPow.empty).encode
      else []

def decoder : Decoder ProvenHeader := do
  let header ← BlockHeader.decoder
  if Version.hasAuxpow header.version then return ⟨header, some (← AuxPow.decoder)⟩
  else return ⟨header, none⟩

def decode (bytes : Bytes) : Except WireError ProvenHeader :=
  decoder.whole bytes

end ProvenHeader

namespace Block

def proven (block : Block) : ProvenHeader := ⟨block.header, block.auxpow⟩

def encode (block : Block) : Bytes :=
  block.proven.encode ++ Wire.vector Transaction.encode block.transactions

def decoder : Decoder Block := do
  let proven ← ProvenHeader.decoder
  return ⟨proven.header, proven.auxpow, ← Decoder.vector Transaction.decoder⟩

def decode (bytes : Bytes) : Except WireError Block :=
  decoder.whole bytes

def hash [Primitives] (block : Block) : Hash := block.header.hash

def txids [Primitives] (block : Block) : List Hash :=
  block.transactions.map Transaction.txid

end Block

end ScryptLedger
