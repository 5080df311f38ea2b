import ScryptLedger.Hash

/-!
# Cryptographic primitives

The consensus rules use hash functions and signature checks only through this
class. Nothing else in the library looks inside them, so every statement about
the rules holds for any choice of primitives that are functions; the choice a
running node makes is in `ScryptLedger.Primitives.Standard`.
-/

namespace ScryptLedger

/-- The functions the consensus rules are parametric in. -/
class Primitives where
  sha256 : Bytes → Hash
  sha1 : Bytes → Hash160
  ripemd160 : Bytes → Hash160
  /-- The proof-of-work hash of a serialized header. -/
  workHash : Bytes → Hash
  /-- Whether an ECDSA signature by a key covers a digest. -/
  ecdsaVerifies : (signature key : Bytes) → (digest : Hash) → Bool
  /-- Whether a 64-byte Schnorr signature by a key covers a digest. -/
  schnorrVerifies : (signature key : Bytes) → (digest : Hash) → Bool

export Primitives (sha256 sha1 ripemd160 workHash ecdsaVerifies schnorrVerifies)

variable [Primitives]

def sha256d (bytes : Bytes) : Hash :=
  sha256 (sha256 bytes).bytes

def hash160 (bytes : Bytes) : Hash160 :=
  ripemd160 (sha256 bytes).bytes

/-- The parent of two nodes of a merkle tree. -/
def hashPair (left right : Hash) : Hash :=
  sha256d (left.bytes ++ right.bytes)

end ScryptLedger
