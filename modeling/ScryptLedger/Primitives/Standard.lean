import ScryptLedger.Curve.Ecdsa
import ScryptLedger.Curve.Schnorr
import ScryptLedger.Digest.Ripemd160
import ScryptLedger.Digest.Scrypt
import ScryptLedger.Digest.Sha1
import ScryptLedger.Primitives

/-!
# The primitives of a running node

SHA-2, SHA-1 and RIPEMD-160 for hashing, scrypt for the proof of work, and both
signature schemes over one curve.
-/

namespace ScryptLedger

/-- The primitives the network agreed on. It is a definition, not an instance,
so that a statement about all primitives cannot pick it up by accident. -/
@[reducible]
def Primitives.standard : Primitives where
  sha256 := Sha256.hash
  sha1 := Sha1.hash
  ripemd160 := Ripemd160.hash
  workHash := Scrypt.hash
  ecdsaVerifies := Curve.Ecdsa.verifies
  schnorrVerifies := Curve.Schnorr.verifies

end ScryptLedger
