import ScryptLedger.Primitives

/-!
# Primitives that show what they hash

Primitives for examples that are computed by hand. A double hash shows the end
of what was hashed, any work is enough, and every signature holds.
-/

namespace ScryptLedger

/-- Hashes that reverse what they hash. Like the standard ones, they are no instance. -/
@[reducible]
def Primitives.transparent : Primitives where
  sha256 bytes := Digest.ofBytes bytes.reverse
  sha1 bytes := Digest.ofBytes bytes.reverse
  ripemd160 bytes := Digest.ofBytes bytes.reverse
  workHash _ := Digest.zero
  ecdsaVerifies _ _ _ := true
  schnorrVerifies _ _ _ := true

end ScryptLedger
