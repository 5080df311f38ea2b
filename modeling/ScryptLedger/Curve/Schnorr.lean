import ScryptLedger.Curve.Key
import ScryptLedger.Digest.Sha256

/-!
# Schnorr verification

A signature `(r, s)` by a key `P` covers a message when `s • G - e • P` has
abscissa `r` and an ordinate that is a square, where `e` is the hash of `r`, the
compressed key and the message.
-/

namespace ScryptLedger.Curve.Schnorr

/-- The challenge a signature answers. -/
def challenge (r : Bytes) (key : Key) (digest : Hash) : Nat :=
  ofBigEndian (Sha256.hash (r ++ key.compressed ++ digest.bytes)).bytes % order

/-- Whether a 64-byte signature by a key covers a digest. -/
def verifies (signature key : Bytes) (digest : Hash) : Bool :=
  match Key.ofSchnorrBytes? key with
  | none => false
  | some key =>
    let r := ofBigEndian (signature.take 32)
    let s := ofBigEndian (signature.drop 32)
    if signature.length = 64 ∧ r < fieldPrime ∧ s < order then
      let e := challenge (signature.take 32) key digest
      match (Point.combine s Point.generator e key.point.negate).toAffine? with
      | some (x, y) => x == r && isSquare y
      | none => false
    else false

end ScryptLedger.Curve.Schnorr
