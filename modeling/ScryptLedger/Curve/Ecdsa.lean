import ScryptLedger.Hash
import ScryptLedger.Curve.Key
import ScryptLedger.Curve.LaxDer

/-!
# ECDSA verification

Signatures are read leniently and normalised before the check, so the two
signatures that differ in the sign of `s` count alike.
-/

namespace ScryptLedger.Curve.Ecdsa

/-- Whether a signature by a key covers a digest. -/
def checks (signature : Signature) (key : Key) (digest : Nat) : Bool :=
  let ⟨r, s⟩ := signature
  if r = 0 ∨ s = 0 then false
  else
    let w := inverse order s
    let sum := Point.combine (digest % order * w % order) Point.generator
      (r * w % order) key.point
    match sum.toAffine? with
    | some (x, _) => x % order == r
    | none => false

/-- The same for byte strings; unreadable ones never verify. -/
def verifies (signature key : Bytes) (digest : Hash) : Bool :=
  match Key.ofEcdsaBytes? key, Signature.ofLaxDer? signature with
  | some key, some signature => checks signature.normalize key (ofBigEndian digest.bytes)
  | _, _ => false

end ScryptLedger.Curve.Ecdsa
