import ScryptLedger.Curve.Point

/-!
# Public keys

A key is a point of the curve other than infinity, kept by its coordinates. The
two signature schemes read different sets of encodings: both take the
compressed and the full form; ECDSA also takes the full form with a parity in
its first byte, and Schnorr a short form that leaves the parity out and means
the even point.
-/

namespace ScryptLedger.Curve

/-- A point by its affine coordinates. -/
structure Key where
  x : Nat
  y : Nat

namespace Key

def point (key : Key) : Point := Point.ofAffine key.x key.y

def ofAbscissa? (x : Nat) (odd : Bool) : Option Key :=
  if x < fieldPrime then
    (squareRoot? ((x * x % fieldPrime * x + 7) % fieldPrime)).map fun root =>
      ⟨x, if (root % 2 == 1) == odd then root else (fieldPrime - root) % fieldPrime⟩
  else none

/-- The point with the given coordinates, if it lies on the curve. -/
def ofCoordinates? (x y : Nat) : Option Key :=
  if x < fieldPrime ∧ y < fieldPrime
      ∧ y * y % fieldPrime = (x * x % fieldPrime * x + 7) % fieldPrime then
    some ⟨x, y⟩
  else none

/-- The key in the full form, from the 64 bytes of its coordinates. -/
def ofFull? (coordinates : Bytes) : Option Key :=
  ofCoordinates? (ofBigEndian (coordinates.take 32)) (ofBigEndian (coordinates.drop 32))

def ofEcdsaBytes? : Bytes → Option Key
  | tag :: body =>
    if body.length = 32 then
      if tag = 0x02 then ofAbscissa? (ofBigEndian body) false
      else if tag = 0x03 then ofAbscissa? (ofBigEndian body) true
      else none
    else if body.length = 64 then
      if tag = 0x04 then ofFull? body
      else if tag = 0x06 ∨ tag = 0x07 then
        (ofFull? body).filter fun key => (key.y % 2 == 1) == (tag == 0x07)
      else none
    else none
  | [] => none

def ofSchnorrBytes? : Bytes → Option Key
  | tag :: body =>
    if body.length = 32 then
      if tag = 0x02 ∨ tag = 0x05 then ofAbscissa? (ofBigEndian body) false
      else if tag = 0x03 then ofAbscissa? (ofBigEndian body) true
      else none
    else if body.length = 64 ∧ tag = 0x04 then ofFull? body
    else none
  | [] => none

def compressed (key : Key) : Bytes :=
  (if key.y % 2 = 0 then 0x02 else 0x03) :: bigEndian 32 key.x

end Key

end ScryptLedger.Curve
