import ScryptLedger.Bytes

/-!
# The signature curve

Arithmetic on the curve `y² = x³ + 7` over a prime field, in numbers below the
field's prime. Points are kept in Jacobian coordinates `(x / z², y / z³)`, with
`z = 0` for the point at infinity, so that only the last step of a computation
divides.
-/

namespace ScryptLedger.Curve

def fieldPrime : Nat :=
  0xfffffffffffffffffffffffffffffffffffffffffffffffffffffffefffffc2f

/-- The number of points, itself prime. -/
def order : Nat :=
  0xfffffffffffffffffffffffffffffffebaaedce6af48a03bbfd25e8cd0364141

/-- `base ^ exponent % modulus`, over the lowest `bits` bits of the exponent, highest first. -/
def powMod (modulus base exponent : Nat) : (bits : Nat) → (power : Nat) → Nat
  | 0, power => power
  | bits + 1, power =>
    let squared := power * power % modulus
    let next := if exponent.testBit bits then squared * base % modulus else squared
    powMod modulus base exponent bits next

/-- The inverse modulo a 256-bit prime. -/
def inverse (prime value : Nat) : Nat :=
  powMod prime value (prime - 2) 256 1

@[inline]
def sub (a b : Nat) : Nat :=
  (a + (fieldPrime - b % fieldPrime)) % fieldPrime

def isSquare (value : Nat) : Bool :=
  value % fieldPrime == 0
    || powMod fieldPrime value ((fieldPrime - 1) / 2) 256 1 == 1

def squareRoot? (value : Nat) : Option Nat :=
  let root := powMod fieldPrime value ((fieldPrime + 1) / 4) 256 1
  if root * root % fieldPrime = value % fieldPrime then some root else none

/-- A point in Jacobian coordinates. -/
structure Point where
  x : Nat
  y : Nat
  z : Nat

namespace Point

def infinity : Point := ⟨1, 1, 0⟩

def ofAffine (x y : Nat) : Point := ⟨x, y, 1⟩

/-- The point every key is a multiple of. -/
def generator : Point :=
  ofAffine 0x79be667ef9dcbbac55a06295ce870b07029bfcdb2dce28d959f2815b16f81798
    0x483ada7726a3c4655da4fbfc0e1108a8fd17b448a68554199c47d08ffb10d4b8

def isInfinity (a : Point) : Bool := a.z == 0

def double (a : Point) : Point :=
  let p := fieldPrime
  let yy := a.y * a.y % p
  let s := 4 * a.x * yy % p
  let m := 3 * a.x * a.x % p
  let x := sub (m * m % p) (2 * s)
  let y := sub (m * sub s x % p) (8 * yy * yy)
  ⟨x, y, 2 * a.y * a.z % p⟩

def add (a b : Point) : Point :=
  if a.isInfinity then b
  else if b.isInfinity then a
  else
    let p := fieldPrime
    let za := a.z * a.z % p
    let zb := b.z * b.z % p
    let ua := a.x * zb % p
    let ub := b.x * za % p
    let sa := a.y * zb % p * b.z % p
    let sb := b.y * za % p * a.z % p
    if ua = ub then
      if sa = sb then a.double else infinity
    else
      let h := sub ub ua
      let r := sub sb sa
      let hh := h * h % p
      let hhh := h * hh % p
      let v := ua * hh % p
      let x := sub (sub (r * r % p) hhh) (2 * v)
      let y := sub (r * sub v x % p) (sa * hhh)
      ⟨x, y, a.z * b.z % p * h % p⟩

def negate (a : Point) : Point := ⟨a.x, sub 0 a.y, a.z⟩

/-- `k • a + l • b` over the lowest `bits` bits of the factors, highest first;
`both` is `a + b`. -/
def combineOnto (k l : Nat) (a b both : Point) : (bits : Nat) → (sum : Point) → Point
  | 0, sum => sum
  | bits + 1, sum =>
    let doubled := sum.double
    let next :=
      match k.testBit bits, l.testBit bits with
      | true, true => doubled.add both
      | true, false => doubled.add a
      | false, true => doubled.add b
      | false, false => doubled
    combineOnto k l a b both bits next

/-- `k • a + l • b` for factors below `2 ^ 256`. -/
def combine (k : Nat) (a : Point) (l : Nat) (b : Point) : Point :=
  combineOnto k l a b (a.add b) 256 infinity

/-- The affine coordinates, unless the point is at infinity. -/
def toAffine? (a : Point) : Option (Nat × Nat) :=
  if a.isInfinity then none
  else
    let z := inverse fieldPrime a.z
    let zz := z * z % fieldPrime
    some (a.x * zz % fieldPrime, a.y * zz % fieldPrime * z % fieldPrime)

end Point

end ScryptLedger.Curve
