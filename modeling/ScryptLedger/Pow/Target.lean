import ScryptLedger.Params

/-!
# Targets

A block's hash, read as a number, must not exceed its target. Headers carry the
target in a compact form: a byte for the size in bytes, a sign bit, and the
three leading bytes. Most targets have no exact compact form; the one below
them is used.
-/

namespace ScryptLedger

/-- What a compact form stands for. An overflowing one has the target zero. -/
structure CompactTarget where
  target : Nat
  negative : Bool
  overflow : Bool
deriving DecidableEq, Repr

namespace Target

/-- The size, the sign bit and the leading bytes of a compact form. -/
def size (bits : UInt32) : Nat := bits.toNat / 0x1000000

def signBit (bits : UInt32) : Bool := bits.toNat.testBit 23

def mantissa (bits : UInt32) : Nat := bits.toNat % 0x800000

def overflows (bits : UInt32) : Bool :=
  let m := mantissa bits
  m != 0 && (34 < size bits || (0xff < m && 33 < size bits) || (0xffff < m && 32 < size bits))

def ofCompact (bits : UInt32) : CompactTarget where
  target :=
    if overflows bits then 0
    else if size bits ≤ 3 then mantissa bits >>> (8 * (3 - size bits))
    else mantissa bits <<< (8 * (size bits - 3))
  negative := mantissa bits != 0 && signBit bits
  overflow := overflows bits

def byteLength (n : Nat) : Nat :=
  if n = 0 then 0 else n.log2 / 8 + 1

/-- The compact form of the largest number not above `target` that has one. -/
def toCompact (target : Nat) : UInt32 :=
  let size := byteLength target
  let leading :=
    if size ≤ 3 then target <<< (8 * (3 - size)) else target >>> (8 * (size - 3))
  if leading < 0x800000 then UInt32.ofNat (size * 0x1000000 + leading)
  else UInt32.ofNat ((size + 1) * 0x1000000 + leading / 256)

/-- The target of a compact form, if it is positive and no easier than the limit. -/
def derive? (bits : UInt32) (limit : Nat) : Option Nat :=
  let decoded := ofCompact bits
  if decoded.negative || decoded.overflow || decoded.target == 0 || limit < decoded.target then
    none
  else some decoded.target

/-- Whether a hash does the work that a compact form asks for. -/
def isMet (hash : Hash) (bits : UInt32) (limit : Nat) : Bool :=
  match derive? bits limit with
  | some target => hash.toNat ≤ target
  | none => false

def max : Nat := 1 <<< 256 - 1

/-- The expected number of hashes until a target is met: the numbers of 256 bits over those
not above the target. It is computed from the numbers above the target, so that no
intermediate result needs a 257th bit. -/
def work (bits : UInt32) : Nat :=
  let decoded := ofCompact bits
  if decoded.negative || decoded.overflow || decoded.target == 0 then 0
  else (max - decoded.target) / (decoded.target + 1) + 1

end Target

end ScryptLedger
