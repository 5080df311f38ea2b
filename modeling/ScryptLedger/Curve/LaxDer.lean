import ScryptLedger.Curve.Point

/-!
# Leniently read ECDSA signatures

A signature is a tagged pair of integers. The lenient reader asks for the tags
and for lengths that fit, and forgives the rest: the outer length is not
compared with anything, lengths may be written in more bytes than needed,
integers may be padded with zeros, and bytes after the second integer are
ignored. An integer that is too large for the curve's order turns the whole
signature into the pair of zeros, which is readable and never valid.
-/

namespace ScryptLedger.Curve

structure Signature where
  r : Nat
  s : Nat
deriving DecidableEq

namespace Signature

/-- Drops the outer length, which is one byte or a count of further bytes. -/
def skipLength? : Bytes → Option Bytes
  | [] => none
  | first :: rest =>
    if first < 0x80 then some rest
    else
      let extra := first.toNat - 0x80
      if rest.length < extra then none else some (rest.drop extra)

/-- Reads the length of an integer and passes on the rest. -/
def readLength? : Bytes → Option (Nat × Bytes)
  | [] => none
  | first :: rest =>
    if first < 0x80 then some (first.toNat, rest)
    else
      let extra := first.toNat - 0x80
      if rest.length < extra then none
      else
        let digits := (rest.take extra).dropWhile (· == 0)
        if digits.length < 8 then some (ofBigEndian digits, rest.drop extra) else none

/-- Reads a tagged integer, without its leading zeros, and passes on the rest. -/
def readInteger? : Bytes → Option (Bytes × Bytes)
  | [] => none
  | tag :: rest =>
    if tag = 0x02 then
      (readLength? rest).bind fun (length, body) =>
        if body.length < length then none
        else some ((body.take length).dropWhile (· == 0), body.drop length)
    else none

/-- The pair of integers, or zeros when one of them is out of range. -/
def ofDigits (r s : Bytes) : Signature :=
  if r.length ≤ 32 ∧ s.length ≤ 32 ∧ ofBigEndian r < order ∧ ofBigEndian s < order then
    ⟨ofBigEndian r, ofBigEndian s⟩
  else ⟨0, 0⟩

/-- The signature a byte string holds, read leniently. -/
def ofLaxDer? : Bytes → Option Signature
  | [] => none
  | tag :: rest =>
    if tag = 0x30 then
      (skipLength? rest).bind fun body =>
        (readInteger? body).bind fun (r, body) =>
          (readInteger? body).map fun (s, _) => ofDigits r s
    else none

/-- Whether the second integer lies in the lower half of the order. -/
def isLow (signature : Signature) : Bool :=
  signature.s ≤ order / 2

def normalize (signature : Signature) : Signature :=
  if signature.isLow then signature else { signature with s := order - signature.s }

end Signature

end ScryptLedger.Curve
