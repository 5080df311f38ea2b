import ScryptLedger.Hex

/-!
# Hashes

A digest carries its length in its type, so that every place that stores one
knows how many bytes it occupies. Hashes are kept in wire order, and ordered
byte by byte in that order. People read them with the bytes reversed; that form
appears only in `Hash.display` and `Hash.ofDisplay?`.
-/

namespace ScryptLedger

/-- A byte string of a fixed length. -/
structure Digest (size : Nat) where
  bytes : Bytes
  length_bytes : bytes.length = size
deriving DecidableEq, Repr

/-- The 32 bytes that name a transaction or a block. -/
abbrev Hash := Digest 32

abbrev Hash160 := Digest 20

namespace Digest

variable {size : Nat}

theorem ext_bytes {a b : Digest size} (same : a.bytes = b.bytes) : a = b := by
  cases a; cases b; simp_all

def ofBytes? (bytes : Bytes) : Option (Digest size) :=
  if h : bytes.length = size then some ⟨bytes, h⟩ else none

def zero : Digest size :=
  ⟨List.replicate size 0, List.length_replicate⟩

/-- The digest of the first bytes of a string, filled up with zeros. -/
def ofBytes (bytes : Bytes) : Digest size :=
  ⟨bytes.take size ++ List.replicate (size - bytes.length) 0, by simp; omega⟩

def reverse (digest : Digest size) : Digest size :=
  ⟨digest.bytes.reverse, by rw [List.length_reverse, digest.length_bytes]⟩

/-- The digest as a number, first byte least significant. -/
def toNat (digest : Digest size) : Nat :=
  ofLittleEndian digest.bytes

instance : Inhabited (Digest size) := ⟨zero⟩

instance : Ord (Digest size) := ⟨fun a b => compare a.bytes b.bytes⟩

theorem compare_def (a b : Digest size) : compare a b = compare a.bytes b.bytes := rfl

instance : Std.TransOrd (Digest size) where
  eq_swap {a b} := by
    simp only [compare_def]
    exact Std.OrientedOrd.eq_swap
  isLE_trans {a b c} := by
    simp only [compare_def]
    exact Std.TransOrd.isLE_trans

instance : Std.LawfulEqOrd (Digest size) where
  compare_self {a} := by simp
  eq_of_compare {a b} same := ext_bytes (by simpa [compare_def] using same)

end Digest

namespace Hash

instance : Std.TransOrd Hash :=
  inferInstanceAs (Std.TransOrd (Digest 32))

/-- The text people read: the bytes in reverse, in hexadecimal. -/
def display (hash : Hash) : String :=
  Hex.encode hash.bytes.reverse

def ofDisplay? (text : String) : Option Hash :=
  (Hex.decode? text).bind fun bytes => Digest.ofBytes? bytes.reverse

end Hash

end ScryptLedger
