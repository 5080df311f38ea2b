/-!
# Byte strings

Byte strings are lists of bytes. Numbers enter and leave them least
significant byte first, in a width the caller names; the two directions are
`littleEndian` and `ofLittleEndian`. Big-endian forms exist only for the hash
functions and the curve, where their standards ask for them.
-/

namespace ScryptLedger

/-- A byte string, first byte first. -/
abbrev Bytes := List UInt8

/-- The low `width` bytes of `value`, least significant first. -/
def littleEndian : (width value : Nat) → Bytes
  | 0, _ => []
  | width + 1, value => UInt8.ofNat value :: littleEndian width (value / 256)

def ofLittleEndian : Bytes → Nat
  | [] => 0
  | b :: rest => b.toNat + 256 * ofLittleEndian rest

def bigEndian (width value : Nat) : Bytes :=
  (littleEndian width value).reverse

def ofBigEndian (bytes : Bytes) : Nat :=
  bytes.foldl (fun value b => 256 * value + b.toNat) 0

/-- Four bytes of an unsigned word, least significant first. -/
def bytesOfWord (word : UInt32) : Bytes :=
  littleEndian 4 word.toNat

/-- Four bytes of a signed word in two's complement. -/
def bytesOfInt32 (word : Int32) : Bytes :=
  bytesOfWord word.toUInt32

def bytesOfInt64 (word : Int64) : Bytes :=
  littleEndian 8 word.toUInt64.toNat

@[simp]
theorem length_littleEndian (width value : Nat) :
    (littleEndian width value).length = width := by
  induction width generalizing value with
  | zero => rfl
  | succ width ih => simp [littleEndian, ih]

theorem ofLittleEndian_littleEndian (width value : Nat) :
    ofLittleEndian (littleEndian width value) = value % 1 <<< (8 * width) := by
  induction width generalizing value with
  | zero => simp [littleEndian, ofLittleEndian, Nat.mod_one]
  | succ width ih =>
    have wider : 1 <<< (8 * (width + 1)) = 256 * 1 <<< (8 * width) := by
      rw [Nat.shiftLeft_eq, Nat.shiftLeft_eq, Nat.mul_add, Nat.pow_add]
      omega
    simp only [littleEndian, ofLittleEndian, ih]
    rw [wider, Nat.mod_mul]
    simp

end ScryptLedger
