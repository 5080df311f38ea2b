import ScryptLedger.Hash

/-!
# RIPEMD-160

Two parallel lines of 80 rounds over the same block of sixteen little-endian
words, joined at the end of each block.
-/

namespace ScryptLedger.Ripemd160

/-- Which word of the block each round of the left line reads. -/
def leftOrder : Array Nat := #[
  0, 1, 2, 3, 4, 5, 6, 7, 8, 9, 10, 11, 12, 13, 14, 15,
  7, 4, 13, 1, 10, 6, 15, 3, 12, 0, 9, 5, 2, 14, 11, 8,
  3, 10, 14, 4, 9, 15, 8, 1, 2, 7, 0, 6, 13, 11, 5, 12,
  1, 9, 11, 10, 0, 8, 12, 4, 13, 3, 7, 15, 14, 5, 6, 2,
  4, 0, 5, 9, 7, 12, 2, 10, 14, 1, 3, 8, 11, 6, 15, 13]

def rightOrder : Array Nat := #[
  5, 14, 7, 0, 9, 2, 11, 4, 13, 6, 15, 8, 1, 10, 3, 12,
  6, 11, 3, 7, 0, 13, 5, 10, 14, 15, 8, 12, 4, 9, 1, 2,
  15, 5, 1, 3, 7, 14, 6, 9, 11, 8, 12, 2, 10, 0, 4, 13,
  8, 6, 4, 1, 3, 11, 15, 0, 5, 12, 2, 13, 9, 7, 10, 14,
  12, 15, 10, 4, 1, 5, 8, 7, 6, 2, 13, 14, 0, 3, 9, 11]

/-- The rotation of each round of the left line. -/
def leftShift : Array UInt32 := #[
  11, 14, 15, 12, 5, 8, 7, 9, 11, 13, 14, 15, 6, 7, 9, 8,
  7, 6, 8, 13, 11, 9, 7, 15, 7, 12, 15, 9, 11, 7, 13, 12,
  11, 13, 6, 7, 14, 9, 13, 15, 14, 8, 13, 6, 5, 12, 7, 5,
  11, 12, 14, 15, 14, 15, 9, 8, 9, 14, 5, 6, 8, 6, 5, 12,
  9, 15, 5, 11, 6, 8, 13, 12, 5, 12, 13, 14, 11, 8, 5, 6]

def rightShift : Array UInt32 := #[
  8, 9, 9, 11, 13, 15, 15, 5, 7, 7, 8, 11, 14, 14, 12, 6,
  9, 13, 15, 7, 12, 8, 9, 11, 7, 7, 12, 7, 6, 15, 13, 11,
  9, 7, 15, 11, 8, 6, 6, 14, 12, 13, 5, 14, 13, 13, 7, 5,
  15, 5, 8, 11, 14, 14, 6, 14, 6, 9, 12, 9, 12, 5, 15, 8,
  8, 5, 12, 9, 12, 5, 14, 6, 8, 13, 6, 5, 15, 13, 11, 11]

/-- The constants of the five groups of rounds, for either line. -/
def leftConstant : Array UInt32 := #[0x00000000, 0x5a827999, 0x6ed9eba1, 0x8f1bbcdc, 0xa953fd4e]

def rightConstant : Array UInt32 := #[0x50a28be6, 0x5c4dd124, 0x6d703ef3, 0x7a6d76e9, 0x00000000]

/-- The five words of one line, or of the chain. -/
structure State where
  a : UInt32
  b : UInt32
  c : UInt32
  d : UInt32
  e : UInt32

def State.initial : State :=
  ⟨0x67452301, 0xefcdab89, 0x98badcfe, 0x10325476, 0xc3d2e1f0⟩

@[inline]
def rotateLeft (x : UInt32) (k : UInt32) : UInt32 :=
  (x <<< k) ||| (x >>> (32 - k))

/-- The boolean function of a group of rounds. -/
@[inline]
def mixing (group : Nat) (x y z : UInt32) : UInt32 :=
  match group with
  | 0 => x ^^^ y ^^^ z
  | 1 => (x &&& y) ||| ((~~~x) &&& z)
  | 2 => (x ||| ~~~y) ^^^ z
  | 3 => (x &&& z) ||| (y &&& ~~~z)
  | _ => x ^^^ (y ||| ~~~z)

@[inline]
def round (s : State) (group : Nat) (word constant shift : UInt32) : State :=
  let t := rotateLeft (s.a + mixing group s.b s.c s.d + word + constant) shift + s.e
  ⟨s.e, t, s.b, rotateLeft s.c 10, s.d⟩

/-- Folds the block of sixteen words that starts at `start` into the state. -/
def compress (s : State) (message : Array UInt32) (start : Nat) : State :=
  let left := Nat.fold 80 (fun i _ l =>
    round l (i / 16) (message.getD (start + leftOrder.getD i 0) 0)
      (leftConstant.getD (i / 16) 0) (leftShift.getD i 0)) s
  let right := Nat.fold 80 (fun i _ r =>
    round r (4 - i / 16) (message.getD (start + rightOrder.getD i 0) 0)
      (rightConstant.getD (i / 16) 0) (rightShift.getD i 0)) s
  ⟨s.b + left.c + right.d, s.c + left.d + right.e, s.d + left.e + right.a,
    s.e + left.a + right.b, s.a + left.b + right.c⟩

def wordsOnto (words : Array UInt32) : Bytes → Array UInt32
  | a :: b :: c :: d :: rest =>
    let word := a.toUInt32 ||| (b.toUInt32 <<< 8) ||| (c.toUInt32 <<< 16) ||| (d.toUInt32 <<< 24)
    wordsOnto (words.push word) rest
  | _ => words

/-- One bit, zeros, and the length in bits as a little-endian word: whole blocks. -/
def pad (message : Bytes) : Bytes :=
  let length := message.length
  message ++ 0x80 :: (List.replicate ((119 - length % 64) % 64) 0 ++ littleEndian 8 (8 * length))

def hash (message : Bytes) : Hash160 :=
  let words := wordsOnto #[] (pad message)
  let s := Nat.fold (words.size / 16) (fun i _ s => compress s words (16 * i)) State.initial
  ⟨bytesOfWord s.a ++ bytesOfWord s.b ++ bytesOfWord s.c ++ bytesOfWord s.d ++ bytesOfWord s.e,
    rfl⟩

end ScryptLedger.Ripemd160
