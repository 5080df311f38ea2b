import ScryptLedger.Digest.Sha256

/-!
# Scrypt

The memory-hard function with cost 1024, one block and no
parallelism. A buffer of 32 words is stretched from the input, mixed with 1024
of its own earlier values, and stretched back to 32 bytes. The proof of work
hashes a header with the header itself as salt.
-/

namespace ScryptLedger.Scrypt

/-- Sixteen words, the unit the Salsa20 core permutes. -/
structure Lane where
  x0 : UInt32
  x1 : UInt32
  x2 : UInt32
  x3 : UInt32
  x4 : UInt32
  x5 : UInt32
  x6 : UInt32
  x7 : UInt32
  x8 : UInt32
  x9 : UInt32
  x10 : UInt32
  x11 : UInt32
  x12 : UInt32
  x13 : UInt32
  x14 : UInt32
  x15 : UInt32
deriving Inhabited

/-- Adds two words, rotates the sum and mixes it into a third. -/
@[inline]
def stir (x y z : UInt32) (k : UInt32) : UInt32 :=
  let t := y + z
  x ^^^ ((t <<< k) ||| (t >>> (32 - k)))

/-- A column round followed by a row round. -/
def doubleRound (l : Lane) : Lane :=
  let ⟨x0, x1, x2, x3, x4, x5, x6, x7, x8, x9, x10, x11, x12, x13, x14, x15⟩ := l
  let x4 := stir x4 x0 x12 7
  let x8 := stir x8 x4 x0 9
  let x12 := stir x12 x8 x4 13
  let x0 := stir x0 x12 x8 18
  let x9 := stir x9 x5 x1 7
  let x13 := stir x13 x9 x5 9
  let x1 := stir x1 x13 x9 13
  let x5 := stir x5 x1 x13 18
  let x14 := stir x14 x10 x6 7
  let x2 := stir x2 x14 x10 9
  let x6 := stir x6 x2 x14 13
  let x10 := stir x10 x6 x2 18
  let x3 := stir x3 x15 x11 7
  let x7 := stir x7 x3 x15 9
  let x11 := stir x11 x7 x3 13
  let x15 := stir x15 x11 x7 18
  let x1 := stir x1 x0 x3 7
  let x2 := stir x2 x1 x0 9
  let x3 := stir x3 x2 x1 13
  let x0 := stir x0 x3 x2 18
  let x6 := stir x6 x5 x4 7
  let x7 := stir x7 x6 x5 9
  let x4 := stir x4 x7 x6 13
  let x5 := stir x5 x4 x7 18
  let x11 := stir x11 x10 x9 7
  let x8 := stir x8 x11 x10 9
  let x9 := stir x9 x8 x11 13
  let x10 := stir x10 x9 x8 18
  let x12 := stir x12 x15 x14 7
  let x13 := stir x13 x12 x15 9
  let x14 := stir x14 x13 x12 13
  let x15 := stir x15 x14 x13 18
  ⟨x0, x1, x2, x3, x4, x5, x6, x7, x8, x9, x10, x11, x12, x13, x14, x15⟩

def Lane.add (l m : Lane) : Lane :=
  ⟨l.x0 + m.x0, l.x1 + m.x1, l.x2 + m.x2, l.x3 + m.x3, l.x4 + m.x4, l.x5 + m.x5, l.x6 + m.x6,
    l.x7 + m.x7, l.x8 + m.x8, l.x9 + m.x9, l.x10 + m.x10, l.x11 + m.x11, l.x12 + m.x12,
    l.x13 + m.x13, l.x14 + m.x14, l.x15 + m.x15⟩

def Lane.xor (l m : Lane) : Lane :=
  ⟨l.x0 ^^^ m.x0, l.x1 ^^^ m.x1, l.x2 ^^^ m.x2, l.x3 ^^^ m.x3, l.x4 ^^^ m.x4, l.x5 ^^^ m.x5,
    l.x6 ^^^ m.x6, l.x7 ^^^ m.x7, l.x8 ^^^ m.x8, l.x9 ^^^ m.x9, l.x10 ^^^ m.x10, l.x11 ^^^ m.x11,
    l.x12 ^^^ m.x12, l.x13 ^^^ m.x13, l.x14 ^^^ m.x14, l.x15 ^^^ m.x15⟩

/-- The Salsa20/8 core. -/
def salsa (l : Lane) : Lane :=
  l.add (doubleRound (doubleRound (doubleRound (doubleRound l))))

/-- The two lanes of the one block this instance mixes. -/
structure Buffer where
  low : Lane
  high : Lane
deriving Inhabited

def Buffer.xor (b c : Buffer) : Buffer :=
  ⟨b.low.xor c.low, b.high.xor c.high⟩

/-- Both lanes through the core, each stirred by the other. -/
def Buffer.mix (b : Buffer) : Buffer :=
  let low := salsa (b.high.xor b.low)
  ⟨low, salsa (low.xor b.high)⟩

/-- Mixes `steps` times, keeping the values the buffer had before each. -/
def fill : (steps : Nat) → Array Buffer → Buffer → Array Buffer × Buffer
  | 0, kept, b => (kept, b)
  | steps + 1, kept, b => fill steps (kept.push b) b.mix

/-- Mixes `steps` times, each time with a kept value the buffer itself picks. -/
def drain (kept : Array Buffer) : (steps : Nat) → Buffer → Buffer
  | 0, b => b
  | steps + 1, b => drain kept steps (b.xor (kept.getD (b.high.x0.toNat % 1024) default)).mix

/-- Reads four little-endian bytes and passes on the rest. -/
@[inline]
def takeWord : Bytes → UInt32 × Bytes
  | a :: b :: c :: d :: rest =>
    (a.toUInt32 ||| (b.toUInt32 <<< 8) ||| (c.toUInt32 <<< 16) ||| (d.toUInt32 <<< 24), rest)
  | _ => (0, [])

def takeLane (bytes : Bytes) : Lane × Bytes :=
  let (x0, bytes) := takeWord bytes
  let (x1, bytes) := takeWord bytes
  let (x2, bytes) := takeWord bytes
  let (x3, bytes) := takeWord bytes
  let (x4, bytes) := takeWord bytes
  let (x5, bytes) := takeWord bytes
  let (x6, bytes) := takeWord bytes
  let (x7, bytes) := takeWord bytes
  let (x8, bytes) := takeWord bytes
  let (x9, bytes) := takeWord bytes
  let (x10, bytes) := takeWord bytes
  let (x11, bytes) := takeWord bytes
  let (x12, bytes) := takeWord bytes
  let (x13, bytes) := takeWord bytes
  let (x14, bytes) := takeWord bytes
  let (x15, bytes) := takeWord bytes
  (⟨x0, x1, x2, x3, x4, x5, x6, x7, x8, x9, x10, x11, x12, x13, x14, x15⟩, bytes)

def Lane.toBytes (l : Lane) : Bytes :=
  [l.x0, l.x1, l.x2, l.x3, l.x4, l.x5, l.x6, l.x7, l.x8, l.x9, l.x10, l.x11, l.x12, l.x13, l.x14,
    l.x15].flatMap bytesOfWord

/-- Stretches a password and salt to `blocks` digests. -/
def stretch (password salt : Bytes) (blocks : Nat) : Bytes :=
  (List.range blocks).flatMap fun i => (Sha256.hmac password (salt ++ bigEndian 4 (i + 1))).bytes

/-- The 32-byte scrypt hash of an input salted with itself. -/
def hash (input : Bytes) : Hash :=
  let (low, rest) := takeLane (stretch input input 4)
  let (high, _) := takeLane rest
  let (kept, filled) := fill 1024 (Array.emptyWithCapacity 1024) ⟨low, high⟩
  let mixed := drain kept 1024 filled
  Sha256.hmac input (mixed.low.toBytes ++ mixed.high.toBytes ++ bigEndian 4 1)

end ScryptLedger.Scrypt
