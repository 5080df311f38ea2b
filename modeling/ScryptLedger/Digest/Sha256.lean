import ScryptLedger.Hash

/-!
# SHA-256

The 32-byte hash of a byte string, and its keyed form (HMAC). Messages are
padded to whole blocks of sixteen big-endian words and folded block by block
into eight chaining words.
-/

namespace ScryptLedger.Sha256

/-- The fractional parts of the cube roots of the first 64 primes. -/
def roundConstants : Array UInt32 := #[
  0x428a2f98, 0x71374491, 0xb5c0fbcf, 0xe9b5dba5, 0x3956c25b, 0x59f111f1, 0x923f82a4, 0xab1c5ed5,
  0xd807aa98, 0x12835b01, 0x243185be, 0x550c7dc3, 0x72be5d74, 0x80deb1fe, 0x9bdc06a7, 0xc19bf174,
  0xe49b69c1, 0xefbe4786, 0x0fc19dc6, 0x240ca1cc, 0x2de92c6f, 0x4a7484aa, 0x5cb0a9dc, 0x76f988da,
  0x983e5152, 0xa831c66d, 0xb00327c8, 0xbf597fc7, 0xc6e00bf3, 0xd5a79147, 0x06ca6351, 0x14292967,
  0x27b70a85, 0x2e1b2138, 0x4d2c6dfc, 0x53380d13, 0x650a7354, 0x766a0abb, 0x81c2c92e, 0x92722c85,
  0xa2bfe8a1, 0xa81a664b, 0xc24b8b70, 0xc76c51a3, 0xd192e819, 0xd6990624, 0xf40e3585, 0x106aa070,
  0x19a4c116, 0x1e376c08, 0x2748774c, 0x34b0bcb5, 0x391c0cb3, 0x4ed8aa4a, 0x5b9cca4f, 0x682e6ff3,
  0x748f82ee, 0x78a5636f, 0x84c87814, 0x8cc70208, 0x90befffa, 0xa4506ceb, 0xbef9a3f7, 0xc67178f2]

structure State where
  a : UInt32
  b : UInt32
  c : UInt32
  d : UInt32
  e : UInt32
  f : UInt32
  g : UInt32
  h : UInt32

def State.initial : State :=
  ⟨0x6a09e667, 0xbb67ae85, 0x3c6ef372, 0xa54ff53a, 0x510e527f, 0x9b05688c, 0x1f83d9ab, 0x5be0cd19⟩

@[inline]
def rotateRight (x : UInt32) (k : UInt32) : UInt32 :=
  (x >>> k) ||| (x <<< (32 - k))

/-- One round, with its schedule word and constant already added. -/
@[inline]
def round (s : State) (word : UInt32) : State :=
  let choice := (s.e &&& s.f) ^^^ ((~~~s.e) &&& s.g)
  let majority := (s.a &&& s.b) ^^^ (s.a &&& s.c) ^^^ (s.b &&& s.c)
  let sigma0 := rotateRight s.a 2 ^^^ rotateRight s.a 13 ^^^ rotateRight s.a 22
  let sigma1 := rotateRight s.e 6 ^^^ rotateRight s.e 11 ^^^ rotateRight s.e 25
  let t := s.h + sigma1 + choice + word
  ⟨t + sigma0 + majority, s.a, s.b, s.c, s.d + t, s.e, s.f, s.g⟩

/-- Appends the next schedule word to the words so far. -/
@[inline]
def extend (words : Array UInt32) : Array UInt32 :=
  let at_ (back : Nat) : UInt32 := words.getD (words.size - back) 0
  let x := at_ 15
  let y := at_ 2
  let small0 := rotateRight x 7 ^^^ rotateRight x 18 ^^^ (x >>> 3)
  let small1 := rotateRight y 17 ^^^ rotateRight y 19 ^^^ (y >>> 10)
  words.push (at_ 16 + small0 + at_ 7 + small1)

/-- Folds the block of sixteen words that starts at `start` into the state. -/
def compress (s : State) (message : Array UInt32) (start : Nat) : State :=
  let schedule := Nat.fold 48 (fun _ _ words => extend words) (message.extract start (start + 16))
  let r := Nat.fold 64 (fun i _ s => round s (schedule.getD i 0 + roundConstants.getD i 0)) s
  ⟨s.a + r.a, s.b + r.b, s.c + r.c, s.d + r.d, s.e + r.e, s.f + r.f, s.g + r.g, s.h + r.h⟩

/-- A big-endian word. -/
@[inline]
def word (a b c d : UInt8) : UInt32 :=
  (a.toUInt32 <<< 24) ||| (b.toUInt32 <<< 16) ||| (c.toUInt32 <<< 8) ||| d.toUInt32

def wordsOnto (words : Array UInt32) : Bytes → Array UInt32
  | a :: b :: c :: d :: rest => wordsOnto (words.push (word a b c d)) rest
  | _ => words

/-- One bit, zeros, and the length in bits as 64-bit word: whole blocks. -/
def pad (message : Bytes) : Bytes :=
  let length := message.length
  message ++ 0x80 :: (List.replicate ((119 - length % 64) % 64) 0 ++ bigEndian 8 (8 * length))

def bytesOf (x : UInt32) : Bytes :=
  [(x >>> 24).toUInt8, (x >>> 16).toUInt8, (x >>> 8).toUInt8, x.toUInt8]

def State.digest (s : State) : Hash :=
  ⟨bytesOf s.a ++ bytesOf s.b ++ bytesOf s.c ++ bytesOf s.d
    ++ bytesOf s.e ++ bytesOf s.f ++ bytesOf s.g ++ bytesOf s.h, rfl⟩

def hash (message : Bytes) : Hash :=
  let words := wordsOnto #[] (pad message)
  (Nat.fold (words.size / 16) (fun i _ s => compress s words (16 * i)) State.initial).digest

/-- The keyed digest of a message; keys longer than a block are hashed first. -/
def hmac (key message : Bytes) : Hash :=
  let short := if key.length ≤ 64 then key else (hash key).bytes
  let block := short ++ List.replicate (64 - short.length) 0
  let inner := hash (block.map (· ^^^ 0x36) ++ message)
  hash (block.map (· ^^^ 0x5c) ++ inner.bytes)

end ScryptLedger.Sha256
