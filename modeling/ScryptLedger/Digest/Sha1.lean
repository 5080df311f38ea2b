import ScryptLedger.Digest.Sha256

/-!
# SHA-1

The older 20-byte digest. It shares padding and word order with
SHA-256 and differs in the schedule and the rounds.
-/

namespace ScryptLedger.Sha1

structure State where
  a : UInt32
  b : UInt32
  c : UInt32
  d : UInt32
  e : UInt32

def State.initial : State :=
  ⟨0x67452301, 0xefcdab89, 0x98badcfe, 0x10325476, 0xc3d2e1f0⟩

@[inline]
def rotateLeft (x : UInt32) (k : UInt32) : UInt32 :=
  (x <<< k) ||| (x >>> (32 - k))

/-- The mixing function and constant of round `i`. -/
@[inline]
def mixing (i : Nat) (b c d : UInt32) : UInt32 :=
  if i < 20 then ((b &&& c) ||| ((~~~b) &&& d)) + 0x5a827999
  else if i < 40 then (b ^^^ c ^^^ d) + 0x6ed9eba1
  else if i < 60 then ((b &&& c) ||| (b &&& d) ||| (c &&& d)) + 0x8f1bbcdc
  else (b ^^^ c ^^^ d) + 0xca62c1d6

def extend (words : Array UInt32) : Array UInt32 :=
  let at_ (back : Nat) : UInt32 := words.getD (words.size - back) 0
  words.push (rotateLeft (at_ 3 ^^^ at_ 8 ^^^ at_ 14 ^^^ at_ 16) 1)

def compress (s : State) (message : Array UInt32) (start : Nat) : State :=
  let schedule := Nat.fold 64 (fun _ _ words => extend words) (message.extract start (start + 16))
  let r := Nat.fold 80 (fun i _ s =>
    let t := rotateLeft s.a 5 + mixing i s.b s.c s.d + s.e + schedule.getD i 0
    (⟨t, s.a, rotateLeft s.b 30, s.c, s.d⟩ : State)) s
  ⟨s.a + r.a, s.b + r.b, s.c + r.c, s.d + r.d, s.e + r.e⟩

def hash (message : Bytes) : Hash160 :=
  let words := Sha256.wordsOnto #[] (Sha256.pad message)
  let s := Nat.fold (words.size / 16) (fun i _ s => compress s words (16 * i)) State.initial
  ⟨Sha256.bytesOf s.a ++ Sha256.bytesOf s.b ++ Sha256.bytesOf s.c ++ Sha256.bytesOf s.d
    ++ Sha256.bytesOf s.e, rfl⟩

end ScryptLedger.Sha1
