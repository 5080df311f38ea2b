import ScryptLedger.Params

/-!
# New money

What a block may create. On the private network the subsidy halves at fixed
heights until nothing is left. On the others it is drawn at random before the
digishield height, from a generator seeded with the parent's hash; then it
halves a few times, and stays at a fixed amount for ever.
-/

namespace ScryptLedger

/-- A Mersenne twister of 624 words. -/
structure Twister where
  words : Array UInt32
  used : Nat

namespace Twister

/-- How many words the generator mixes at a time. -/
def size : Nat := 624

def ofSeed (seed : UInt32) : Twister where
  words := Nat.fold (size - 1) (fun i _ words =>
    let last := words.getD i 0
    words.push ((1812433253 : UInt32) * (last ^^^ (last >>> 30)) + UInt32.ofNat (i + 1))) #[seed]
  used := size

/-- Mixes all words, each with two later ones. -/
def twist (words : Array UInt32) : Array UInt32 :=
  Nat.fold size (fun i _ words =>
    let joined := (words.getD i 0 &&& 0x80000000) ||| (words.getD ((i + 1) % size) 0 &&& 0x7fffffff)
    let odd : UInt32 := if joined &&& 1 = 0 then 0 else 0x9908b0df
    words.setIfInBounds i (words.getD ((i + 397) % size) 0 ^^^ (joined >>> 1) ^^^ odd)) words

/-- Spreads the bits of a word that is given out. -/
def temper (word : UInt32) : UInt32 :=
  let y := word ^^^ (word >>> 11)
  let y := y ^^^ ((y <<< 7) &&& 0x9d2c5680)
  let y := y ^^^ ((y <<< 15) &&& 0xefc60000)
  y ^^^ (y >>> 18)

def next (twister : Twister) : UInt32 × Twister :=
  let ready := if twister.used < size then twister else ⟨twist twister.words, 0⟩
  (temper (ready.words.getD ready.used 0), { ready with used := ready.used + 1 })

end Twister

namespace UniformDraw

/-- How many of the words each of `range + 1` results gets: the words are cut into that many
equal parts, and the few that are left over belong to none. -/
def bucketSize (range : Nat) : Nat :=
  let buckets := range + 1
  0xffffffff / buckets + if 0xffffffff % buckets = range then 1 else 0

/-- The result a word stands for, unless it is left over. -/
def result? (low high : Nat) (word : UInt32) : Option Nat :=
  let result := word.toNat / bucketSize (high - low)
  if result ≤ high - low then some (result + low) else none

/-- The first result among the next `tries` words. -/
def draw? (low high : Nat) : (tries : Nat) → Twister → Option Nat
  | 0, _ => none
  | tries + 1, twister =>
    let (word, twister) := twister.next
    match result? low high word with
    | some result => some result
    | none => draw? low high tries twister

end UniformDraw

namespace Subsidy

/-- The seed that the parent's hash gives: seven digits of its displayed form, from the eighth
on. -/
def seed (previous : Hash) : UInt32 :=
  UInt32.ofNat (ofBigEndian ((previous.bytes.reverse.drop 3).take 4) % 0x10000000)

/-- How many words a draw looks at. At least half of all words give a result, so that no draw
comes near to using them up. -/
def drawTries : Nat := 1000000

def drawn (previous : Hash) (most : Nat) : Int :=
  ((UniformDraw.draw? 1 most drawTries (Twister.ofSeed (seed previous))).getD 1 : Nat)

/-- What a block at a height, on a given parent, may create. -/
def ofBlock (height : Nat) (params : ChainParams) (previous : Hash) : Int :=
  let halvings := height / params.halvingInterval
  if params.network = .regtest then
    if 64 ≤ halvings then 0 else (50 * unitsPerCoin) >>> halvings
  else if !params.isDigishield height then
    let most := 1000000 >>> min halvings 31 - 1
    if most < 1 then unitsPerCoin else (1 + drawn previous most) * unitsPerCoin
  else if halvings < 6 then (500000 * unitsPerCoin) >>> halvings
  else 10000 * unitsPerCoin

/-- The most a block at a height may create, whatever its parent. -/
def largest (height : Nat) (params : ChainParams) : Int :=
  let halvings := height / params.halvingInterval
  if params.network ≠ .regtest ∧ !params.isDigishield height then
    (1000000 >>> min halvings 31 : Nat) * unitsPerCoin
  else ofBlock height params Digest.zero

/-- So many hundredths of a reward, rounded toward zero. The word of the product is divided, so
that large rewards have shares that are too small, or negative. -/
def share (reward : Int) (ratio : Nat) : Int :=
  (Money.wrap (reward * ratio)).tdiv 100

def fundShare (reward : Int) (params : ChainParams) : Int :=
  share reward params.minerFundRatio

def stakingShare (reward : Int) (params : ChainParams) : Int :=
  share reward params.stakingRatio

end Subsidy

end ScryptLedger
