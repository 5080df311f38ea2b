import ScryptLedger.Coin
import ScryptLedger.Transaction.Codec

/-!
# Coin records

A coin set is written as one record a coin, in the order of outpoints, so that
equal sets have equal records and the hash of the records stands for the set.
-/

namespace ScryptLedger.Snapshot

/-- The height and the origin of a coin in one number. -/
def originCode (coin : Coin) : Nat :=
  2 * coin.height + if coin.isCoinbase then 1 else 0

def record (entry : OutPoint × Coin) : Bytes :=
  let (outpoint, coin) := entry
  outpoint.encode ++ Wire.compactSize (originCode coin) ++ bytesOfInt64 coin.value
    ++ Wire.sizedBytes coin.scriptPubKey

def records (coins : CoinSet) : Bytes :=
  coins.toList.flatMap record

/-- The hash that stands for a coin set. -/
def contentHash [Primitives] (coins : CoinSet) : Hash :=
  sha256d (records coins)

/-- Reads one record. The height has to fit in a word. -/
def recordDecoder : Decoder (OutPoint × Coin) := do
  let outpoint ← OutPoint.decoder
  let code ← Decoder.size
  if code / 2 ≥ UInt32.size then throw (.oversized code)
  let value ← Decoder.int64
  let script ← Decoder.sizedBytes
  return (outpoint, ⟨value, script, code / 2, code % 2 == 1⟩)

end ScryptLedger.Snapshot
