import ScryptLedger.Chain.Basic
import ScryptLedger.Json.Basic
import ScryptLedger.Snapshot.Records

/-!
# Snapshot files

A snapshot holds the coins left by the blocks up to a base block: a mark, a
version, the network, the base block's identity, the number of coins, and their
records. It can be taken at the tip, or at the latest of the network's fixed
heights, which is reached by undoing the blocks above it.
-/

namespace ScryptLedger

inductive SnapshotError where
  | invalidType (name : String)
  | pathExists (path : String)
  | noRollbackTarget (tip : Nat)
  | malformed (error : WireError)
  | networkMismatch
  | hashMismatch
deriving DecidableEq, Repr

def SnapshotError.message : SnapshotError → String
  | invalidType name =>
    "Invalid snapshot type \"" ++ name
      ++ "\" specified. Please specify \"rollback\" or \"latest\""
  | pathExists path => path ++ " already exists"
  | noRollbackTarget tip => s!"No assumeutxo height at or below the tip at height {tip}"
  | malformed error => "Malformed snapshot: " ++ error.message
  | networkMismatch => "Snapshot was taken on a different network"
  | hashMismatch => "Snapshot content hash mismatch"

namespace Snapshot

def mark : Bytes := [0x75, 0x74, 0x78, 0x6f, 0xff]

def version : Nat := 2

inductive Mode where
  | latest
  | rollback
deriving DecidableEq, Repr

def Mode.ofName (name : String) : Except SnapshotError Mode :=
  if name = "latest" then return .latest
  else if name = "rollback" then return .rollback
  else throw (.invalidType name)

def Mode.height (mode : Mode) (chain : Chain) : Except SnapshotError Nat :=
  match mode with
  | .latest => return chain.height
  | .rollback =>
    match chain.rules.params.rollbackHeight? chain.height with
    | some height => return height
    | none => throw (.noRollbackTarget chain.height)

/-- What a snapshot says before its records. -/
def header (params : ChainParams) (base : Hash) (count : Nat) : Bytes :=
  mark ++ littleEndian 2 version ++ params.diskMagic ++ base.bytes ++ littleEndian 8 count

def encode (params : ChainParams) (base : Hash) (coins : CoinSet) : Bytes :=
  header params base coins.size ++ records coins

/-- What is told about a snapshot that was written. -/
structure Info where
  coinsWritten : Nat
  baseHeight : Nat
  baseHash : Hash
  path : String
  contentHash : Hash
  /-- The transactions in the chain up to the base block. -/
  chainTxCount : Nat
deriving DecidableEq, Repr

def Info.json (info : Info) : Json :=
  .ofFields [
    ("coins_written", .ofInt info.coinsWritten),
    ("base_height", .ofInt info.baseHeight),
    ("base_hash", .ofText info.baseHash.display),
    ("path", .ofText info.path),
    ("txoutset_hash", .ofText info.contentHash.display),
    ("nchaintx", .ofInt info.chainTxCount)]

variable [Primitives]

/-- The snapshot of a chain in a mode given by name, for a path where nothing may be yet. -/
def dump (chain : Chain) (path : String) (isTaken : Bool) (modeName : String) :
    Except SnapshotError (Info × Bytes) := do
  let mode ← Mode.ofName modeName
  if isTaken then throw (.pathExists path)
  let height ← mode.height chain
  match chain.entryAt? height, chain.coinsAt? height with
  | some base, some coins =>
    return (⟨coins.size, height, base.hash, path, contentHash coins, chain.txCountAt height⟩,
      encode chain.rules.params base.hash coins)
  | _, _ => throw (.noRollbackTarget height)

structure Loaded where
  base : Hash
  coins : CoinSet
  /-- The hash of the records as they stand in the file. -/
  contentHash : Hash

omit [Primitives] in
/-- Compares the hash of the records with the one a snapshot should have. -/
def Loaded.verify (loaded : Loaded) (expected : Hash) : Except SnapshotError Unit :=
  if loaded.contentHash = expected then return else throw .hashMismatch

omit [Primitives] in
/-- What stands before the records: the base block and the number of coins, or the news that the
file belongs to another network. -/
def headerDecoder (params : ChainParams) : Decoder (Option (Hash × Nat)) := do
  if (← Decoder.take mark.length) ≠ mark then throw .badMagic
  let found ← Decoder.uint16
  if found.toNat ≠ version then throw (.unsupportedVersion found.toNat)
  if (← Decoder.take 4) ≠ params.diskMagic then return none
  let base ← Decoder.hash
  let count ← Decoder.uint64
  return some (base, count.toNat)

/-- Reads a snapshot of a network. A later record replaces an earlier one for the same
outpoint. -/
def load (bytes : Bytes) (params : ChainParams) : Except SnapshotError Loaded :=
  match (headerDecoder params).apply bytes with
  | (.error error, _) => throw (.malformed error)
  | (.ok none, _) => throw .networkMismatch
  | (.ok (some (base, count)), rest) =>
    match (recordDecoder.replicate count).whole rest with
    | .error error => throw (.malformed error)
    | .ok entries =>
      return ⟨base, entries.foldl (fun coins (outpoint, coin) => coins.insert outpoint coin) ∅,
        sha256d rest⟩

end Snapshot

end ScryptLedger
