import ScryptLedger.Script.Push
import ScryptLedger.Transaction.Codec

/-!
# What a signature signs

A signature covers a digest of the transaction that spends with it; the hash
type chooses which parts. The older digest hashes the transaction itself with
the parts that are not covered blanked out. The replay-protected digest hashes
a summary that names the amount spent; the summary's parts that do not depend
on the input are the transaction's midstate.
-/

namespace ScryptLedger

/-- What a signature covers: a word whose low bits choose the outputs. -/
structure SighashType where
  value : UInt32
deriving DecidableEq, Repr

namespace SighashType

/-- The choice of outputs: 2 covers none, 3 the one at the input's own index, all else all. -/
def base (type : SighashType) : UInt32 := type.value &&& 0x1f

/-- Whether the replay-protected digest is asked for. -/
def hasForkId (type : SighashType) : Bool := type.value &&& 0x40 != 0

/-- Whether only the input itself is covered, so that others may be added. -/
def anyoneCanPay (type : SighashType) : Bool := type.value &&& 0x80 != 0

def coversNone (type : SighashType) : Bool := type.base == 2

def coversSingle (type : SighashType) : Bool := type.base == 3

/-- Whether the type is one of the three choices, up to its two switches. -/
def isDefined (type : SighashType) : Bool :=
  let choice := type.value &&& ~~~0xc0
  1 ≤ choice && choice ≤ 3

end SighashType

namespace Sighash

/-- An output that no one can claim, in the place of one that is not covered. -/
def blankOutput : TxOutput := ⟨-1, []⟩

/-- The transaction with the parts that are not covered blanked out, and the script that is
being run in the place of the input's own. -/
def masked (tx : Transaction) (index : Nat) (code : Bytes) (type : SighashType) : Transaction :=
  let blankOthers := type.coversNone || type.coversSingle
  let inputs := tx.inputs.mapIdx fun i input =>
    if i = index then { input with scriptSig := code }
    else { input with scriptSig := [], sequence := if blankOthers then 0 else input.sequence }
  let outputs :=
    if type.coversNone then []
    else if type.coversSingle then
      List.replicate index blankOutput ++ (tx.outputs.drop index).take 1
    else tx.outputs
  { tx with
    inputs := if type.anyoneCanPay then (inputs.drop index).take 1 else inputs
    outputs := outputs }

/-- Whether the older digest has something to hash: the input exists, and so does the output
it is paired with where only that one is covered. -/
def hasSubject (tx : Transaction) (index : Nat) (type : SighashType) : Bool :=
  index < tx.inputs.length && (!type.coversSingle || index < tx.outputs.length)

def legacyPreimage (tx : Transaction) (index : Nat) (code : Bytes) (type : SighashType) : Bytes :=
  (masked tx index (Script.withoutSeparators code) type).encode ++ bytesOfWord type.value

def one : Hash :=
  ⟨1 :: List.replicate 31 0, rfl⟩

variable [Primitives]

/-- The older digest. Where there is nothing to hash it is the number one. -/
def legacyDigest (tx : Transaction) (index : Nat) (code : Bytes) (type : SighashType) : Hash :=
  if hasSubject tx index type then sha256d (legacyPreimage tx index code type) else one

/-- The hashes of all outpoints, all sequence numbers and all outputs. -/
structure Midstate where
  outpoints : Hash
  sequences : Hash
  outputs : Hash
deriving DecidableEq, Repr

def Midstate.of (tx : Transaction) : Midstate where
  outpoints := sha256d (tx.inputs.flatMap fun input => input.outpoint.encode)
  sequences := sha256d (tx.inputs.flatMap fun input => bytesOfWord input.sequence)
  outputs := sha256d (tx.outputs.flatMap TxOutput.encode)

def coveredOutputs (tx : Transaction) (index : Nat) (type : SighashType) (midstate : Midstate) :
    Hash :=
  if type.coversSingle then
    match tx.outputs[index]? with
    | some output => sha256d output.encode
    | none => Digest.zero
  else if type.coversNone then Digest.zero
  else midstate.outputs

/-- The bytes the replay-protected digest hashes. An input that does not exist has no part in
them. -/
def forkIdPreimage (tx : Transaction) (index : Nat) (code : Bytes) (type : SighashType)
    (amount : Int64) (midstate : Midstate) : Bytes :=
  let outpoints := if type.anyoneCanPay then Digest.zero else midstate.outpoints
  let sequences :=
    if type.anyoneCanPay || type.coversSingle || type.coversNone then Digest.zero
    else midstate.sequences
  let input :=
    match tx.inputs[index]? with
    | some input =>
      input.outpoint.encode ++ Wire.sizedBytes code ++ bytesOfInt64 amount
        ++ bytesOfWord input.sequence
    | none => []
  bytesOfInt32 tx.version ++ outpoints.bytes ++ sequences.bytes ++ input
    ++ (coveredOutputs tx index type midstate).bytes ++ bytesOfWord tx.lockTime
    ++ bytesOfWord (type.value &&& 0xff)

def forkIdDigest (tx : Transaction) (index : Nat) (code : Bytes) (type : SighashType)
    (amount : Int64) (midstate : Midstate) : Hash :=
  sha256d (forkIdPreimage tx index code type amount midstate)

end Sighash

end ScryptLedger
