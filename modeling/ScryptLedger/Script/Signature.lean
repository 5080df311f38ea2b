import ScryptLedger.Curve.LaxDer
import ScryptLedger.Primitives
import ScryptLedger.Script.Flags
import ScryptLedger.Sighash

/-!
# Signature and key encodings

In a script, 64 bytes are a Schnorr signature and everything else is ECDSA;
transaction signatures carry their hash type as one more byte. These checks are
about encodings only. They run before any signature is verified, and each
belongs to a script flag.
-/

namespace ScryptLedger.Script

/-- The length of a Schnorr signature without its hash type. -/
def schnorrSize : Nat := 64

/-- Whether a byte string is the minimal big-endian form of a number, with a clear first bit. -/
def isMinimalPositive : Bytes → Bool
  | [] => false
  | [b] => b < 0x80
  | b :: next :: _ => b < 0x80 && (b != 0 || 0x80 ≤ next)

/-- Whether a signature, without its hash type, is strict DER: a sequence of exactly two
integers, each in its minimal form, in 8 to 72 bytes. -/
def isStrictDer (signature : Bytes) : Bool :=
  match signature with
  | 0x30 :: length :: 0x02 :: lengthR :: rest =>
    let r := rest.take lengthR.toNat
    match rest.drop lengthR.toNat with
    | 0x02 :: lengthS :: s =>
      8 ≤ signature.length && signature.length ≤ 72 && length.toNat + 2 == signature.length
        && r.length == lengthR.toNat && s.length == lengthS.toNat
        && isMinimalPositive r && isMinimalPositive s
    | _ => false
  | _ => false

def hasLowS (signature : Bytes) : Bool :=
  match Curve.Signature.ofLaxDer? signature with
  | some read => read.isLow
  | none => false

/-- The rules for a signature without its hash type. -/
def checkRawSignature (signature : Bytes) (flags : ScriptFlags) : Except ScriptError Unit :=
  if signature.length = schnorrSize then return
  else if (flags.strictDer || flags.lowS || flags.strictEncoding) && !isStrictDer signature then
    throw .sigDer
  else if flags.lowS && !hasLowS signature then throw .sigHighS
  else return

def checkHashType (signature : Bytes) (flags : ScriptFlags) : Except ScriptError Unit :=
  if flags.strictEncoding then
    match signature.getLast? with
    | none => throw .sigHashType
    | some last =>
      let type : SighashType := ⟨last.toUInt32⟩
      if !type.isDefined then throw .sigHashType
      else if type.hasForkId && !flags.sighashForkId then throw .illegalForkId
      else if !type.hasForkId && flags.sighashForkId then throw .mustUseForkId
      else return
  else return

def checkTransactionSignature (signature : Bytes) (flags : ScriptFlags) :
    Except ScriptError Unit :=
  if signature.isEmpty then return
  else do
    checkRawSignature signature.dropLast flags
    checkHashType signature flags

/-- The rules for a signature that is matched to keys in order. -/
def checkEcdsaSignature (signature : Bytes) (flags : ScriptFlags) : Except ScriptError Unit :=
  if signature.length = schnorrSize + 1 then throw .sigBadLength
  else checkTransactionSignature signature flags

/-- The rules for a signature whose key is selected. -/
def checkSchnorrSignature (signature : Bytes) (flags : ScriptFlags) : Except ScriptError Unit :=
  if signature.length ≠ schnorrSize + 1 then throw .sigNonSchnorr
  else checkHashType signature flags

def checkDataSignature (signature : Bytes) (flags : ScriptFlags) : Except ScriptError Unit :=
  if signature.isEmpty then return else checkRawSignature signature flags

def isPlainKey (key : Bytes) : Bool :=
  match key with
  | tag :: body =>
    (body.length == 32 && (tag == 0x02 || tag == 0x03)) || (body.length == 64 && tag == 0x04)
  | [] => false

def checkKey (key : Bytes) (flags : ScriptFlags) : Except ScriptError Unit :=
  if flags.strictEncoding && !isPlainKey key then throw .pubkeyType else return

def verifies [Primitives] (signature key : Bytes) (digest : Hash) : Bool :=
  if signature.length = schnorrSize then schnorrVerifies signature key digest
  else ecdsaVerifies signature key digest

end ScryptLedger.Script
