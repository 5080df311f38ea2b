/-!
# Script flags

Which rules a script is held to. Each rule is a switch of its own; on the wire
and in tables a set of switches is a word with one bit for each.
-/

namespace ScryptLedger

structure ScriptFlags where
  /-- Pay-to-script-hash outputs run the script they hash. -/
  p2sh : Bool
  /-- Signatures, hash types and keys are strictly encoded. -/
  strictEncoding : Bool
  /-- Signatures are strict DER. -/
  strictDer : Bool
  /-- Signatures have a low second integer. -/
  lowS : Bool
  /-- The unused operand of CHECKMULTISIG is empty. -/
  nullDummy : Bool
  /-- Signature scripts only push. -/
  sigPushOnly : Bool
  /-- Pushes and numbers are minimally encoded. -/
  minimalData : Bool
  /-- No-operations reserved for later meanings fail. -/
  discourageUpgradableNops : Bool
  /-- Exactly one element is left at the end. -/
  cleanStack : Bool
  /-- CHECKLOCKTIMEVERIFY has its meaning. -/
  checkLockTime : Bool
  /-- CHECKSEQUENCEVERIFY has its meaning. -/
  checkSequence : Bool
  /-- The operand of IF and NOTIF is empty or one. -/
  minimalIf : Bool
  /-- A failed signature check needs an empty signature. -/
  nullFail : Bool
  /-- Hash types may ask for the replay-protected digest. -/
  sighashForkId : Bool
  /-- The unused operand of CHECKMULTISIG may select the keys that signed. -/
  schnorrMultisig : Bool
  /-- Signature checks are limited by transaction and block. -/
  enforceSigChecks : Bool
  /-- The older language: no string and data-signature operations, no Schnorr signatures. -/
  legacyRules : Bool
deriving DecidableEq, Repr

namespace ScriptFlags

def none : ScriptFlags :=
  ⟨false, false, false, false, false, false, false, false, false, false, false, false, false,
    false, false, false, false⟩

def union (f g : ScriptFlags) : ScriptFlags where
  p2sh := f.p2sh || g.p2sh
  strictEncoding := f.strictEncoding || g.strictEncoding
  strictDer := f.strictDer || g.strictDer
  lowS := f.lowS || g.lowS
  nullDummy := f.nullDummy || g.nullDummy
  sigPushOnly := f.sigPushOnly || g.sigPushOnly
  minimalData := f.minimalData || g.minimalData
  discourageUpgradableNops := f.discourageUpgradableNops || g.discourageUpgradableNops
  cleanStack := f.cleanStack || g.cleanStack
  checkLockTime := f.checkLockTime || g.checkLockTime
  checkSequence := f.checkSequence || g.checkSequence
  minimalIf := f.minimalIf || g.minimalIf
  nullFail := f.nullFail || g.nullFail
  sighashForkId := f.sighashForkId || g.sighashForkId
  schnorrMultisig := f.schnorrMultisig || g.schnorrMultisig
  enforceSigChecks := f.enforceSigChecks || g.enforceSigChecks
  legacyRules := f.legacyRules || g.legacyRules

instance : Max ScriptFlags := ⟨union⟩

/-- The rules whose bits a word sets; its other bits mean nothing. -/
def ofMask (mask : Nat) : ScriptFlags where
  p2sh := mask.testBit 0
  strictEncoding := mask.testBit 1
  strictDer := mask.testBit 2
  lowS := mask.testBit 3
  nullDummy := mask.testBit 4
  sigPushOnly := mask.testBit 5
  minimalData := mask.testBit 6
  discourageUpgradableNops := mask.testBit 7
  cleanStack := mask.testBit 8
  checkLockTime := mask.testBit 9
  checkSequence := mask.testBit 10
  minimalIf := mask.testBit 13
  nullFail := mask.testBit 14
  sighashForkId := mask.testBit 16
  schnorrMultisig := mask.testBit 21
  enforceSigChecks := mask.testBit 22
  legacyRules := mask.testBit 24

def toMask (flags : ScriptFlags) : Nat :=
  flags.p2sh.toNat <<< 0 + flags.strictEncoding.toNat <<< 1 + flags.strictDer.toNat <<< 2
    + flags.lowS.toNat <<< 3 + flags.nullDummy.toNat <<< 4 + flags.sigPushOnly.toNat <<< 5
    + flags.minimalData.toNat <<< 6 + flags.discourageUpgradableNops.toNat <<< 7
    + flags.cleanStack.toNat <<< 8 + flags.checkLockTime.toNat <<< 9
    + flags.checkSequence.toNat <<< 10 + flags.minimalIf.toNat <<< 13
    + flags.nullFail.toNat <<< 14 + flags.sighashForkId.toNat <<< 16
    + flags.schnorrMultisig.toNat <<< 21 + flags.enforceSigChecks.toNat <<< 22
    + flags.legacyRules.toNat <<< 24

end ScriptFlags

end ScryptLedger
