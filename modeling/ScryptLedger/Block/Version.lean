import ScryptLedger.Hex

/-!
# The layout of a block version

The low byte is the version proper, bit 8 says that a merge-mining proof is
attached, and the upper half is the chain's number. Versions 1 and 2 are older
than merge mining and carry no chain number.
-/

namespace ScryptLedger

/-- The number of this chain among merge-mined chains. -/
def auxpowChainId : Nat := 0x62

inductive VersionError where
  | chainIdTooLarge (chainId : Nat)
  | lowBitsTooLarge (low : Nat)
deriving DecidableEq, Repr

def VersionError.message : VersionError → String
  | chainIdTooLarge chainId =>
    "chain ID 0x" ++ Hex.ofNat chainId ++ " does not fit in a block version"
  | lowBitsTooLarge low =>
    "low version bits 0x" ++ Hex.ofNat low ++ " overlap the AuxPoW flag"

namespace Version

def auxpowBit : Int32 := 0x100

def hasAuxpow (version : Int32) : Bool :=
  version &&& auxpowBit != 0

/-- The chain number in the upper half. -/
def chainId (version : Int32) : Nat :=
  version.toUInt32.toNat / 0x10000

/-- The version proper. -/
def low (version : Int32) : Int32 :=
  version &&& 0xff

/-- Whether the version is older than merge mining. -/
def isLegacy (version : Int32) : Bool :=
  version == 1 || version == 2

def ofChainId (chainId low : Nat) : Except VersionError Int32 :=
  if chainId > 0xffff then throw (.chainIdTooLarge chainId)
  else if low > 0xff then throw (.lowBitsTooLarge low)
  else return (UInt32.ofNat (chainId * 0x10000 + low)).toInt32

def withAuxpow (version : Int32) (announced : Bool) : Int32 :=
  if announced then version ||| auxpowBit else version &&& ~~~auxpowBit

end Version

end ScryptLedger
