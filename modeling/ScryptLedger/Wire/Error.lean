/-!
# Why bytes are refused

The causes a decoder can name, and the one wording of each.
-/

namespace ScryptLedger

inductive WireError where
  /-- Fewer bytes are left than the next field needs. -/
  | unexpectedEnd (needed available : Nat)
  /-- A size is written in more bytes than it needs. -/
  | nonCanonicalSize
  /-- A size exceeds what any vector may have. -/
  | oversized (size : Nat)
  /-- Bytes follow a complete object. -/
  | trailing (count : Nat)
  /-- A snapshot file does not start with its mark. -/
  | badMagic
  /-- A snapshot file has a version nobody wrote. -/
  | unsupportedVersion (version : Nat)
deriving DecidableEq, Repr

def WireError.message : WireError → String
  | unexpectedEnd needed available =>
    s!"unexpected end of data: needed {needed} bytes, {available} available"
  | nonCanonicalSize => "non-canonical CompactSize encoding"
  | oversized size => s!"size {size} exceeds the maximum allowed"
  | trailing count => s!"{count} trailing bytes after object"
  | badMagic => "bad snapshot magic"
  | unsupportedVersion version => s!"unsupported version {version}"

end ScryptLedger
