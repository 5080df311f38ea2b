import ScryptLedger.Hex
import ScryptLedger.Json.Basic

/-!
# Reading JSON

The grammar is followed to the letter: no leading zeros, no control characters
inside of texts, no comma after the last item, and nothing but blanks around
the one value. Each function takes what it reads off the front of the
characters and answers the rest.
-/

namespace ScryptLedger.Json

def isBlank (c : Char) : Bool :=
  c == ' ' || c == '\t' || c == '\n' || c == '\x0d'

def skipBlanks (text : List Char) : List Char :=
  text.dropWhile isBlank

/-- At least one digit. -/
def digits (text : List Char) : Option (List Char × List Char) :=
  match text.span Char.isDigit with
  | ([], _) => none
  | taken => some taken

def wholePart (text : List Char) : Option (List Char × List Char) :=
  match digits text with
  | some ('0' :: _ :: _, _) => none
  | taken => taken

/-- The part of a number from the point on, which may be missing. -/
def fraction : List Char → Option (List Char × List Char)
  | '.' :: rest => (digits rest).map fun (taken, rest) => ('.' :: taken, rest)
  | text => some ([], text)

def exponent : List Char → Option (List Char × List Char)
  | 'e' :: '-' :: rest | 'E' :: '-' :: rest =>
    (digits rest).map fun (taken, rest) => ('e' :: '-' :: taken, rest)
  | 'e' :: '+' :: rest | 'E' :: '+' :: rest | 'e' :: rest | 'E' :: rest =>
    (digits rest).map fun (taken, rest) => ('e' :: taken, rest)
  | text => some ([], text)

def numeral (text : List Char) : Option (Json × List Char) := do
  let (sign, rest) := match text with
    | '-' :: rest => (['-'], rest)
    | _ => ([], text)
  let (whole, rest) ← wholePart rest
  let (fraction, rest) ← fraction rest
  let (exponent, rest) ← exponent rest
  return (.number (String.ofList (sign ++ whole ++ fraction ++ exponent)), rest)

def hex4 (a b c d : Char) : Option Nat := do
  let high := 16 * (← Hex.digitValue? a) + (← Hex.digitValue? b)
  let low := 16 * (← Hex.digitValue? c) + (← Hex.digitValue? d)
  return 256 * high + low

/-- The character that follows a backslash, other than by number. -/
def escaped? : Char → Option Char
  | 'b' => some '\x08'
  | 'f' => some '\x0c'
  | 'n' => some '\n'
  | 'r' => some '\x0d'
  | 't' => some '\t'
  | c => if c == '"' || c == '\\' || c == '/' then some c else none

def isHighSurrogate (unit : Nat) : Bool := 0xd800 ≤ unit && unit < 0xdc00

def isLowSurrogate (unit : Nat) : Bool := 0xdc00 ≤ unit && unit < 0xe000

/-- The character that a number names after `pending`, which holds the first half of a pair if
one was just read, and the half that is now pending. A half on its own names nothing. -/
def joinUnit (pending : Option Nat) (unit : Nat) : Option Char × Option Nat :=
  match pending with
  | some high =>
    if isLowSurrogate unit then
      (some (Char.ofNat (0x10000 + 0x400 * (high - 0xd800) + (unit - 0xdc00))), none)
    else (none, none)
  | none =>
    if isHighSurrogate unit then (none, some unit)
    else if isLowSurrogate unit then (none, none)
    else (some (Char.ofNat unit), none)

/-- What has been read of a text: its characters, last first, unless half a pair stands alone;
and the half that is still pending. -/
structure TextSoFar where
  chars : Option (List Char)
  pending : Option Nat

namespace TextSoFar

/-- Adds a character. A half that was pending stays alone. -/
def push (read : TextSoFar) (c : Char) : TextSoFar :=
  match read.pending with
  | some _ => ⟨none, none⟩
  | none => ⟨read.chars.map (c :: ·), none⟩

def pushUnit (read : TextSoFar) (unit : Nat) : TextSoFar :=
  match joinUnit read.pending unit with
  | (some c, pending) => ⟨read.chars.map (c :: ·), pending⟩
  | (none, some high) => ⟨read.chars, some high⟩
  | (none, none) => ⟨none, none⟩

def finish (read : TextSoFar) : Option String :=
  match read.pending with
  | some _ => none
  | none => read.chars.map fun chars => String.ofList chars.reverse

end TextSoFar

/-- The rest of a text after its opening quote. -/
def textOnto (read : TextSoFar) : List Char → Option (Option String × List Char)
  | [] => none
  | '\\' :: 'u' :: a :: b :: c :: d :: rest =>
    match hex4 a b c d with
    | some unit => textOnto (read.pushUnit unit) rest
    | none => none
  | '\\' :: c :: rest =>
    match escaped? c with
    | some c => textOnto (read.push c) rest
    | none => none
  | c :: rest =>
    if c == '"' then some (read.finish, rest)
    else if c == '\\' || c.toNat < 0x20 then none
    else textOnto (read.push c) rest

def quoted (text : List Char) : Option (Option String × List Char) :=
  textOnto ⟨some [], none⟩ text

def keyword (word : String) (value : Json) (text : List Char) : Option (Json × List Char) :=
  if word.toList.isPrefixOf text then some (value, text.drop word.length) else none

mutual

/-- One value. The number bounds how deep the calls nest. -/
def value : Nat → List Char → Option (Json × List Char)
  | 0, _ => none
  | depth + 1, text =>
    match skipBlanks text with
    | [] => none
    | c :: rest =>
      if c == '\x7b' then
        match skipBlanks rest with
        | '\x7d' :: rest => some (.object [], rest)
        | rest => fieldsOnto depth [] rest
      else if c == '[' then
        match skipBlanks rest with
        | ']' :: rest => some (.array [], rest)
        | rest => itemsOnto depth [] rest
      else if c == '"' then (quoted rest).map fun (text, rest) => (.string text, rest)
      else if c == 'n' then keyword "null" .null (c :: rest)
      else if c == 't' then keyword "true" (.bool true) (c :: rest)
      else if c == 'f' then keyword "false" (.bool false) (c :: rest)
      else numeral (c :: rest)

/-- The items of an array from one on, onto the ones before, last first. -/
def itemsOnto : Nat → List Json → List Char → Option (Json × List Char)
  | 0, _, _ => none
  | depth + 1, before, text =>
    match value depth text with
    | none => none
    | some (item, rest) =>
      match skipBlanks rest with
      | ',' :: rest => itemsOnto depth (item :: before) rest
      | ']' :: rest => some (.array (item :: before).reverse, rest)
      | _ => none

def fieldsOnto : Nat → List (Option String × Json) → List Char → Option (Json × List Char)
  | 0, _, _ => none
  | depth + 1, before, text =>
    match skipBlanks text with
    | '"' :: rest =>
      match quoted rest with
      | none => none
      | some (name, rest) =>
        match skipBlanks rest with
        | ':' :: rest =>
          match value depth rest with
          | none => none
          | some (item, rest) =>
            match skipBlanks rest with
            | ',' :: rest => fieldsOnto depth ((name, item) :: before) rest
            | '\x7d' :: rest => some (.object ((name, item) :: before).reverse, rest)
            | _ => none
        | _ => none
    | _ => none

end

/-- The value a text stands for. Every second call takes at least one character. -/
def parse? (text : String) : Option Json :=
  let chars := text.toList
  match value (2 * chars.length + 2) chars with
  | some (value, rest) => if (skipBlanks rest).isEmpty then some value else none
  | none => none

end ScryptLedger.Json
