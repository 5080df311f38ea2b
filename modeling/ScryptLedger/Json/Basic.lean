/-!
# JSON values

Numbers keep the literal they are written with, so that integers of any size
stay exact. A text may name half of a surrogate pair; such a text is well
formed but stands for no characters.
-/

namespace ScryptLedger

inductive Json where
  | null
  | bool (value : Bool)
  | number (literal : String)
  /-- A text, or none where it names half of a surrogate pair. -/
  | string (text : Option String)
  | array (items : List Json)
  /-- The fields in the order in which they are written; names may repeat. -/
  | object (fields : List (Option String × Json))

namespace Json

def ofInt (value : Int) : Json := number (toString value)

def ofText (text : String) : Json := string (some text)

def ofFields (fields : List (String × Json)) : Json :=
  object (fields.map fun (name, value) => (some name, value))

/-- The field, if there is a value for it. -/
def optional (name : String) : Option Json → List (String × Json)
  | some value => [(name, value)]
  | none => []

def bool? : Json → Option Bool
  | bool value => some value
  | _ => none

/-- The number below `bound` that a literal without sign, point and exponent stands for. -/
def natBelow? (bound : Nat) : Json → Option Nat
  | number literal => literal.toNat?.filter (· < bound)
  | _ => none

end Json

end ScryptLedger
