/-!
# FactorMachine — JSON values

A value keeps what its text says: numbers as their numerals and the members of an object in
order, repeated keys included.
-/

namespace FactorMachine

/-- The key of a member. -/
structure Json.Key where
  /-- The text of the key; `none` if its escapes or bytes stand for no text. -/
  text : Option String
  /-- Whether an escape is used to write it. -/
  escaped : Bool
  deriving DecidableEq, Repr

inductive Json where
  | null
  | bool (value : Bool)
  | number (numeral : String)
  /-- A string; `none` if its escapes or bytes stand for no text. -/
  | string (text : Option String)
  | array (elements : List Json)
  | object (members : List (Json.Key × Json))
  deriving Repr

namespace Json

def natural (n : Nat) : Json := .number (toString n)

def text (s : String) : Json := .string (some s)

/-- An object with the given keys. -/
def record (members : List (String × Json)) : Json :=
  .object (members.map fun (key, value) => (⟨some key, false⟩, value))

end Json

end FactorMachine
