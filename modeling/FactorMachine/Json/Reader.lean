import FactorMachine.Json.Basic
import FactorMachine.Text.Numeral

/-!
# FactorMachine — reading JSON

The reader works on bytes, which it holds as the characters below 256. It accepts exactly one
value with blanks around it. Strings are only taken apart here; whether their bytes and
escapes stand for a text matters to those who use them as one.
-/

namespace FactorMachine.Json

/-- A byte, as a character below 256. -/
def byteChar (b : UInt8) : Char := Char.ofNat b.toNat

def isSpace (c : Char) : Bool := c == ' ' || c == '\n' || c == '\t' || c == '\r'

def isDigit (c : Char) : Bool := '0' ≤ c && c ≤ '9'

-- ---------------------------------------------------------------------------
-- Strings
-- ---------------------------------------------------------------------------

/-- A piece of a string: a byte as it is, a letter that escapes a byte, or an escape for a
unit of sixteen bits. -/
inductive Piece where
  | byte (b : UInt8)
  | letter (b : UInt8)
  | unit (n : Nat)
  deriving Repr

def Piece.isEscape : Piece → Bool
  | .byte _ => false
  | .letter _ | .unit _ => true

def hexDigit? (c : Char) : Option Nat :=
  if '0' ≤ c ∧ c ≤ '9' then some (c.toNat - '0'.toNat)
  else if 'a' ≤ c ∧ c ≤ 'f' then some (c.toNat - 'a'.toNat + 10)
  else if 'A' ≤ c ∧ c ≤ 'F' then some (c.toNat - 'A'.toNat + 10)
  else none

/-- The number that four hexadecimal digits stand for. -/
def hexUnit? (a b c d : Char) : Option Nat := do
  return (((← hexDigit? a) * 16 + (← hexDigit? b)) * 16 + (← hexDigit? c)) * 16 +
    (← hexDigit? d)

/-- The character that a letter after a backslash stands for. -/
def escaped? (c : Char) : Option Char :=
  match c with
  | '"' => some '"'
  | '\\' => some '\\'
  | '/' => some '/'
  | 'b' => some '\x08'
  | 'f' => some '\x0c'
  | 'n' => some '\n'
  | 'r' => some '\r'
  | 't' => some '\t'
  | _ => none

/-- The pieces up to the closing quote, and what follows it. -/
def pieces : List Char → Option (List Piece × List Char)
  | [] => none
  | '"' :: rest => some ([], rest)
  | '\\' :: 'u' :: a :: b :: c :: d :: rest => do
    let n ← hexUnit? a b c d
    let (more, rest) ← pieces rest
    return (.unit n :: more, rest)
  | '\\' :: c :: rest => do
    let e ← escaped? c
    let (more, rest) ← pieces rest
    return (.letter e.toUInt8 :: more, rest)
  | c :: rest =>
    if c < ' ' then none
    else do
      let (more, rest) ← pieces rest
      return (.byte c.toUInt8 :: more, rest)

def isHighSurrogate (n : Nat) : Bool := 0xD800 ≤ n && n < 0xDC00

def isLowSurrogate (n : Nat) : Bool := 0xDC00 ≤ n && n < 0xE000

/-- The bytes of a character. -/
def bytesOf (n : Nat) : List UInt8 := (String.singleton (Char.ofNat n)).toUTF8.toList

/-- The bytes that pieces stand for. Surrogates must come in pairs. -/
def assembleBytes : List Piece → Option (List UInt8)
  | [] => some []
  | .byte b :: rest | .letter b :: rest => (b :: ·) <$> assembleBytes rest
  | .unit n :: rest =>
    if isLowSurrogate n then none
    else if isHighSurrogate n then
      match rest with
      | .unit m :: more =>
        if isLowSurrogate m then
          (bytesOf (0x10000 + (n - 0xD800) * 0x400 + (m - 0xDC00)) ++ ·) <$> assembleBytes more
        else none
      | _ => none
    else (bytesOf n ++ ·) <$> assembleBytes rest

/-- The text that pieces stand for. -/
def textOf (ps : List Piece) : Option String := do
  String.fromUTF8? ⟨(← assembleBytes ps).toArray⟩

/-- The text of a string whose opening quote was read, and what follows it. -/
def readString (cs : List Char) : Option (Option String × List Char) := do
  let (ps, rest) ← pieces cs
  return (textOf ps, rest)

/-- A key whose opening quote was read, and what follows it. -/
def readKey (cs : List Char) : Option (Key × List Char) := do
  let (ps, rest) ← pieces cs
  return (⟨textOf ps, ps.any Piece.isEscape⟩, rest)

-- ---------------------------------------------------------------------------
-- Numbers
-- ---------------------------------------------------------------------------

/-- One or more digits, and what follows them. -/
def readDigits (cs : List Char) : Option (List Char × List Char) :=
  match cs.span isDigit with
  | ([], _) => none
  | found => some found

/-- Digits without a leading zero, and what follows them. -/
def readInteger (cs : List Char) : Option (List Char × List Char) :=
  match readDigits cs with
  | some ('0' :: _ :: _, _) => none
  | found => found

/-- A fraction, if there is one. -/
def readFraction (cs : List Char) : Option (List Char × List Char) :=
  match cs with
  | '.' :: rest => do
    let (digits, rest) ← readDigits rest
    return ('.' :: digits, rest)
  | _ => some ([], cs)

/-- An exponent, if there is one. -/
def readExponent (cs : List Char) : Option (List Char × List Char) :=
  match cs with
  | e :: rest =>
    if e = 'e' ∨ e = 'E' then
      match rest with
      | sign :: more =>
        if sign = '+' ∨ sign = '-' then do
          let (digits, rest) ← readDigits more
          return (e :: sign :: digits, rest)
        else do
          let (digits, rest) ← readDigits rest
          return (e :: digits, rest)
      | [] => none
    else some ([], cs)
  | [] => some ([], cs)

/-- A number without a sign. -/
def readMagnitude (cs : List Char) : Option (List Char × List Char) := do
  let (integer, rest) ← readInteger cs
  let (fraction, rest) ← readFraction rest
  let (exponent, rest) ← readExponent rest
  return (integer ++ fraction ++ exponent, rest)

def readNumber (cs : List Char) : Option (String × List Char) :=
  match cs with
  | '-' :: rest => do
    let (numeral, rest) ← readMagnitude rest
    return (String.ofList ('-' :: numeral), rest)
  | _ => do
    let (numeral, rest) ← readMagnitude cs
    return (String.ofList numeral, rest)

-- ---------------------------------------------------------------------------
-- Values
-- ---------------------------------------------------------------------------

def skipSpace (cs : List Char) : List Char := cs.dropWhile isSpace

mutual

/-- A value, and what follows it. The counter bounds how deep the calls may go; every second
call reads a character. -/
def readValue : (counter : Nat) → List Char → Option (Json × List Char)
  | 0, _ => none
  | counter + 1, cs =>
    match skipSpace cs with
    | 'n' :: 'u' :: 'l' :: 'l' :: rest => some (.null, rest)
    | 't' :: 'r' :: 'u' :: 'e' :: rest => some (.bool true, rest)
    | 'f' :: 'a' :: 'l' :: 's' :: 'e' :: rest => some (.bool false, rest)
    | '"' :: rest => do
      let (text, rest) ← readString rest
      return (.string text, rest)
    | '[' :: rest =>
      match skipSpace rest with
      | ']' :: rest => some (.array [], rest)
      | _ => do
        let (elements, rest) ← readElements counter rest
        return (.array elements, rest)
    | '{' :: rest =>
      match skipSpace rest with
      | '}' :: rest => some (.object [], rest)
      | _ => do
        let (members, rest) ← readMembers counter rest
        return (.object members, rest)
    | cs => do
      let (numeral, rest) ← readNumber cs
      return (.number numeral, rest)

/-- The elements of an array up to its end. -/
def readElements : (counter : Nat) → List Char → Option (List Json × List Char)
  | 0, _ => none
  | counter + 1, cs => do
    let (value, rest) ← readValue counter cs
    match skipSpace rest with
    | ']' :: rest => return ([value], rest)
    | ',' :: rest => do
      let (more, rest) ← readElements counter rest
      return (value :: more, rest)
    | _ => none

/-- The members of an object up to its end. -/
def readMembers : (counter : Nat) → List Char →
    Option (List (Key × Json) × List Char)
  | 0, _ => none
  | counter + 1, cs =>
    match skipSpace cs with
    | '"' :: rest => do
      let (key, rest) ← readKey rest
      match skipSpace rest with
      | ':' :: rest => do
        let (value, rest) ← readValue counter rest
        match skipSpace rest with
        | '}' :: rest => return ([(key, value)], rest)
        | ',' :: rest => do
          let (more, rest) ← readMembers counter rest
          return ((key, value) :: more, rest)
        | _ => none
      | _ => none
    | _ => none

end

/-- The value that bytes stand for. -/
def ofBytes? (bytes : List UInt8) : Option Json :=
  match readValue (2 * bytes.length + 2) (bytes.map byteChar) with
  | some (value, rest) => if (skipSpace rest).isEmpty then some value else none
  | none => none

-- ---------------------------------------------------------------------------
-- Reading data out of values
-- ---------------------------------------------------------------------------

/-- A number without sign, fraction or exponent, below `bound`. -/
def natural? (bound : Nat) : Json → Option Nat
  | .number numeral => (Text.digits? numeral.toList).filter (· < bound)
  | _ => none

/-- The name of a case without content: a string, or an object with that name for a null. -/
def caseName? : Json → Option String
  | .string text => text
  | .object [(name, .null)] => name.text
  | _ => none

/-- The value of a member that may not be repeated. The outer `none` says that it is. -/
def member? (members : List (Key × Json)) (name : String) : Option (Option Json) :=
  match members.filter (·.1.text == some name) with
  | [] => some none
  | [(_, value)] => some (some value)
  | _ => none

/-- The fields of a record, in the order of their names: from an object by name, whatever
else it holds, or from an array by position. Fields that are missing are `none`. -/
def fields? (names : List String) : Json → Option (List (Option Json))
  | .object members =>
    if members.all (·.1.text.isSome) then names.mapM (member? members) else none
  | .array elements =>
    if elements.length ≤ names.length then
      some (elements.map some ++ List.replicate (names.length - elements.length) none)
    else none
  | _ => none

/-- A field, or what stands where it is missing. -/
def field? {α : Type} (read : Json → Option α) (absent : α) : Option Json → Option α
  | some value => read value
  | none => some absent

end FactorMachine.Json
