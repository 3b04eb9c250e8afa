import FactorMachine.Chunk.Codec
import FactorMachine.Text.Blank
import FactorMachine.Text.Numeral

/-!
# FactorMachine — program listings

A listing is a text with one chunk a line, in decimal. Blank lines and lines that start with
`#` are skipped. `renderListing` puts such a comment, the address and the meaning of the
chunk, above each chunk; `parseListing` reads the chunks back.
-/

namespace FactorMachine

inductive ListingError where
  /-- There is no such file, or its content is no text. -/
  | unreadable
  /-- A line, counted from one, that is neither skipped nor a chunk. -/
  | invalidToken (line : Nat) (token : String)
  | empty
  deriving DecidableEq, Repr

def ListingError.message : ListingError → String
  | .unreadable => "cannot access listing"
  | .invalidToken line token => s!"line {line}: `{token}` is not a chunk"
  | .empty => "listing contains no chunks"

/-- What a line of a listing holds. -/
inductive ListingLine where
  | skipped
  | chunk (value : Chunk)
  | offending (token : String)
  deriving DecidableEq, Repr

/-- Reads one line. -/
def ListingLine.ofChars (line : List Char) : ListingLine :=
  match Text.trim line with
  | [] => .skipped
  | '#' :: _ => .skipped
  | token =>
    match Text.natural? chunkBound token with
    | some value => .chunk value
    | none => .offending (String.ofList token)

/-- The chunks of consecutive lines, the first of which has the given number. -/
def chunksOfLines : (number : Nat) → List (List Char) → Except ListingError (List Chunk)
  | _, [] => .ok []
  | number, line :: rest =>
    match ListingLine.ofChars line with
    | .skipped => chunksOfLines (number + 1) rest
    | .offending token => .error (.invalidToken number token)
    | .chunk value => (value :: ·) <$> chunksOfLines (number + 1) rest

/-- The program of a listing. -/
def parseListing (text : String) : Except ListingError (List Chunk) :=
  match chunksOfLines 1 (Text.lines text.toList) with
  | .ok [] => .error .empty
  | result => result

/-- The program of a listing that is kept in a file; `none` stands for an absent file. -/
def loadListing (content : Option ByteArray) : Except ListingError (List Chunk) :=
  match content.bind String.fromUTF8? with
  | some text => parseListing text
  | none => .error .unreadable

/-- The lines for consecutive chunks, the first of which has the given address. -/
def renderFrom : (address : Nat) → List Chunk → String
  | _, [] => ""
  | address, chunk :: rest =>
    s!"# {Text.padded 4 address}: {disassemble chunk}\n{chunk}\n" ++
      renderFrom (address + 1) rest

/-- The listing of a program. -/
def renderListing (program : List Chunk) : String := renderFrom 0 program

end FactorMachine
