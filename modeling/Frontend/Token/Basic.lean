import Frontend.Position
import Frontend.Text.Quoted
import Frontend.Token.Kind

/-!
# Tokens

A token has a kind, the text it was read from (for a string: the text it denotes) and the position of
its first character.
-/

namespace Frontend

/-- A token of the language. -/
structure Token where
  kind : TokenKind
  literal : String
  pos : Position
  deriving DecidableEq, Repr, Inhabited

namespace Token

/-- The token that a text stands for. -/
def ofText (literal : String) (pos : Position) : Token := ⟨TokenKind.classify literal, literal, pos⟩

/-- A string token with the text it denotes. -/
def ofString (value : String) (pos : Position) : Token := ⟨.str, value, pos⟩

/-- The token at the end of the input. -/
def eof (pos : Position) : Token := ⟨.eof, "", pos⟩

/-- A line break. -/
def newline (pos : Position) : Token := ⟨.newline, "\n", pos⟩

/-- Whether the token is a number with a minus in front. -/
def isNegativeNumber (t : Token) : Bool :=
  match t.kind with
  | .int | .float => Text.startsWith t.literal "-"
  | _ => false

/-- The token with its kind, its text where the kind leaves it open, and its position. -/
def text (t : Token) : String :=
  match t.kind with
  | .ident | .int | .float => t.kind.name ++ "(" ++ t.literal ++ ") at " ++ t.pos.text
  | .str => t.kind.name ++ "(" ++ Text.quote t.literal ++ ") at " ++ t.pos.text
  | _ => t.kind.name ++ " at " ++ t.pos.text

/-- How a message refers to the token. -/
def describe (t : Token) : String :=
  match t.kind with
  | .newline => "newline"
  | .eof => "end of input"
  | .ident => "identifier '" ++ t.literal ++ "'"
  | .int | .float => "number " ++ t.literal
  | .str => "string"
  | k => "'" ++ k.name ++ "'"

/-- The stretch from the token's first byte to the end of its text, columns counted in bytes. -/
def span (t : Token) : Span :=
  let size : Int := t.literal.utf8ByteSize
  ⟨t.pos, t.pos.shift size size⟩

/-- The columns a token takes up; a string also has its two quotes. -/
def columns (t : Token) : Int := t.literal.length + (if t.kind == .str then 2 else 0)

def finish (t : Token) : Position := t.pos.shift t.columns t.literal.utf8ByteSize

/-- Takes a negative number apart into a minus sign and the number that follows it. -/
def splitNegative (t : Token) : Token × Token :=
  (ofText "-" t.pos, ofText (String.ofList (t.literal.toList.drop 1)) (t.pos.shift 1 1))

/-- How many tokens a token can become when negative numbers are taken apart. A token that was not read
from its text may have a second minus. -/
def parts (t : Token) : Nat :=
  if t.isNegativeNumber then (if t.splitNegative.2.isNegativeNumber then 3 else 2) else 1

end Token

end Frontend
