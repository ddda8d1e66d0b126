import Frontend.Text.Basic
import Frontend.Message.Wording
import Frontend.Text.Case

/-!
# Message templates

A template is a text with placeholders: `%s` for a text, `%d` for a number, `%c` for a character. An
index in brackets, as in `%[2]s`, names the argument; otherwise arguments are used in order. A
placeholder that does not fit its argument, and an argument that no placeholder uses, show up in the
result as `%!…` marks instead of being lost.
-/

namespace Frontend

namespace Template

/-- A value that fills a placeholder. -/
inductive Filler where
  | text (s : String)
  | number (n : Int)
  | letter (c : Char)
  deriving Repr, DecidableEq

namespace Filler

/-- The name of the value's sort in marks. -/
def sort : Filler → String
  | text _ => "string"
  | number _ => "int"
  | letter _ => "int32"

/-- The value in marks. -/
def plain : Filler → String
  | text s => s
  | number n => Text.ofInt n
  | letter c => Text.ofNat c.toNat

/-- The character that a code point stands for; an invalid one shows as the replacement character. -/
def charOf (n : Int) : Char :=
  if h : 0 ≤ n ∧ n.toNat.isValidChar then Char.ofNatAux n.toNat h.2 else Char.ofNat 0xFFFD

/-- The value written for a placeholder letter. -/
def write (verb : Char) (f : Filler) : String :=
  match verb, f with
  | 's', .text s | 'v', .text s => s
  | 'd', .number n | 'v', .number n => Text.ofInt n
  | 'd', .letter c => Text.ofNat c.toNat
  | 'c', .letter c => c.toString
  | 'c', .number n => (charOf n).toString
  | _, f => "%!" ++ verb.toString ++ "(" ++ f.sort ++ "=" ++ f.plain ++ ")"

end Filler

/-- One piece of a template. -/
inductive Piece where
  | literal (c : Char)
  /-- A placeholder: its letter, and the argument it names (counted from 1) if it names one. -/
  | hole (verb : Char) (index : Option Nat)
  deriving Repr, DecidableEq

/-- Reads the index of a placeholder, such as the digits of `[2]`, with what follows it. -/
def readIndex (cs : List Char) : Option (Nat × List Char) :=
  match cs.dropWhile Text.isDigit with
  | ']' :: rest => some (Text.digitsValue (cs.takeWhile Text.isDigit), rest)
  | _ => none

/-- Takes a template apart. -/
def pieces : Nat → List Char → List Piece
  | 0, _ => []
  | _, [] => []
  | fuel + 1, '%' :: '[' :: rest =>
    match readIndex rest with
    | some (i, verb :: more) => .hole verb (some i) :: pieces fuel more
    | _ => .literal '%' :: pieces fuel ('[' :: rest)
  | fuel + 1, '%' :: verb :: rest => .hole verb none :: pieces fuel rest
  | fuel + 1, c :: rest => .literal c :: pieces fuel rest

/-- Fills the pieces in order. `next` is the index of the argument a plain placeholder takes. -/
def fillPieces (args : List Filler) : Nat → Bool → List Piece → List String
  | next, reordered, [] =>
    let extra := args.drop next
    if reordered || extra.isEmpty then []
    else ["%!(EXTRA " ++ Text.joinWith ", " (extra.map fun f => f.sort ++ "=" ++ f.plain) ++ ")"]
  | next, reordered, .literal c :: rest => c.toString :: fillPieces args next reordered rest
  | next, reordered, .hole verb none :: rest =>
    match args[next]? with
    | some f => f.write verb :: fillPieces args (next + 1) reordered rest
    | none => ("%!" ++ verb.toString ++ "(MISSING)") :: fillPieces args next reordered rest
  | next, _, .hole verb (some i) :: rest =>
    match if i = 0 then none else args[i - 1]? with
    | some f => f.write verb :: fillPieces args i true rest
    | none => ("%!" ++ verb.toString ++ "(BADINDEX)") :: fillPieces args next true rest

/-- Fills a template. Without arguments the template stands as it is. -/
def fill (template : String) (args : List Filler) : String :=
  if args.isEmpty then template
  else String.join (fillPieces args 0 false (pieces (template.length + 1) template.toList))

end Template

/-! ## Phrases

What a diagnostic says, independent of the language it is said in: a phrase is a key with arguments,
or a text that is the same in every language. It is put into words only when it is shown. -/

/-- The languages of messages. -/
inductive Language where
  | english
  | chinese
  deriving DecidableEq, Repr, Inhabited

namespace Language

def code : Language → String
  | english => "en"
  | chinese => "zh"

/-- The language that a name asks for; English when the name is not known. -/
def ofName (s : String) : Language :=
  if ["zh", "zh-cn", "zh_cn", "zh-tw", "zh-hk", "chinese"].contains (Text.lower s) then .chinese
  else .english

def ofLocale (s : String) : Language :=
  if Text.startsWith (Text.lower s) "zh" then .chinese else .english

/-- The language that the first non-empty locale setting asks for. -/
def detect? (settings : List String) : Option Language :=
  (settings.find? (· != "")).map ofLocale

def template : Language → MessageKey → String
  | english => MessageKey.english
  | chinese => MessageKey.chinese

end Language

/-- Something to say, before a language is chosen. -/
inductive Phrase where
  /-- A text that needs no wording. -/
  | text (s : String)
  /-- A number. -/
  | number (n : Int)
  /-- A character. -/
  | letter (c : Char)
  /-- A message with its arguments. -/
  | entry (key : MessageKey) (args : List Phrase)
  deriving Repr

namespace Phrase

instance : Inhabited Phrase := ⟨.text ""⟩

mutual
/-- The value that fills a placeholder. -/
def filler (lang : Language) : Phrase → Template.Filler
  | text s => .text s
  | number n => .number n
  | letter c => .letter c
  | entry key args => .text (Template.fill (lang.template key) (fillers lang args))

/-- The values of several arguments. -/
def fillers (lang : Language) : List Phrase → List Template.Filler
  | [] => []
  | p :: ps => filler lang p :: fillers lang ps
end

def render (lang : Language) (p : Phrase) : String :=
  match p.filler lang with
  | .text s => s
  | .number n => Text.ofInt n
  | .letter c => c.toString

/-- Whether there is nothing to say. -/
def isSilent : Phrase → Bool
  | text s => s.isEmpty
  | _ => false

end Phrase

end Frontend
