import Frontend.Message.Phrase
import Frontend.Position
import Frontend.Text.Letter

/-!
# Diagnostics

A diagnostic says what is wrong with a source text, where, and what might help. Its message stays a
phrase until it is shown, so that nothing which is decided about a program hangs on the language of
its messages.
-/

namespace Frontend

/-- How serious a diagnostic is. -/
inductive Level where
  | error | warning | note | help | unknown
  deriving DecidableEq, Repr, Inhabited

def Level.text : Level → String
  | error => "error"
  | warning => "warning"
  | note => "note"
  | help => "help"
  | unknown => "unknown"

/-- What a diagnostic is about. -/
inductive Category where
  | lexical
  | grammar
  | typeMismatch
  | symbolNotFound
  | symbolDuplicate
  | scope
  | argument
  | semantic
  | recursiveImport
  | extension
  | fileNotFound
  | unknown
  deriving DecidableEq, Repr, Inhabited

namespace Category

def name : Category → String
  | lexical => "Syntax"
  | grammar => "Parser"
  | typeMismatch => "TypeMismatch"
  | symbolNotFound => "SymbolNotFound"
  | symbolDuplicate => "SymbolDuplicate"
  | scope => "Scope"
  | argument => "Argument"
  | semantic => "Semantic"
  | recursiveImport => "RecursiveImport"
  | extension => "Extension"
  | fileNotFound => "FileNotFound"
  | unknown => "Unknown"

/-- The headline over a diagnostic. -/
def title : Category → Phrase
  | lexical => .entry .titleSyntax []
  | grammar => .entry .titleParser []
  | typeMismatch => .entry .titleTypeMismatch []
  | symbolNotFound => .entry .titleSymbolNotFound []
  | symbolDuplicate => .entry .titleSymbolDuplicate []
  | scope => .entry .titleScope []
  | argument => .entry .titleArgument []
  | semantic => .entry .titleSemantic []
  | recursiveImport => .entry .titleRecursiveImport []
  | extension => .entry .titleExtension []
  | fileNotFound => .entry .titleFileNotFound []
  | unknown => .text "Error"

/-- Whether one diagnostic of this category ends the work on a file. Grammar errors are collected
instead. -/
def isFatal (c : Category) : Bool := c != .grammar

end Category

/-! The codes by which diagnostics are known. -/

namespace Code

def grammar := "E0001"
def illegalChar := "E0002"
def unclosedQuote := "E0003"
def unclosedComment := "E0004"
def illegalEscape := "E0005"
def illegalOperator := "E0006"
def invalidName := "E0007"
def unexpectedToken := "E0010"
def noRule := "E0011"
def unclosed := "E0012"
def symbolNotFound := "E0100"
def symbolDuplicate := "E0101"
def unregisteredType := "E0102"
def scope := "E0110"
def typeMismatch := "E0200"
def missingReturn := "E0203"
def argumentCount := "E0301"
def noConstructor := "E0302"
def notCallable := "E0303"
def outsideLoop := "E0304"
def outsideFunction := "E0305"
def memberNotFound := "E0401"
def permission := "E0402"
def outsideMethod := "E0405"
def extensionLoad := "E0700"
def extensionCall := "E0701"
def recursiveImport := "E0800"
def fileNotFound := "E0801"
def semantic := "E0900"

end Code

/-- A diagnostic. `endColumn` is 0 when no stretch of the line is marked. -/
structure Diagnostic where
  category : Category
  code : String
  level : Level := .error
  message : Phrase
  file : String := ""
  line : Int := 0
  column : Int := 0
  endColumn : Int := 0
  sourceLine : String := ""
  infos : List Phrase := []
  hints : List Phrase := []
  deriving Repr, Inhabited

namespace Diagnostic

def mkAt (category : Category) (code : String) (pos : Position) (message : Phrase) : Diagnostic :=
  { category, code, message, file := pos.file, line := pos.line, column := pos.column }

/-- Adds further lines; silent ones are dropped. -/
def withInfo (d : Diagnostic) (infos : List Phrase) : Diagnostic :=
  { d with infos := d.infos ++ infos.filter (!·.isSilent) }

/-- Adds advice; silent phrases are dropped. -/
def withHint (d : Diagnostic) (hints : List Phrase) : Diagnostic :=
  { d with hints := d.hints ++ hints.filter (!·.isSilent) }

/-- Marks a number of columns from the diagnostic's column on. -/
def withSpan (d : Diagnostic) (length : Int) : Diagnostic :=
  if 0 < length then { d with endColumn := d.column + length } else d

/-- Takes the shown line from a source text. -/
def withSource (d : Diagnostic) (src : Source) : Diagnostic :=
  { d with sourceLine := src.lineAt d.line }

def pos (d : Diagnostic) : Position := { file := d.file, line := d.line, column := d.column }

def text (lang : Language) (d : Diagnostic) : String :=
  d.pos.text ++ ": " ++ d.message.render lang

end Diagnostic

end Frontend
