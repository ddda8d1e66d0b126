import Frontend.Project.Basic
import Frontend.Server.Frame

/-!
# Documents

The documents that an editor has open. Their text is kept as bytes, because an edit may cut a
character in two. Every change is followed by a complete analysis.
-/

namespace Frontend

/-- A place in a document: a line and a byte of it, both counted from zero. -/
structure TextPosition where
  line : Nat := 0
  character : Nat := 0
  deriving DecidableEq, Repr, Inhabited

/-- A part of a document. -/
structure TextRange where
  start : TextPosition := {}
  finish : TextPosition := {}
  deriving DecidableEq, Repr, Inhabited

/-- A change of a document. -/
structure TextChange where
  range : TextRange := {}
  rangeLength : Nat := 0
  text : Bytes := []
  deriving DecidableEq, Repr, Inhabited

namespace TextEdit

def carriageReturn : UInt8 := 13

/-- A text with all line ends written the same way. -/
def unifyLines (content : Bytes) : Bytes :=
  let pairs := content.zip (content.drop 1 ++ [0])
  let kept := pairs.filter fun (b, next) => !(b == carriageReturn && next == Frame.newline)
  kept.map fun (b, _) => if b == carriageReturn then Frame.newline else b

/-- The lines of a text. There is always at least one. -/
def lines (content : Bytes) : List Bytes := Text.splitAt (· == Frame.newline) (unifyLines content)

/-- Replaces a range of a text. A place behind the end of its line is the end of the line, and a line
behind the last one is the last one. -/
def replace (content : Bytes) (range : TextRange) (text : Bytes) : Bytes :=
  let ls := lines content
  let startLine := min range.start.line (ls.length - 1)
  let endLine := min range.finish.line (ls.length - 1)
  let head := (ls.take startLine).flatMap (· ++ [Frame.newline])
  let tail := (ls.drop (endLine + 1)).flatMap (Frame.newline :: ·)
  head ++ (ls.getD startLine []).take range.start.character ++ text ++
    (ls.getD endLine []).drop range.finish.character ++ tail

/-- Whether a change gives the whole text. It does when it names no range. -/
def isWhole (c : TextChange) : Bool := c.range == {} && c.rangeLength == 0

def apply (content : Bytes) (c : TextChange) : Bytes :=
  if isWhole c then c.text else replace content c.range c.text

end TextEdit

/-- A document that is open. -/
structure Document where
  uri : String
  path : String
  content : Bytes
  version : Int := 0
  /-- The program as far as it could be read; nothing when not even its tokens could be. -/
  program : Option Program := none
  diagnostics : List Diagnostic := []

namespace Document

/-- The largest document that is analysed. -/
def maxSize : Nat := 500 * 1024

/-- The diagnostic at the start of a document for something that has no place. -/
def general (path : String) (message : Phrase) : Diagnostic :=
  .mkAt .semantic Code.semantic { file := path, line := 1, column := 1 } message

/-- How a document is compiled: in its project, if the settings of that can be read. -/
def options (w : World) (builtins : Registry) (path : String) : CompileOptions :=
  { builtins
    imports := if path.isEmpty then none else (Imports.forFile w path).toOption }

/-- Analyses a document again. -/
def analyze (w : World) (lang : Language) (builtins : Registry) (d : Document) : Document :=
  if maxSize < d.content.length then
    { d with
      program := none
      diagnostics := [general d.path (.text "document too large to analyze")] }
  else
    let src := Source.ofBytes d.content
    let failed := fun (program : Option Program) (f : Failure) =>
      let found := f.diagnostics d.path src
      { d with
        program
        diagnostics := if found.isEmpty then [general d.path (.text (f.text lang))] else found }
    match src.scan d.path with
    | .error e => failed none (.diagnostic e)
    | .ok tokens =>
      let parsed := Program.ofTokens tokens
      if !parsed.errors.isEmpty then failed (some parsed.program) (.grammar parsed.errors)
      else
        match compileSource w.tree (options w builtins d.path) src d.path with
        | .error f => failed (some parsed.program) f
        | .ok _ => { d with program := some parsed.program, diagnostics := [] }

/-- A line of a document, counted from zero; empty when there is none. -/
def line (d : Document) (n : Nat) : Bytes := (TextEdit.lines d.content).getD n []

def isWordByte (b : UInt8) : Bool :=
  (97 ≤ b && b ≤ 122) || (65 ≤ b && b ≤ 90) || (48 ≤ b && b ≤ 57) || b == 95

/-- The word in front of a place. -/
def wordBefore (d : Document) (p : TextPosition) : String :=
  let before := (d.line p.line).take p.character
  let word := (before.reverse.takeWhile isWordByte).reverse
  String.ofList (word.map fun b => Char.ofNat b.toNat)

/-- How long the word at a place of a line is; at least one. -/
def wordLength (line : Bytes) (character : Nat) : Nat :=
  max 1 ((line.drop character).takeWhile isWordByte).length

end Document

/-! ## Outlines and completions

What an editor can show of a document: the tree of its definitions, and what a word that is being
typed can become. -/

/-- The kinds of definitions in an outline. -/
inductive OutlineKind where
  | cls
  | method
  | field
  | construct
  | function
  | var
  deriving DecidableEq, Repr

def OutlineKind.number : OutlineKind → Nat
  | cls => 5
  | method => 6
  | field => 8
  | construct => 9
  | function => 12
  | var => 13

/-- A definition in an outline, with the definitions inside of it. -/
inductive OutlineItem where
  | mk (name detail : String) (kind : OutlineKind) (range selection : TextRange)
      (children : List OutlineItem)
  deriving Repr

/-- The place in a document that a position stands for. -/
def TextPosition.ofPosition (p : Position) : TextPosition :=
  { line := (p.line - 1).toNat, character := (p.column - 1).toNat }

/-- The range between two positions. -/
def TextRange.ofPositions (start finish : Position) : TextRange :=
  { start := .ofPosition start, finish := .ofPosition finish }

/-- The first line of a function. -/
def functionHeading (name : Ident) (params : List Param) (labels : List Label) : String :=
  let heading := "fun " ++ name.name ++ "(" ++ Text.joinWith ", " (Param.texts params) ++ ")"
  if labels.isEmpty then heading else heading ++ ": " ++ Text.joinWith " " (Label.texts labels)

namespace OutlineItem

/-- An item for a definition that has a name of its own. -/
def ofNode (n : Node) (name : Ident) (kind : OutlineKind) (detail : String)
    (children : List OutlineItem) : OutlineItem :=
  .mk name.name detail kind (.ofPositions n.pos n.finish)
    (.ofPositions name.token.pos name.token.finish) children

mutual
/-- The items for a node. Inside of a class functions are methods and variables are fields. -/
def ofDefinition (inClass : Bool) : Node → List OutlineItem
  | .funDef t i ps ls b a =>
    [ofNode (.funDef t i ps ls b a) i (if inClass then .method else .function)
      (functionHeading i ps ls) []]
  | .funDecl t i ps ls =>
    [ofNode (.funDecl t i ps ls) i (if inClass then .method else .function)
      (functionHeading i ps ls) []]
  | .constructor t i ps ls b =>
    [ofNode (.constructor t i ps ls b) i .construct (functionHeading i ps ls) []]
  | .classDef t i (.mk o c items) =>
    [ofNode (.classDef t i (.mk o c items)) i .cls i.text (ofItems true items)]
  | .classDecl t i => [ofNode (.classDecl t i) i .cls "declaration" []]
  | .varDef _ names _ =>
    names.map fun i => ofNode (.ident i) i (if inClass then .field else .var) i.text []
  | _ => []

def ofItems (inClass : Bool) : List Node → List OutlineItem
  | [] => []
  | n :: ns => ofDefinition inClass n ++ ofItems inClass ns
end

end OutlineItem

/-- The kinds of completions, in the order in which they are offered. -/
inductive CompletionKind where
  | function
  | var
  | cls
  | keyword
  deriving DecidableEq, Repr

def CompletionKind.number : CompletionKind → Nat
  | function => 3
  | var => 6
  | cls => 7
  | keyword => 14

/-- Something that a word can become. -/
structure Completion where
  label : String
  kind : CompletionKind
  detail : String
  deriving DecidableEq, Repr

namespace Completion

/-- What the definitions of a program offer. -/
def ofNode : Node → List Completion
  | .funDef _ i ps ls _ _ => [⟨i.name, .function, functionHeading i ps ls⟩]
  | .funDecl _ i ps ls => [⟨i.name, .function, functionHeading i ps ls⟩]
  | .classDef _ i _ => [⟨i.name, .cls, "class"⟩]
  | .classDecl _ i => [⟨i.name, .cls, "class"⟩]
  | .varDef _ names _ => names.map fun i => ⟨i.name, .var, i.text⟩
  | _ => []

/-- Everything that can be offered: definitions, then built-in functions, then reserved words. -/
def candidates (program : Option Program) (builtins : Registry) : List Completion :=
  (program.map fun p => p.body.flatMap ofNode).getD [] ++
  builtins.names.filterMap (fun name => (builtins.find? name).map fun e =>
    ⟨name, .function, "builtin, " ++ e.usage⟩) ++
  reservedWords.map fun w => ⟨w, .keyword, "keyword"⟩

/-- The first offer for every label. -/
def firsts : List String → List Completion → List Completion
  | _, [] => []
  | seen, c :: cs => if seen.contains c.label then firsts seen cs else c :: firsts (c.label :: seen) cs

/-- What a word can become, by kind. -/
def offers (program : Option Program) (builtins : Registry) (word : String) : List Completion :=
  let fitting := (candidates program builtins).filter fun c => Text.startsWith c.label word
  (firsts [] fitting).mergeSort fun a b => decide (a.kind.number ≤ b.kind.number)

end Completion

end Frontend
