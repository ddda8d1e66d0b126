import Frontend.Diagnostic.Suggestion

/-!
# Layout of diagnostics

A diagnostic is shown with a banner, a head line, its place, the source line with a caret row under
it, and then its infos and hints:

```text
--- Type Mismatch Error ---
error[E0200]: type mismatch: expected int, found str
 --> main:3:14
  |
3 | var x: int = "a"
  |              ^^^
  = info: ...
  = help: ...
```
-/

namespace Frontend

/-- How diagnostics are laid out. -/
structure Layout where
  colors : Bool := false
  showSource : Bool := true
  showHints : Bool := true
  tabWidth : Nat := 4
  deriving Repr, Inhabited

namespace Layout

/-- A terminal style: the number of its color, and whether it is bold. -/
structure Style where
  color : Nat
  bold : Bool

def red : Style := ⟨31, true⟩
def yellow : Style := ⟨33, true⟩
def cyan : Style := ⟨36, true⟩
def magenta : Style := ⟨35, true⟩
def blue : Style := ⟨34, true⟩
def thinCyan : Style := ⟨36, false⟩
def thinGreen : Style := ⟨32, false⟩

/-- Wraps a text in the control sequences of a style. -/
def paint (l : Layout) (style : Style) (s : String) : String :=
  if !l.colors then s
  else if style.bold then "\x1b[" ++ Text.ofNat style.color ++ ";1m" ++ s ++ "\x1b[0;22m"
  else "\x1b[" ++ Text.ofNat style.color ++ "m" ++ s ++ "\x1b[0m"

def levelStyle : Level → Style
  | .warning => yellow
  | .note | .help => cyan
  | _ => red

/-- Replaces tabs by spaces. -/
def expandTabs (l : Layout) (s : String) : String :=
  Text.replaceChar '\t' (Text.run ' ' l.tabWidth) s

/-- The columns that one character takes up. -/
def charWidth (l : Layout) (c : Char) : Nat := if c == '\t' then l.tabWidth else 1

/-- The shown column of a character column: tabs before it count as their width, and columns beyond
the end of the line count one each. -/
def shownColumn (l : Layout) (line : String) (column : Int) : Int :=
  if column ≤ 0 then 1
  else
    let before := line.toList.take (column.toNat - 1)
    1 + Number.total (before.map l.charWidth) + ((column.toNat - 1) - before.length : Nat)

/-- The source line with its gutter, and the caret row when a column is known. -/
def sourceLines (l : Layout) (line : String) (number start finish : Int) (width : Nat) : String :=
  let gutter := l.paint blue (Text.run ' ' width ++ " |")
  let shown := l.paint blue (Text.padLeft width (Text.ofInt number) ++ " |")
  let head := gutter ++ "\n" ++ shown ++ " " ++ l.expandTabs line ++ "\n"
  if start ≤ 0 then head
  else
    let length := if finish - start < 1 then 1 else finish - start
    head ++ gutter ++ " " ++ Text.run ' ' (l.shownColumn line start - 1).toNat ++
      l.paint red (Text.run '^' length.toNat) ++ "\n"

/-- The head line: level, code and message. -/
def headLine (l : Layout) (lang : Language) (d : Diagnostic) : String :=
  let head := d.level.text ++ (if d.code.isEmpty then "" else "[" ++ d.code ++ "]")
  l.paint (levelStyle d.level) head ++ ": " ++ d.message.render lang ++ "\n"

/-- The line with the place, if the diagnostic has one. -/
def placeLine (l : Layout) (d : Diagnostic) : String :=
  if d.line ≤ 0 then ""
  else
    let file := if d.file.isEmpty then "<input>" else d.file
    let place := file ++ ":" ++ Text.ofInt d.line ++ ":" ++ Text.ofInt d.column
    " " ++ l.paint thinCyan "-->" ++ " " ++ l.paint thinCyan place ++ "\n"

/-- The source line to show: the diagnostic's own, or else the one of the given lines. -/
def shownLine (d : Diagnostic) (lines : List String) : String :=
  if d.sourceLine.isEmpty && 0 < d.line then (lines[d.line.toNat - 1]?).getD "" else d.sourceLine

/-- Lays out one diagnostic. `lines` is the source text to fall back on. -/
def format (l : Layout) (lang : Language) (d : Diagnostic) (lines : List String) : String :=
  let banner := l.paint magenta ("--- " ++ d.category.title.render lang ++ " ---") ++ "\n"
  let line := shownLine d lines
  let width := (Text.ofInt d.line).length
  let source :=
    if l.showSource && !line.isEmpty then l.sourceLines line d.line d.column d.endColumn width
    else ""
  let pad := Text.run ' ' (width + 1)
  let infos := d.infos.map fun p => pad ++ l.paint cyan "= info:" ++ " " ++ p.render lang ++ "\n"
  let hints := if l.showHints then
      d.hints.map fun p => pad ++ l.paint thinGreen "= help:" ++ " " ++ p.render lang ++ "\n"
    else []
  banner ++ l.headLine lang d ++ l.placeLine d ++ source ++ String.join infos ++ String.join hints

/-- Lays out several diagnostics with a count at the end. -/
def formatAll (l : Layout) (lang : Language) (ds : List Diagnostic)
    (sources : String → List String) : String :=
  let shown := Text.joinWith "\n" (ds.map fun d => l.format lang d (sources d.file))
  if ds.length > 1 then
    shown ++ l.paint red ("\n" ++ Text.ofNat ds.length ++ " errors") ++ "\n"
  else shown

/-- Whether a character may stand inside a color sequence. -/
def isStyleChar (c : Char) : Bool := Text.isDigit c || c == ';'

/-- Removes color sequences from a text. -/
def stripStyles : Nat → List Char → List Char
  | 0, cs => cs
  | _, [] => []
  | fuel + 1, '\x1b' :: '[' :: rest =>
    match rest.dropWhile isStyleChar with
    | 'm' :: more => stripStyles fuel more
    | _ => '\x1b' :: stripStyles fuel ('[' :: rest)
  | fuel + 1, c :: rest => c :: stripStyles fuel rest

/-- A text without color sequences. -/
def strip (s : String) : String := String.ofList (stripStyles s.length s.toList)

end Layout

/-! ## Reporters

A reporter prints diagnostics and remembers them. It keeps the source lines of the files it has seen,
so that it can show the line a diagnostic points to. -/

/-- A reporter and what it has reported so far. -/
structure Reporter where
  layout : Layout := {}
  sources : List (String × List String) := []
  errors : List Diagnostic := []
  warnings : List Diagnostic := []
  deriving Inhabited

namespace Reporter

def setSource (r : Reporter) (file text : String) : Reporter :=
  { r with sources := (file, Text.lines text) :: r.sources.filter (·.1 != file) }

/-- Reads a file unless its text is known already. The answer says whether the text could be had; a
file without a name needs none. -/
def load (read : String → Option String) (r : Reporter) (file : String) : Reporter × Bool :=
  if file.isEmpty then (r, true)
  else if (r.sources.lookup file).isSome then (r, true)
  else match read file with
    | some text => (r.setSource file text, true)
    | none => (r, false)

/-- A line of a known file without trailing carriage returns. -/
def sourceLine (r : Reporter) (file : String) (line : Int) : String :=
  if line ≤ 0 then ""
  else match ((r.sources.lookup file).getD [])[line.toNat - 1]? with
    | some text => String.ofList (Text.dropEndWhile (· == '\r') text.toList)
    | none => ""

/-- Fills in the advice that goes with the code when there is none. -/
def advise (d : Diagnostic) : Diagnostic :=
  if d.hints.isEmpty then { d with hints := Suggestion.ofCode d.code } else d

/-- Reports a diagnostic: the reporter afterwards, the diagnostic with its advice, and the text. -/
def report (read : String → Option String) (lang : Language) (r : Reporter) (d : Diagnostic) :
    Reporter × Diagnostic × String :=
  let r := (r.load read d.file).1
  let d := advise d
  let r := if d.level == .warning then { r with warnings := r.warnings ++ [d] }
    else { r with errors := r.errors ++ [d] }
  (r, d, r.layout.format lang d ((r.sources.lookup d.file).getD []))

def reportAll (read : String → Option String) (lang : Language) :
    Reporter → List Diagnostic → Reporter × String
  | r, [] => (r, "")
  | r, d :: ds =>
    let (r, _, text) := r.report read lang d
    let (r, rest) := reportAll read lang r ds
    (r, text ++ rest)

/-- The text for a failure that is no diagnostic. -/
def plain (r : Reporter) (message : String) : String :=
  r.layout.paint Layout.red "error" ++ ": " ++ message ++ "\n"

/-- Forgets what was reported. -/
def clear (r : Reporter) : Reporter := { r with errors := [], warnings := [] }

end Reporter

end Frontend
