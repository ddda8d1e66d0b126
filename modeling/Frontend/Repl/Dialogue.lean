import Frontend.Cache.Compile

/-!
# Interactive compilation

An input is compiled together with all inputs accepted before it, as one program of one line after
another. If that works the input is accepted, and the code it has added is its answer; if not,
everything stays as it was.
-/

namespace Frontend

/-- What was accepted so far, and how inputs are compiled. -/
structure Repl where
  annotate : Bool := false
  builtins : Registry := .standard
  /-- The accepted inputs, first one first. -/
  accepted : List String := []
  /-- The code of the accepted inputs. -/
  output : String := ""
  deriving Inhabited

namespace Repl

/-- The file name that positions in inputs have. -/
def inputName : String := "<repl>"

/-- The program that an input makes together with the inputs before it. -/
def programWith (r : Repl) (input : String) : String := Text.joinWith "\n" (r.accepted ++ [input])

/-- Forgets the accepted inputs. -/
def reset (r : Repl) : Repl := { r with accepted := [], output := "" }

/-- Compiles an input after the accepted ones: the code it adds, or the failure. -/
def eval (r : Repl) (files : FileTree) (input : String) : Except Failure String × Repl :=
  let options : CompileOptions := { annotate := r.annotate, builtins := r.builtins }
  match compileSource files options (.ofString (r.programWith input)) inputName with
  | .error f => (.error f, r)
  | .ok code =>
    let text := code.render
    (.ok ((Text.dropHead? text r.output).getD text),
      { r with accepted := r.accepted ++ [input], output := text })

end Repl

/-- How brackets and quotes stand at some place of an input. -/
structure OpenMarks where
  braces : Int := 0
  parens : Int := 0
  brackets : Int := 0
  /-- The quote that a string was opened with. -/
  quote : Option Char := none
  /-- Whether the last character was a backslash in a string. -/
  escaped : Bool := false
  deriving DecidableEq, Repr

namespace OpenMarks

/-- What one more character changes. -/
def step (m : OpenMarks) (c : Char) : OpenMarks :=
  if m.escaped then { m with escaped := false }
  else
    match m.quote with
    | some q =>
      if c == '\\' then { m with escaped := true }
      else if c == q then { m with quote := none }
      else m
    | none =>
      match c with
      | '\x22' => { m with quote := some c }
      | '\x27' => { m with quote := some c }
      | '\x7b' => { m with braces := m.braces + 1 }
      | '\x7d' => { m with braces := m.braces - 1 }
      | '(' => { m with parens := m.parens + 1 }
      | ')' => { m with parens := m.parens - 1 }
      | '[' => { m with brackets := m.brackets + 1 }
      | ']' => { m with brackets := m.brackets - 1 }
      | _ => m

/-- How brackets and quotes stand at the end of an input. -/
def ofText (s : String) : OpenMarks := s.toList.foldl step {}

/-- Whether something is still open. -/
def isUnfinished (m : OpenMarks) : Bool :=
  0 < m.braces || 0 < m.parens || 0 < m.brackets || m.quote.isSome

end OpenMarks

namespace Repl

/-- Whether an input goes on in the next line: a bracket or a string is still open. -/
def needsMore (input : String) : Bool := (OpenMarks.ofText input).isUnfinished

def commandNames : List String :=
  [":help", ":quit", ":reset", ":load", ":ra", ":source", ":history"]

/-- What a word that is being typed can become: a command at the start of a line, or else a reserved
word or a built-in function. -/
def completions (builtins : Registry) (line : String) : List String :=
  let isBreak := fun (c : Char) => " \t(,[\x7b".toList.contains c
  let word := (line.toList.reverse.takeWhile (!isBreak ·)).reverse
  let before := line.toList.take (line.length - word.length)
  let candidates := if before.isEmpty && word.head? == some ':' then commandNames
    else reservedWords ++ builtins.names
  if word.isEmpty then []
  else
    (candidates.filter (word.isPrefixOf ·.toList)).map fun c => String.ofList before ++ c

end Repl

/-! ## The dialogue

Reads lines and answers them. Lines are gathered until brackets and strings are closed; a line that
starts with a colon is a command. -/

/-- What a prompt is answered with. -/
inductive ReplInput where
  | line (text : String)
  /-- The input so far is given up. -/
  | abort
  /-- Lines cannot be read any more. -/
  | failure (cause : String)
  /-- There are no more lines. -/
  | finish
  deriving DecidableEq, Repr

/-- How a dialogue ends. -/
inductive ReplEnd where
  | done
  | broken (cause : String)
  deriving DecidableEq, Repr

/-- A dialogue. -/
structure Dialogue where
  repl : Repl := {}
  lang : Language := .english
  primaryPrompt : String := ">>> "
  continuePrompt : String := "... "
  reporter : Reporter := {}
  /-- The inputs so far, first one first. -/
  history : List String := []
  /-- The lines of an input that goes on. -/
  pending : String := ""
  deriving Inhabited

/-- The answer to an input. -/
structure DialogueTurn where
  next : Dialogue
  output : String := ""
  /-- The input to be kept for recall. -/
  remembered : Option String := none
  finished : Option ReplEnd := none
  deriving Inhabited

namespace Dialogue

def welcome : String :=
  "Kite REPL v" ++ compilerVersion ++ "\nType :help for help, :quit to exit\n\n"

/-- The prompt for the next line. -/
def prompt (d : Dialogue) : String :=
  if d.pending.isEmpty then d.primaryPrompt else d.continuePrompt

/-- The answer to a request for help. -/
def help : String :=
  "Available commands:\n" ++
  "  :help, :h, :?     Show this help message\n" ++
  "  :quit, :q, :exit  Exit the REPL\n" ++
  "  :reset, :clear    Forget every accepted input\n" ++
  "  :load <file>      Compile a file as one input\n" ++
  "  :ra               Show the RA code of the whole session\n" ++
  "  :source           Show the accepted source\n" ++
  "  :history, :hist   Show input history\n" ++
  "\n" ++
  "Multi-line input:\n" ++
  "  Unfinished input (open brackets or quotes)\n" ++
  "  continues on the next line.\n" ++
  "\n" ++
  "Examples:\n" ++
  "  >>> var x: int = 10\n" ++
  "  >>> sout(x * 2)\n" ++
  "  >>> fun add(a: int, b: int): int \x7b\n" ++
  "  ...     return a + b\n" ++
  "  ... \x7d\n"

/-- Compiles an input: the dialogue afterwards, the answer, and whether the input was accepted. -/
def execute (d : Dialogue) (files : FileTree) (input : String) : Dialogue × String × Bool :=
  match d.repl.eval files input with
  | (.ok added, repl) => ({ d with repl }, added, true)
  | (.error f, _) =>
    let program := d.repl.programWith input
    let reporter := d.reporter.setSource Repl.inputName program
    let (reporter, text) :=
      f.report files.read? d.lang reporter Repl.inputName (.ofString program)
    ({ d with reporter }, text, false)

/-- Takes the text of a file as an input. -/
def loadFile (d : Dialogue) (files : FileTree) (path : String) : Dialogue × String :=
  match files.read path with
  | .error cause => (d, "Error loading file: " ++ cause.reading path ++ "\n")
  | .ok text =>
    match d.execute files text with
    | (d, output, true) => (d, output ++ "Loaded: " ++ path ++ "\n")
    | (d, output, false) => (d, output)

/-- The history with a number on every input. -/
def historyText (history : List String) : String :=
  String.join (history.zipIdx.map fun (item, i) =>
    Text.padLeft 4 (Text.ofNat (i + 1)) ++ "  " ++ item ++ "\n")

def command (d : Dialogue) (files : FileTree) (line : String) : DialogueTurn :=
  match Text.words line with
  | [] => { next := d }
  | word :: args =>
    match Text.lower word with
    | ":help" | ":h" | ":?" => { next := d, output := help }
    | ":quit" | ":q" | ":exit" => { next := d, output := "Bye!\n", finished := some .done }
    | ":reset" | ":clear" =>
      { next := { d with repl := d.repl.reset }, output := "Session reset.\n" }
    | ":load" | ":l" =>
      match args with
      | [] => { next := d, output := "Usage: :load <filename>\n" }
      | path :: _ =>
        let (next, output) := d.loadFile files path
        { next, output }
    | ":ra" => { next := d, output := d.repl.output }
    | ":source" => { next := d, output := String.join (d.repl.accepted.map (· ++ "\n")) }
    | ":history" | ":hist" => { next := d, output := historyText d.history }
    | other => { next := d, output := "Unknown command: " ++ other ++
        "\nType :help for available commands.\n" }

/-- How many inputs the history keeps. -/
def maxHistory : Nat := 1000

/-- The history after one more input: nothing changes when the last input is repeated, and the oldest
inputs go when there are too many. -/
def remember (history : List String) (input : String) : List String × Option String :=
  if history.getLast? == some input then (history, none)
  else
    let longer := history ++ [input]
    (longer.drop (longer.length - maxHistory), some input)

def takeLine (d : Dialogue) (files : FileTree) (line : String) : DialogueTurn :=
  let input := if d.pending.isEmpty then line else d.pending ++ "\n" ++ line
  if Repl.needsMore input then { next := { d with pending := input } }
  else
    let d := { d with pending := "" }
    if (Text.trim input).isEmpty then { next := d }
    else
      let (history, remembered) := remember d.history input
      let (next, output, _) := { d with history }.execute files input
      { next, output, remembered }

def turn (d : Dialogue) (files : FileTree) : ReplInput → DialogueTurn
  | .abort => { next := { d with pending := "" } }
  | .failure cause => { next := d, finished := some (.broken cause) }
  | .finish => { next := d, output := "\nBye!\n", finished := some .done }
  | .line text =>
    if d.pending.isEmpty && Text.startsWith text ":" then d.command files text
    else d.takeLine files text

/-- One prompt of a dialogue and what followed it. -/
structure Exchange where
  prompt : String
  output : String
  remembered : Option String
  deriving Repr

/-- Holds a dialogue over given inputs; when they are used up there are no more lines. -/
def converse (files : FileTree) : Dialogue → List ReplInput → List Exchange × ReplEnd
  | d, [] =>
    let t := d.turn files .finish
    ([⟨d.prompt, t.output, none⟩], t.finished.getD .done)
  | d, input :: rest =>
    let t := d.turn files input
    let exchange : Exchange := ⟨d.prompt, t.output, t.remembered⟩
    match t.finished with
    | some e => ([exchange], e)
    | none =>
      let (more, e) := converse files t.next rest
      (exchange :: more, e)

end Dialogue

end Frontend
