import Frontend.Command.Flag
import Frontend.Diagnostic.Suggestion

/-!
# Commands

The commands of the program, their options, and the reading of a command line: it is refused, asks for
help, or asks for a command to be run.
-/

namespace Frontend

/-- The commands of the program. -/
inductive Command where
  | build
  | check
  | tokens
  | tree
  | repl
  | init
  | version
  | help
  | completion
  deriving DecidableEq, Repr, Inhabited

/-- How many operands a command takes. -/
inductive OperandRule where
  | any
  | none
  | atMost (n : Nat)
  | exactly (n : Nat)
  deriving DecidableEq, Repr

namespace Command

def program : String := "kite"

def programSummary : String :=
  "Kite compiler: translates .kite sources into RA instruction text"

def all : List Command :=
  [build, check, tokens, tree, repl, init, version, help, completion]

def name : Command → String
  | build => "build"
  | check => "check"
  | tokens => "tokens"
  | tree => "ast"
  | repl => "repl"
  | init => "init"
  | version => "version"
  | help => "help"
  | completion => "completion"

def ofName? (s : String) : Option Command := all.find? (·.name == s)

def path (c : Command) : String := program ++ " " ++ c.name

/-- How the operands of a command are written in its usage. -/
def operandText : Command → String
  | build | check => " [file]"
  | tokens | tree => " <file>"
  | help => " [command]"
  | _ => ""

def summary : Command → String
  | build => "Compile a source file into RA instruction text"
  | check => "Compile a source file and report diagnostics without writing output"
  | tokens => "Print the token stream of a source file"
  | tree => "Print the parsed syntax tree of a source file"
  | repl => "Start an interactive session that prints RA text for each input"
  | init => "Create a kite.toml in the current directory"
  | version => "Print version information"
  | help => "Help about any command"
  | completion => "Generate the autocompletion script for the specified shell"

/-- What the help for a command starts with. -/
def description : Command → String
  | build =>
    "Compile a source file into RA instruction text.\n\n" ++
    "Without a file argument the entry of kite.toml is built. The output goes to\n" ++
    "<build.output>/<name>.ra unless -o is given; -o - writes to stdout."
  | help =>
    "Help provides help for any command in the application.\n" ++
    "Simply type kite help [path to command] for full details."
  | completion =>
    "Generate the autocompletion script for kite for the specified shell.\n" ++
    "See each sub-command's help for details on how to use the generated script."
  | c => c.summary

def operandRule : Command → OperandRule
  | build | check => .atMost 1
  | tokens | tree => .exactly 1
  | help => .any
  | _ => .none

/-- The option that asks for help. -/
def helpFlag (subject : String) : Flag :=
  { name := "help", short := some 'h', usage := "help for " ++ subject }

/-- The option to show where code comes from. -/
def annotateFlag : Flag := { name := "annotate", usage := "annotate RA text with source lines" }

/-- The options that all commands share, by name. -/
def sharedFlags : List Flag := [
  { name := "lang", value := some "string", usage := "diagnostic language (en|zh)" },
  { name := "no-color", usage := "disable colored diagnostics" },
  { name := "verbose", short := some 'v', usage := "print compiler debug logs" }]

/-- The options of a command itself, by name. -/
def ownFlags (c : Command) : List Flag :=
  let help := helpFlag c.name
  match c with
  | build => [annotateFlag, help, { name := "no-cache", usage := "ignore the compile cache" },
      { name := "output", short := some 'o', value := some "string",
        usage := "output file (- for stdout)" }]
  | repl => [annotateFlag, help]
  | init => [help,
      { name := "name", value := some "string",
        usage := "project name (defaults to the directory name)" }]
  | _ => [help]

/-- The options that count for a command. -/
def flags (c : Command) : List Flag := c.ownFlags ++ sharedFlags

/-- How far the name of a command that was probably meant may be off. -/
def tolerance : Nat := 2

/-- The distance of two names, counted in bytes. -/
def nameDistance (a b : String) : Nat :=
  let bytes := fun (s : String) => (Text.lower s).toUTF8.toList.map fun b => Char.ofNat b.toNat
  Suggestion.distanceOf (bytes a) (bytes b)

/-- The names of commands that were probably meant by a name: those close to it and those that it is
the beginning of. -/
def similarTo (s : String) : List String :=
  ((all.filter (· != help)).map name).filter fun n =>
    nameDistance s n ≤ tolerance || Text.startsWith n (Text.lower s)

/-- The command that a command line is for, if any, and the other words. -/
def locate (words : List String) : Except UsageError (Option Command × List String) :=
  match Flag.bareWords sharedFlags words with
  | [] => .ok (none, words)
  | first :: _ =>
    match ofName? first with
    | some c => .ok (some c, Flag.withoutBareWord sharedFlags first words)
    | none => .error (.unknownCommand first program (similarTo first))

/-- Whether a command is run at all; the others only have help. -/
def isRunnable (c : Command) : Bool := c != completion

/-- Refuses operands that a command does not take. -/
def checkOperands (c : Command) (operands : List String) : Except UsageError Unit :=
  match c.operandRule, operands with
  | .any, _ | .none, [] => .ok ()
  | .none, first :: _ => .error (.unknownCommand first c.path [])
  | .atMost n, xs => if xs.length ≤ n then .ok () else .error (.tooManyOperands n xs.length)
  | .exactly n, xs => if xs.length = n then .ok () else .error (.operandCount n xs.length)

/-- What a command line asks for. -/
inductive Request where
  /-- Help for a command, or for the program. -/
  | help (topic : Option Command)
  | run (c : Command) (given : Given)
  deriving DecidableEq, Repr

def read (words : List String) : Except UsageError Request := do
  match ← locate words with
  | (none, rest) =>
    let _ ← Given.read (helpFlag program :: sharedFlags) rest
    return .help none
  | (some c, rest) =>
    let given ← Given.read c.flags rest
    if given.isOn "help" || !c.isRunnable then return .help (some c)
    else
      c.checkOperands given.operands
      return .run c given

/-! ## Help

The texts that explain the program and its commands. -/

/-- An option as it is written, with the kind of its value. -/
def flagHead (f : Flag) : String :=
  let name := match f.short with
    | some c => "  -" ++ String.singleton c ++ ", --" ++ f.name
    | none => "      --" ++ f.name
  match f.value with
  | some kind => name ++ " " ++ kind
  | none => name

/-- A text with blanks behind it up to a width. -/
def padRight (width : Nat) (s : String) : String := s ++ Text.run ' ' (width - s.length)

/-- Options in lines, their explanations below each other. -/
def flagTable (flags : List Flag) : String :=
  let width := flags.foldl (fun w f => max w (flagHead f).length) 0
  Text.joinWith "\n" (flags.map fun f => padRight (width + 3) (flagHead f) ++ f.usage)

/-- Names with their explanations, one below the other. -/
def nameTable (rows : List (String × String)) : String :=
  String.join (rows.map fun (name, summary) => "\n  " ++ padRight 12 name ++ summary)

/-- The commands below the program, or below a command, by name. -/
def below : Option Command → List (String × String)
  | none => (all.map fun c => (c.name, c.summary)).mergeSort fun a b => decide (a.1 ≤ b.1)
  | some completion => ["bash", "fish", "powershell", "zsh"].map fun shell =>
      (shell, "Generate the autocompletion script for " ++ shell)
  | some _ => []

/-- How the program or a command is called, and with which options. -/
def usage (topic : Option Command) (own : List Flag) : String :=
  let path := (topic.map Command.path).getD program
  let subs := below topic
  let whenSubs := fun (s : String) => if subs.isEmpty then "" else s
  let line := match topic with
    | some c => if c.isRunnable then "\n  " ++ path ++ c.operandText ++ " [flags]" else ""
    | none => ""
  "Usage:" ++ line ++ whenSubs ("\n  " ++ path ++ " [command]") ++
    whenSubs ("\n\nAvailable Commands:" ++ nameTable subs) ++
    "\n\nFlags:\n" ++ flagTable own ++
    (if topic.isSome then "\n\nGlobal Flags:\n" ++ flagTable sharedFlags else "") ++
    whenSubs ("\n\nUse \"" ++ path ++ " [command] --help\" for more information about a command.") ++
    "\n"

def helpText : Option Command → String
  | none => programSummary ++ "\n\n" ++ usage none (helpFlag program :: sharedFlags)
  | some c => c.description ++ "\n\n" ++ usage (some c) c.ownFlags

/-- A text between backquotes, or between double quotes when it cannot stand between backquotes. -/
def backquoted (s : String) : String :=
  if s.toList.any fun c => c == '\x60' || c.toNat < 0x20 && c != '\t' || c.toNat == 0x7F ||
      c.toNat == 0xFEFF
  then Text.quote s else "\x60" ++ s ++ "\x60"

/-- What is said when help is asked for something that is no command. -/
def unknownTopic (words : List String) : String :=
  "Unknown help topic [" ++ Text.joinWith " " (words.map backquoted) ++ "]\n" ++
    usage none sharedFlags

end Command

end Frontend
