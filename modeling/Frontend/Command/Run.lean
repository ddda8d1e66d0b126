import Frontend.Command.Basic
import Frontend.Repl.Dialogue

/-!
# Running commands

Runs a command line in a world: what is printed, how it ends, and the files afterwards. A command that
fails ends with 1 and says why on the error output.
-/

namespace Frontend

/-- How a command ended. -/
structure Outcome where
  code : Nat := 0
  out : String := ""
  err : String := ""
  files : FileTree
  deriving Inhabited

namespace Outcome

/-- The outcome of a command that failed for a reason other than a source text. -/
def refused (files : FileTree) (message : String) : Outcome :=
  { code := 1, err := ({} : Reporter).plain message, files }

/-- The outcome of a command that could not compile a file. -/
def failed (files : FileTree) (lang : Language) (file : String) (f : Failure) : Outcome :=
  let src := Source.ofString ((files.read? file).getD "")
  { code := 1, err := (f.report files.read? lang {} file src).2, files }

end Outcome

/-- What a command sees: the world, the language of its messages, and what was given to it. -/
structure CommandContext where
  world : World
  lang : Language
  given : Given
  input : String
  deriving Inhabited

namespace CommandContext

def files (c : CommandContext) : FileTree := c.world.tree

/-- The first operand as an absolute path. -/
def operand? (c : CommandContext) : Option String :=
  c.given.operands.head?.map (Path.absolute c.files.cwd)

/-- The outcome of a command that prints a text and leaves the files alone. -/
def printed (c : CommandContext) (out : String) : Outcome := { out, files := c.files }

/-- Does something in the project of the first operand. -/
def inProject (c : CommandContext) (file : Option String) (action : Project → Outcome) : Outcome :=
  match Project.openFor c.world file with
  | .error f => .failed c.files c.lang "" f
  | .ok p => action p

/-- Does something with the first operand, or with the entry file of the project. -/
def withEntry (c : CommandContext) (action : Project → String → Outcome) : Outcome :=
  c.inProject c.operand? fun p =>
    match c.operand?.or p.entry? with
    | some file => action p file
    | none => .refused c.files ("no input file and no entry in " ++ Config.fileName)

def codeExtension : String := ".ra"

/-- The file that the code of a source file goes to when none is named. -/
def codeFile (p : Project) (file : String) : String :=
  Path.join [Config.resolve p.root p.config.output, Path.stem file ++ codeExtension]

def writeCode (c : CommandContext) (files : FileTree) (file output code : String) : Outcome :=
  match files.makeDirs (Path.dir output) with
  | (.error e, files) => .refused files e.text
  | (.ok _, files) =>
    match files.write output code with
    | .error e => .refused files ("open " ++ output ++ ": " ++ e.text)
    | .ok files =>
      { c.printed ("Built " ++ file ++ " -> " ++ output ++ "\n") with files }

/-- Compiles a file with the cache of its project, if it has one. A cache that cannot be had or
written does no harm. -/
def compileInProject (c : CommandContext) (p : Project) (file : String) :
    Except Failure String × FileTree :=
  let options := p.options (c.given.isOn "annotate")
  if p.config.cache && !c.given.isOn "no-cache" then
    let (opened, files) := Cache.openAt c.files (Config.resolve p.root p.config.cacheDir)
    let w := { c.world with tree := files }
    match opened with
    | .error _ => (compileFile w options file, files)
    | .ok cache =>
      let (result, cache, files) := compileFileCached w options cache file
      (result, (cache.flush files).2.2)
  else (compileFile c.world options file, c.files)

/-- Compiles a file and writes its code. -/
def build (c : CommandContext) : Outcome :=
  c.withEntry fun p file =>
    match c.compileInProject p file with
    | (.error f, files) => .failed files c.lang file f
    | (.ok code, files) =>
      match c.given.value "output" with
      | "-" => { c.printed code with files }
      | "" => c.writeCode files file (codeFile p file) code
      | output => c.writeCode files file output code

/-- Compiles a file and keeps only the verdict. -/
def check (c : CommandContext) : Outcome :=
  c.withEntry fun p file =>
    match compileFile c.world (p.options false) file with
    | .error f => .failed c.files c.lang file f
    | .ok _ => c.printed (file ++ ": ok\n")

/-- Does something with the text of the first operand. -/
def withSource (c : CommandContext) (action : String → Source → Except SourceError String) :
    Outcome :=
  let path := c.operand?.getD c.files.cwd
  match c.files.read path with
  | .error e =>
    .refused c.files ("failed to read " ++ c.given.operands.headD "" ++ ": " ++ e.reading path)
  | .ok text =>
    match action path (.ofString text) with
    | .error e => .failed c.files c.lang path (.ofSourceError e)
    | .ok out => c.printed out

/-- Prints the tokens of a file. -/
def tokens (c : CommandContext) : Outcome :=
  c.withSource fun path src =>
    match src.scan path with
    | .error d => .error (.scan d)
    | .ok ts => .ok (String.join (ts.map fun t => t.text ++ "\n"))

/-- Prints the statements of a file. -/
def tree (c : CommandContext) : Outcome :=
  c.withSource fun path src => (Program.ofSource src path).map fun p =>
    String.join ((Node.texts p.body).zipIdx.map fun (t, i) =>
      "[" ++ Text.ofNat i ++ "] " ++ t ++ "\n")

/-- How many bytes of a line are read at a time. A longer line comes in pieces of this size. -/
def maxPiece : Nat := 4096

/-- Characters from the front that take up at most `room` bytes, and the others. -/
def splitBytes : (room : Nat) → List Char → List Char × List Char
  | _, [] => ([], [])
  | room, c :: cs =>
    if c.utf8Size ≤ room then
      let (front, rest) := splitBytes (room - c.utf8Size) cs
      (c :: front, rest)
    else ([], c :: cs)

/-- Text without a carriage return at its end. -/
def withoutReturn (cs : List Char) : List Char :=
  if cs.getLast? == some '\r' then cs.dropLast else cs

/-- The pieces of a line, at most `n` of them before the last. A carriage return in front of the end of
the line does not count; one at the end of a piece goes to the next piece, where the end may follow. -/
def pieces (ended : Bool) : (n : Nat) → List Char → List (List Char)
  | 0, cs => [cs]
  | n + 1, cs =>
    match splitBytes maxPiece cs with
    | (front, rest) =>
      if (String.ofList front).utf8ByteSize < maxPiece && rest.isEmpty then
        if ended then [withoutReturn cs] else if cs.isEmpty then [] else [cs]
      else
        let front := withoutReturn front
        front :: pieces ended n (cs.drop front.length)

/-- The lines of an input, in pieces. The last line has no end; when nothing stands in it, it does not
count. -/
def inputLines (input : String) : List String :=
  let lines := (Text.lines input).map String.toList
  let read := fun (ended : Bool) (cs : List Char) =>
    (pieces ended cs.length.succ cs).map String.ofList
  lines.dropLast.flatMap (read true) ++ lines.getLast?.toList.flatMap (read false)

/-- The file that keeps the inputs of dialogues. -/
def historyFile (c : CommandContext) : Option String :=
  let home := c.world.setting "HOME"
  if home.isEmpty then none else some (Path.join [home, ".kite_history"])

/-- The inputs in a history file. A line that does not come in one piece ends it; of the lines before it
the newest are kept. -/
def keptInputs (text : String) : List String :=
  let lines := Text.lines text
  let short := lines.takeWhile (·.utf8ByteSize < maxPiece)
  let kept := inputLines (Text.joinWith "\n" short ++ if short.length < lines.length then "\n" else "")
  kept.drop (kept.length - Dialogue.maxHistory)

/-- The kept inputs with those of one more dialogue. -/
def extendHistory (kept new : List String) : List String :=
  new.foldl (fun history input => (Dialogue.remember history input).1) kept

/-- Holds a dialogue on the input. -/
def repl (c : CommandContext) : Outcome :=
  c.inProject none fun p =>
    let d : Dialogue :=
      { repl := { annotate := c.given.isOn "annotate", builtins := p.builtins }, lang := c.lang }
    let (exchanges, ending) := d.converse c.files ((inputLines c.input).map .line)
    let out := Dialogue.welcome ++ String.join (exchanges.map fun e => e.prompt ++ e.output)
    let files := (c.historyFile.bind fun file =>
      let kept := keptInputs ((c.files.read? file).getD "")
      let history := extendHistory kept (exchanges.filterMap (·.remembered))
      (c.files.write file (String.join (history.map (· ++ "\n")))).toOption).getD c.files
    match ending with
    | .done => { c.printed out with files }
    | .broken cause => { Outcome.refused files cause with out }

/-- Writes settings for a project in the working directory. -/
def init (c : CommandContext) : Outcome :=
  let dir := c.files.cwd
  let path := Path.join [dir, Config.fileName]
  if c.files.pathExists path then .refused c.files (Config.fileName ++ " already exists")
  else
    let fresh := Config.fresh dir
    let name := c.given.value "name"
    let config := if name.isEmpty then fresh else { fresh with name }
    match c.files.write path config.toToml with
    | .error e =>
      .refused c.files ("failed to write config file: open " ++ path ++ ": " ++ e.text)
    | .ok files =>
      let out := "Created " ++ Config.fileName ++ " for project " ++ Text.quote config.name ++ "\n"
      { c.printed out with files }

def version (c : CommandContext) : Outcome :=
  c.printed ("kite " ++ compilerVersion ++ "\n  cache format:  " ++ Cache.version ++
    "\n  extension abi: 1\n  platform:      linux/amd64\n")

def help (c : CommandContext) : Outcome :=
  match Command.locate c.given.operands with
  | .ok (topic, _) => c.printed (Command.helpText topic)
  | .error _ => { c.printed "" with err := Command.unknownTopic c.given.operands }

end CommandContext

namespace Command

/-- The settings that tell the language of messages, the strongest first. -/
def languageSettings : List String := ["KITE_LANG", "LC_ALL", "LANG"]

def language (w : World) (given : Given) : Language :=
  let named := given.value "lang"
  if named.isEmpty then (Language.detect? (languageSettings.map w.setting)).getD .english
  else .ofName named

def action (context : CommandContext) : Command → Outcome
  | build => context.build
  | check => context.check
  | tokens => context.tokens
  | tree => context.tree
  | repl => context.repl
  | init => context.init
  | version => context.version
  | help => context.help
  | completion => context.printed (helpText (some completion))

def run (w : World) (words : List String) (input : String) : Outcome :=
  match read words with
  | .error e => .refused w.tree e.text
  | .ok (.help topic) => { out := helpText topic, files := w.tree }
  | .ok (.run c given) => action { world := w, lang := language w given, given, input } c

end Command

end Frontend
