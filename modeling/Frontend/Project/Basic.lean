import Frontend.Config.Basic
import Frontend.Extension.Basic
import Frontend.Lowering.Unit

/-!
# Projects

What a command works in: the settings of a project, its directory, and the functions that its
extensions add.
-/

namespace Frontend

/-- An open project. -/
structure Project where
  config : Config := {}
  root : String
  builtins : Registry := .standard
  deriving Inhabited

namespace Project

/-- Tries to open a library. Libraries are not files of a file tree, so there is none to be had; the
answer says what is wrong with the file in its place. -/
def openLibrary (files : FileTree) (path : String) : Except String Library :=
  .error (path ++ ": " ++ match files.stat path with
    | .ok (.file text) => if text.utf8ByteSize < 64 then "file too short" else "invalid ELF header"
    | .ok .dir => "cannot read file data: Is a directory"
    | .error .notDirectory => "cannot open shared object file: Not a directory"
    | .error _ => "cannot open shared object file: No such file or directory")

def failureOf (causes : List Refusal) : Failure :=
  match causes.filterMap fun
    | .diagnostic d => some d
    | .plain _ => none with
  | [] => .other (.text (Text.joinWith "; " (causes.map fun c => c.text .english)))
  | ds => .several ds

/-- Opens the project of a file, or without a file that of the working directory. Outside of any
project the directory of the file takes its place. -/
def openFor (w : World) (file : Option String) : Except Failure Project :=
  match Config.discover w.tree (file.getD w.tree.cwd) with
  | .error e => .error (.other (.text e.text))
  | .ok (config, root) =>
    let root := root.getD ((file.map Path.dir).getD w.tree.cwd)
    let libraries := config.extensions.map (Config.resolve root)
    match (ExtensionSet.load (openLibrary w.tree) .standard libraries).1 with
    | .error causes => .error (failureOf causes)
    | .ok extensions => .ok { config, root, builtins := extensions.registry }

def options (p : Project) (annotate : Bool) : CompileOptions :=
  { annotate := annotate || p.config.annotate, builtins := p.builtins }

/-- The file that the program of the project starts in. -/
def entry? (p : Project) : Option String :=
  if p.config.entry.isEmpty then none else some (Config.resolve p.root p.config.entry)

end Project

/-! ## Compiling files

Compiles the file that a program starts in. Imports are looked for in the project of the file. -/

/-- The diagnostic for an entry file that cannot be read. -/
def missingEntry (path : String) : Diagnostic :=
  .mkAt .fileNotFound Code.fileNotFound {} (.entry .fileNotFound [.text path])

namespace CompileOptions

/-- The imports to compile an entry file with: those given, or else those of its project. -/
def importsFor (o : CompileOptions) (w : World) (entry : String) : Except Failure Imports :=
  match o.imports with
  | some i => .ok i
  | none =>
    match Imports.forFile w entry with
    | .ok i => .ok i
    | .error e => .error (.other (.text e.text))

end CompileOptions

/-- Compiles an entry file: the text of its code, and the files that were read for it. -/
def compileEntry (w : World) (o : CompileOptions) (path : String) :
    Except Failure (String × List String) := do
  let file := Path.absolute w.tree.cwd path
  let imports ← o.importsFor w file
  match Imports.load w.tree file with
  | .error _ => .error (.diagnostic (missingEntry path))
  | .ok text =>
    let src := Source.ofString text
    match Program.ofSource src file with
    | .error e => .error (.ofSourceError e)
    | .ok p =>
      match (Session.ofOptions { o with imports := some imports }).compile w.tree o.annotate p src with
      | (.error f, _) => .error f
      | (.ok code, session) => .ok (code.render, session.imports.loadedFiles)

/-- Compiles an entry file to the text of its code. -/
def compileFile (w : World) (o : CompileOptions) (path : String) : Except Failure String :=
  (compileEntry w o path).map Prod.fst

end Frontend
