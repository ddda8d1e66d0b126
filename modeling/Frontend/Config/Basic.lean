import Frontend.Text.Case
import Frontend.Toml.Read
import Frontend.Import.Basic

/-!
# Project settings

The settings of a project: its name, version and entry file, and how it is built. They are kept in a
TOML document with the two tables `project` and `build`. Names in the document count in any case, and
those that are not known are passed over.
-/

namespace Frontend

/-- The settings of a project. -/
structure Config where
  name : String := ""
  version : String := ""
  /-- The entry file, seen from the project directory. -/
  entry : String := ""
  /-- The directory for compiled code. -/
  output : String := "build"
  annotate : Bool := false
  /-- Further directories where imports are looked for. -/
  searchDirs : List String := []
  /-- Libraries to load before compiling. -/
  extensions : List String := []
  cache : Bool := false
  cacheDir : String := ".kite-cache"
  deriving Repr, DecidableEq, Inhabited

namespace Config

/-- What a setting holds. -/
inductive Shape where
  | text
  | flag
  | texts
  deriving DecidableEq, Repr

/-- The settings that a document can give: their table, their name and what they hold. -/
def known : List (String × String × Shape) := [
  ("project", "name", .text), ("project", "version", .text), ("project", "entry", .text),
  ("build", "output", .text), ("build", "annotate", .flag), ("build", "include", .texts),
  ("build", "extensions", .texts), ("build", "cache", .flag), ("build", "cache_dir", .text)]

def isTable (name : String) : Bool := name == "project" || name == "build"

/-- What a setting of a table holds; nothing for a name that is not known. -/
def shape? (table name : String) : Option Shape :=
  (known.find? fun (t, n, _) => t == table && n == name).map (·.2.2)

/-- Gives a setting a text. -/
def setText (c : Config) (name s : String) : Config :=
  match name with
  | "name" => { c with name := s }
  | "version" => { c with version := s }
  | "entry" => { c with entry := s }
  | "output" => { c with output := s }
  | "cache_dir" => { c with cacheDir := s }
  | _ => c

/-- Gives a setting a truth value. -/
def setFlag (c : Config) (name : String) (b : Bool) : Config :=
  match name with
  | "annotate" => { c with annotate := b }
  | "cache" => { c with cache := b }
  | _ => c

/-- Changes a setting that is a list of texts. -/
def changeTexts (c : Config) (name : String) (f : List String → List String) : Config :=
  match name with
  | "include" => { c with searchDirs := f c.searchDirs }
  | "extensions" => { c with extensions := f c.extensions }
  | _ => c

def texts (c : Config) : String → List String
  | "include" => c.searchDirs
  | "extensions" => c.extensions
  | _ => []

def text? : Toml.Value → Option String
  | .text s => some s
  | _ => none

/-- Gives a setting of a table its value, which must be of the right kind. -/
def setIn (c : Config) (table : String) (key : List String) (v : Toml.Value) : Option Config :=
  match key.map Text.lower with
  | [] => none
  | name :: deeper =>
    match shape? table name, deeper, v with
    | none, _, _ => some c
    | some .text, [], .text s => some (c.setText name s)
    | some .flag, [], .bool b => some (c.setFlag name b)
    | some .texts, [], .list items =>
      (items.mapM text?).map fun ss => c.changeTexts name fun _ => ss
    | _, _, _ => none

/-- Gives a setting its value by its full key, or a whole table its entries. -/
def set (c : Config) (key : List String) (v : Toml.Value) : Option Config :=
  match key with
  | [] => none
  | first :: rest =>
    let table := Text.lower first
    if !isTable table then some c
    else
      match rest, v with
      | [], .table entries => entries.foldlM (fun c (key, v) => c.setIn table key v) c
      | [], _ => none
      | _ :: _, _ => c.setIn table rest v

/-- Where the statements of a document stand. -/
inductive Place where
  | top
  | table (name : String)
  /-- Inside of a setting that is no table: it can be opened, but nothing can be put there. -/
  | setting
  /-- Inside of a table that is not known. -/
  | unknown
  deriving DecidableEq, Repr

/-- Where a table header leads. -/
def place? (c : Config) (key : List String) : Option Place :=
  match key.map Text.lower with
  | [] => none
  | table :: rest =>
    if !isTable table then some .unknown
    else
      match rest with
      | [] => some (.table table)
      | name :: deeper =>
        match shape? table name with
        | none => some .unknown
        | some s =>
          if !deeper.isEmpty || (s == .texts && (c.texts name).isEmpty) then none
          else some .setting

/-- Where the header of one more table in an array leads, with the settings afterwards: a list of
texts gets one more text. The first such header under a name drops what the list held before. -/
def arrayPlace? (c : Config) (first : Bool) (key : List String) : Option (Place × Config) :=
  match key.map Text.lower with
  | [] => none
  | table :: rest =>
    if !isTable table then some (.unknown, c)
    else
      match rest with
      | [] => none
      | name :: deeper =>
        match shape? table name with
        | none => some (.unknown, c)
        | some s =>
          if deeper.isEmpty && s == .texts then
            some (.setting, c.changeTexts name fun held => (if first then [] else held) ++ [""])
          else none

/-- Takes in the statements of a document one after another. Statements in tables that are not known
are passed over. -/
def takeIn : Config → Toml.Defined → Place → List Toml.Statement → Option Config
  | c, _, _, [] => some c
  | c, d, place, .assign key v :: rest =>
    if place = .unknown then takeIn c d place rest
    else do
      let d ← d.assign key
      if !v.isProper then none
      else
        match place with
        | .top => takeIn (← c.set key v) d place rest
        | .table name => takeIn (← c.setIn name key v) d place rest
        | _ => none
  | c, d, _, .header key :: rest => do
    let d ← d.header key
    takeIn c d (← c.place? key) rest
  | c, d, _, .arrayHeader key :: rest => do
    let (place, c) ← c.arrayPlace? (d.find? key).isNone key
    takeIn c (← d.arrayHeader key) place rest

/-- Fills in the directories that are not given. -/
def withDefaults (c : Config) : Config :=
  { c with
    output := if c.output.isEmpty then ({} : Config).output else c.output
    cacheDir := if c.cacheDir.isEmpty then ({} : Config).cacheDir else c.cacheDir }

/-- The settings in a document. -/
def ofToml? (text : String) : Option Config := do
  let statements ← Toml.read? text
  (← takeIn {} {} .top statements).withDefaults

/-- Whether a text cannot stand between single quotes. -/
def needsEscapes (s : String) : Bool := s.toList.any fun c => c == '\x27' || !Toml.isAllowed c

/-- A character between double quotes. -/
def escaped (c : Char) : List Char :=
  match c with
  | '\\' => ['\\', '\\']
  | '\x22' => ['\\', '\x22']
  | '\x08' => ['\\', 'b']
  | '\x0c' => ['\\', 'f']
  | '\n' => ['\\', 'n']
  | '\r' => ['\\', 'r']
  | '\t' => ['\\', 't']
  | c => if Toml.isAllowed c then [c] else ['\\', 'u'] ++ (Text.hex 4 c.toNat).map Char.toUpper

/-- A text in a document: between single quotes when it can be. -/
def quoted (s : String) : String :=
  if needsEscapes s then "\x22" ++ String.ofList (s.toList.flatMap escaped) ++ "\x22"
  else "\x27" ++ s ++ "\x27"

def quotedList (ss : List String) : String := "[" ++ Text.joinWith ", " (ss.map quoted) ++ "]"

/-- The document for settings. -/
def toToml (c : Config) : String :=
  "[project]\nname = " ++ quoted c.name ++ "\nversion = " ++ quoted c.version ++
  "\nentry = " ++ quoted c.entry ++ "\n\n[build]\noutput = " ++ quoted c.output ++
  "\nannotate = " ++ Text.ofBool c.annotate ++ "\ninclude = " ++ quotedList c.searchDirs ++
  "\nextensions = " ++ quotedList c.extensions ++ "\ncache = " ++ Text.ofBool c.cache ++
  "\ncache_dir = " ++ quoted c.cacheDir ++ "\n"

/-- The name that a project gets when its directory has none to offer. -/
def unnamed : String := "my-app"

/-- A project name made of a directory name: lower case, with hyphens for spaces and underscores, and
without everything but letters, digits, hyphens and dots. -/
def projectName (dirName : String) : String :=
  let hyphened := (Text.lower dirName).toList.map fun c => if c == ' ' || c == '_' then '-' else c
  let kept := hyphened.filter fun c =>
    ('a' ≤ c && c ≤ 'z') || Text.isDigit c || c == '-' || c == '.'
  if kept.isEmpty then unnamed else String.ofList kept

/-- The settings of a new project in a directory. -/
def fresh (dir : String) : Config :=
  let base := Path.base dir
  { name := if base == "." || base == "/" then unnamed else projectName base
    version := "0.1.0"
    entry := "main.kite" }

/-- A path seen from the project directory; an empty path stays empty. -/
def resolve (root path : String) : String :=
  if path.isEmpty || Path.isAbsolute path then path else Path.join [root, path]

/-- The further directories where imports are looked for, seen from the project directory. -/
def resolvedSearchDirs (c : Config) (root : String) : List String := c.searchDirs.map (resolve root)

end Config

/-! ## Finding the project of a file

The project of a file is the nearest directory around it that has a settings file. -/

/-- Why settings cannot be had. -/
inductive ConfigError where
  | unreadable (path : String) (cause : FileError)
  | malformed
  deriving DecidableEq, Repr

/-- The words for settings that cannot be had. -/
def ConfigError.text : ConfigError → String
  | unreadable path cause => "failed to read config file: " ++ cause.reading path
  | malformed => "failed to parse config file"

namespace Config

def fileName : String := "kite.toml"

def load (files : FileTree) (path : String) : Except ConfigError Config :=
  match files.read path with
  | .error cause => .error (.unreadable path cause)
  | .ok text =>
    match ofToml? text with
    | some c => .ok c
    | none => .error .malformed

/-- The settings file of the project that a file or directory belongs to. -/
def find? (files : FileTree) (start : String) : Option String := do
  let entry ← (files.stat start).toOption
  let dir := match entry with
    | .dir => start
    | .file _ => Path.dir start
  let above := (FileTree.ancestry (Path.absolute files.cwd dir)).reverse
  (above.map fun d => Path.join [d, fileName]).find? files.pathExists

/-- The settings of the project that a file or directory belongs to, and the project directory. Outside
of a project the settings are those that count when nothing is given. -/
def discover (files : FileTree) (start : String) : Except ConfigError (Config × Option String) :=
  match find? files start with
  | none => .ok ({}, none)
  | some path => (load files path).map fun c => (c, some (Path.dir path))

end Config

namespace Imports

/-- The setting that names further directories to look in. -/
def searchSetting : String := "KITE_PATH"

/-- The imports of a program that starts in an entry file: they are looked for in its project, or in
its directory when it has none; in the given directories, in those of the project settings, and in
those of the surroundings. -/
def forFile (w : World) (entry : String) (search : List String := []) :
    Except ConfigError Imports :=
  (Config.discover w.tree entry).map fun (c, root) =>
    let root := root.getD (Path.dir entry)
    { root, search := search ++ c.resolvedSearchDirs root ++
        Path.searchList (w.setting searchSetting) }

end Imports

end Frontend
