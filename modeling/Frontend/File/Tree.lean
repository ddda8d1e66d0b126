import Frontend.Text.Basic

/-!
# File paths

Paths with `/` between their parts. `clean` gives the shortest path of the same meaning that can be
found from the text alone.
-/

namespace Frontend

namespace Path

/-- Whether a path starts at the root. -/
def isAbsolute (p : String) : Bool := p.toList.head? == some '/'

/-- The parts of a path without empty parts and dots. -/
def parts (p : String) : List String :=
  (Text.splitOn '/' p).filter fun s => !s.isEmpty && s != "."

/-- Takes a step back for every `..`; `done` holds the parts so far, last first. Above the root there
is only the root; a relative path keeps the steps back that lead out of it. -/
def fold (absolute : Bool) : List String → List String → List String
  | done, [] => done.reverse
  | done, part :: rest =>
    if part == ".." then
      match done with
      | [] => if absolute then fold absolute [] rest else fold absolute [".."] rest
      | last :: before =>
        if last == ".." then fold absolute (".." :: done) rest else fold absolute before rest
    else fold absolute (part :: done) rest

/-- The shortest path of the same meaning. -/
def clean (p : String) : String :=
  let absolute := isAbsolute p
  let body := Text.joinWith "/" (fold absolute [] (parts p))
  if absolute then "/" ++ body
  else if body.isEmpty then "." else body

/-- Joins paths; empty ones are left out. -/
def join (ps : List String) : String :=
  match ps.filter (!·.isEmpty) with
  | [] => ""
  | ps => clean (Text.joinWith "/" ps)

/-- What stands before and behind the last slash of a path, the slash kept in front. -/
def splitLast (p : String) : List Char × List Char :=
  let backwards := p.toList.reverse
  ((backwards.dropWhile (· != '/')).reverse, (backwards.takeWhile (· != '/')).reverse)

/-- The directory of a path. -/
def dir (p : String) : String := clean (String.ofList (splitLast p).1)

/-- The last part of a path. -/
def base (p : String) : String :=
  if p.isEmpty then "."
  else
    match Text.dropEndWhile (· == '/') p.toList with
    | [] => "/"
    | cs => String.ofList (splitLast (String.ofList cs)).2

/-- The extension of a path: its last part from the last dot on. -/
def extension (p : String) : String :=
  let name := (splitLast p).2
  if name.contains '.' then
    String.ofList ('.' :: (name.reverse.takeWhile (· != '.')).reverse)
  else ""

/-- The last part of a path without its extension. -/
def stem (p : String) : String :=
  let name := (base p).toList
  String.ofList (name.take (name.length - (extension p).length))

/-- The absolute form of a path, seen from a directory. -/
def absolute (cwd p : String) : String := if isAbsolute p then clean p else join [cwd, p]

/-- The parts of a list of directories. -/
def searchList (s : String) : List String := if s.isEmpty then [] else Text.splitOn ':' s

end Path

/-! ## File trees

A file system as a value: the texts of its files and the directories that exist, all under absolute
clean paths, and the directory that relative paths are seen from. There are no links. -/

/-- A file system and a working directory. -/
structure FileTree where
  cwd : String := "/"
  files : List (String × String) := []
  dirs : List String := ["/"]
  deriving Repr, Inhabited

/-- Why a file operation failed. -/
inductive FileError where
  | notFound
  | notDirectory
  | isDirectory
  | notEmpty
  /-- A name, or a path as a whole, is longer than there is room for. -/
  | nameTooLong
  /-- The path holds a zero character. -/
  | malformed
  deriving DecidableEq, Repr, Inhabited

/-- The words for a failed file operation. -/
def FileError.text : FileError → String
  | notFound => "no such file or directory"
  | notDirectory => "not a directory"
  | isDirectory => "is a directory"
  | notEmpty => "directory not empty"
  | nameTooLong => "file name too long"
  | malformed => "invalid argument"

/-- A directory that could not be made, and why. -/
structure DirError where
  path : String
  cause : FileError
  deriving DecidableEq, Repr, Inhabited

/-- The words for a directory that could not be made. -/
def DirError.text (e : DirError) : String := "mkdir " ++ e.path ++ ": " ++ e.cause.text

/-- The words for a file that cannot be read. -/
def FileError.reading (path : String) (e : FileError) : String :=
  (if e = isDirectory then "read " else "open ") ++ path ++ ": " ++ e.text

/-- What stands under a path. -/
inductive FileEntry where
  | file (text : String)
  | dir
  deriving Repr

namespace FileTree

/-- What stands under an absolute clean path. -/
def entryAt? (t : FileTree) (path : String) : Option FileEntry :=
  if t.dirs.contains path then some .dir else (t.files.lookup path).map .file

/-- The most bytes that a name may have. -/
def maxName : Nat := 255

/-- The most bytes that a path may have. -/
def maxPath : Nat := 4095

/-- Walks along the parts of a path; every part passed through must be a directory. `here` is an
absolute clean path. -/
def walk (t : FileTree) : String → List String → Except FileError String
  | here, [] => .ok here
  | here, part :: rest =>
    match t.entryAt? here with
    | none => .error .notFound
    | some (.file _) => .error .notDirectory
    | some .dir =>
      if part.isEmpty || part == "." then walk t here rest
      else if part == ".." then walk t (Path.dir here) rest
      else if maxName < part.utf8ByteSize then .error .nameTooLong
      else walk t (Path.join [here, part]) rest

/-- The absolute clean path that a path leads to. A path that ends in a slash leads to a directory. -/
def locate (t : FileTree) (p : String) : Except FileError String :=
  if p.isEmpty then .error .notFound
  else if p.toList.contains '\x00' then .error .malformed
  else if maxPath < p.utf8ByteSize then .error .nameTooLong
  else t.walk (if Path.isAbsolute p then "/" else t.cwd) (Text.splitOn '/' p)

/-- What a path leads to. -/
def stat (t : FileTree) (p : String) : Except FileError FileEntry := do
  match t.entryAt? (← t.locate p) with
  | some e => .ok e
  | none => .error .notFound

/-- Whether a path leads to anything. -/
def pathExists (t : FileTree) (p : String) : Bool :=
  match t.stat p with
  | .ok _ => true
  | .error _ => false

/-- Whether a path leads to a file. -/
def isFile (t : FileTree) (p : String) : Bool :=
  match t.stat p with
  | .ok (.file _) => true
  | _ => false

def read (t : FileTree) (p : String) : Except FileError String := do
  match ← t.stat p with
  | .file text => .ok text
  | .dir => .error .isDirectory

/-- The text of a file, if there is one. -/
def read? (t : FileTree) (p : String) : Option String := (t.read p).toOption

/-- Writes a file; its directory must exist. -/
def write (t : FileTree) (p text : String) : Except FileError FileTree := do
  let path ← t.locate p
  if t.dirs.contains path then .error .isDirectory
  else if !t.dirs.contains (Path.dir path) then .error .notFound
  else .ok { t with files := (path, text) :: t.files.filter (·.1 != path) }

/-- All directories above an absolute clean path, outermost first, and the path itself. -/
def ancestry (path : String) : List String :=
  "/" :: ((Path.parts path).foldl (fun (acc : List String × String) part =>
    let here := Path.join ["/", acc.2, part]
    (here :: acc.1, here)) ([], "")).1.reverse

/-- The paths that a path goes through as it is written, shortest first, and the path itself. -/
def stages (p : String) : List String :=
  let start := if Path.isAbsolute p then "/" else ""
  let parts := Path.parts p
  (List.range parts.length).map fun n => start ++ Text.joinWith "/" (parts.take (n + 1))

/-- Makes the given directories one after another, as far as they are not there. -/
def makeEach : FileTree → List String → Except DirError Unit × FileTree
  | t, [] => (.ok (), t)
  | t, p :: rest =>
    match t.stat p, t.locate p with
    | .ok .dir, _ => t.makeEach rest
    | .ok (.file _), _ => (.error ⟨p, .notDirectory⟩, t)
    | .error _, .error cause => (.error ⟨p, cause⟩, t)
    | .error _, .ok path => makeEach { t with dirs := t.dirs ++ [path] } rest

/-- Makes a directory and all directories that the path to it goes through. Those that were made before
a failure stay. -/
def makeDirs (t : FileTree) (p : String) : Except DirError Unit × FileTree :=
  if p.isEmpty then (.error ⟨p, .notFound⟩, t) else t.makeEach (stages p)

/-- Writes a file and makes the directories above it. -/
def place (t : FileTree) (p text : String) : Except FileError FileTree := do
  let (made, t) := t.makeDirs (Path.dir (Path.absolute t.cwd p))
  made.mapError (·.cause)
  t.write p text

/-- The names in a directory, in alphabetical order. -/
def list (t : FileTree) (p : String) : Except FileError (List String) := do
  let path ← t.locate p
  match t.entryAt? path with
  | none => .error .notFound
  | some (.file _) => .error .notDirectory
  | some .dir =>
    let inside := (t.files.map Prod.fst ++ t.dirs).filter fun q => q != "/" && Path.dir q == path
    .ok ((inside.map Path.base).mergeSort (fun a b => decide (a ≤ b)))

/-- Removes a file, or a directory that is empty. -/
def remove (t : FileTree) (p : String) : Except FileError FileTree := do
  let path ← t.locate p
  match t.entryAt? path with
  | none => .error .notFound
  | some (.file _) => .ok { t with files := t.files.filter (·.1 != path) }
  | some .dir =>
    if (← t.list path).isEmpty then .ok { t with dirs := t.dirs.filter (· != path) }
    else .error .notEmpty

end FileTree

/-- A file system with the settings that programs see around them. -/
structure World where
  tree : FileTree := {}
  settings : List (String × String) := []
  deriving Inhabited

/-- The value of a setting; empty when it is not set. -/
def World.setting (w : World) (name : String) : String := (w.settings.lookup name).getD ""

end Frontend
