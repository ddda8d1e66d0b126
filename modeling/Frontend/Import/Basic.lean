import Frontend.File.Tree

/-!
# Imports

Where imported files are looked for, which files were loaded, and which ones are being compiled at the
moment. A file is known by its absolute clean path.
-/

namespace Frontend

/-- The state of imports. -/
structure Imports where
  /-- The project directory; empty when there is none. -/
  root : String := ""
  /-- Further directories to look in. -/
  search : List String := []
  loaded : List String := []
  /-- The files that are being compiled, innermost first. -/
  stack : List String := []
  deriving Repr, Inhabited

/-- Why a file cannot be imported. -/
inductive ImportError where
  | notFound (path : String)
  | recursive (path : String)
  | unreadable (path : String) (cause : FileError)
  deriving DecidableEq, Repr

/-- The words for a file that cannot be imported. -/
def ImportError.text : ImportError → String
  | notFound path => "import not found: " ++ path
  | recursive path => "recursive import: " ++ path
  | unreadable path cause => "read " ++ path ++ ": " ++ cause.text

namespace Imports

def sourceExtension : String := ".kite"

/-- An import path with the extension that is understood. -/
def withExtension (path : String) : String :=
  if (Path.extension path).isEmpty then path ++ sourceExtension else path

/-- The places where an import is looked for, in order: beside the importing file, in the project
directory, in the further directories. -/
def candidates (i : Imports) (path importer : String) : List String :=
  if Path.isAbsolute path then [path]
  else
    (if importer.isEmpty then [] else [Path.join [Path.dir importer, path]]) ++
    (if i.root.isEmpty then [] else [Path.join [i.root, path]]) ++
    i.search.map fun dir => Path.join [dir, path]

/-- The absolute path of the file that an import means. -/
def resolve (i : Imports) (tree : FileTree) (path importer : String) : Except ImportError String :=
  let path := withExtension path
  match (i.candidates path importer).find? tree.isFile with
  | some found => .ok (Path.absolute tree.cwd found)
  | none => .error (.notFound path)

def load (tree : FileTree) (path : String) : Except ImportError String :=
  match tree.read path with
  | .ok text => .ok text
  | .error .notFound => .error (.notFound path)
  | .error cause => .error (.unreadable path cause)

/-- Whether a file is being compiled. -/
def onStack (i : Imports) (tree : FileTree) (path : String) : Bool :=
  (i.stack.map (Path.absolute tree.cwd)).contains (Path.absolute tree.cwd path)

def push (i : Imports) (tree : FileTree) (path : String) : Except ImportError Imports :=
  if i.onStack tree path then .error (.recursive path) else .ok { i with stack := path :: i.stack }

/-- How many files are being compiled. -/
def depth (i : Imports) : Nat := i.stack.length

/-- Goes back to a depth. -/
def popTo (i : Imports) (depth : Nat) : Imports :=
  { i with stack := i.stack.drop (i.depth - depth) }

/-- The names of the files being compiled, outermost first, and of the one to come. -/
def chain (i : Imports) (next : String) : String :=
  Text.joinWith " -> " ((i.stack.reverse ++ if next.isEmpty then [] else [next]).map Path.base)

def markLoaded (i : Imports) (tree : FileTree) (path : String) : Imports :=
  let path := Path.absolute tree.cwd path
  if i.loaded.contains path then i else { i with loaded := i.loaded ++ [path] }

def isLoaded (i : Imports) (tree : FileTree) (path : String) : Bool :=
  i.loaded.contains (Path.absolute tree.cwd path)

/-- The loaded files in alphabetical order. -/
def loadedFiles (i : Imports) : List String := i.loaded.mergeSort (fun a b => decide (a ≤ b))

end Imports

end Frontend
