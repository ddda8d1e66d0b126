import Frontend.Text.Basic

/-!
# TOML documents

A document is a list of statements: a table header, a header of one more table in an array, or a key
with its value. Which of them may stand together is the business of `Toml.Defined`.
-/

namespace Frontend.Toml

/-- A value. What a number, a date or a time is exactly is left open. -/
inductive Value where
  | text (s : String)
  | bool (b : Bool)
  | scalar
  | list (items : List Value)
  | table (entries : List (List String × Value))
  deriving Repr, Inhabited

/-- A statement of a document. Keys are paths of names. -/
inductive Statement where
  | assign (key : List String) (value : Value)
  | header (key : List String)
  | arrayHeader (key : List String)
  deriving Repr, Inhabited

/-! ## What a document has defined

Every table may be defined once and every key may be given once. `Defined` keeps what the statements
so far have brought into being, by full path, and refuses a statement that would do it again. -/

/-- What stands under a path. -/
inductive DefinedKind where
  | value
  | table
  | array
  deriving DecidableEq, Repr

/-- How a path came into being. -/
structure Definition where
  kind : DefinedKind
  /-- A table that may not be opened again. -/
  closed : Bool := false
  /-- A table that dotted keys brought into being and that is still open to them. -/
  dotted : Bool := false
  deriving DecidableEq, Repr

/-- The paths defined so far, and the table that the statements are in. -/
structure Defined where
  paths : List (List String × Definition) := []
  current : List String := []
  deriving Repr, Inhabited

namespace Defined

def find? (d : Defined) (path : List String) : Option Definition := d.paths.lookup path

/-- Defines a path, or redefines it. -/
def set (d : Defined) (path : List String) (x : Definition) : Defined :=
  { d with paths := (path, x) :: d.paths.filter (·.1 != path) }

/-- Whether a path lies below another. -/
def isBelow (path above : List String) : Bool := above.isPrefixOf path && path != above

/-- Closes the tables that dotted keys brought into being in the current table. -/
def closeDotted (d : Defined) : Defined :=
  { d with paths := d.paths.map fun (path, x) =>
      if isBelow path d.current && x.dotted then (path, { x with closed := true, dotted := false })
      else (path, x) }

/-- Passes through the tables on the way to a header, making those that are missing. -/
def pass (d : Defined) : List String → List String → Option Defined
  | _, [] => some d
  | above, name :: rest =>
    let path := above ++ [name]
    match d.find? path with
    | none => pass (d.set path { kind := .table }) path rest
    | some x => if x.kind = .value then none else pass d path rest

/-- Opens a table. -/
def header (d : Defined) (key : List String) : Option Defined := do
  let d ← d.closeDotted.pass [] key.dropLast
  match d.find? key with
  | none => some { d.set key { kind := .table, closed := true } with current := key }
  | some x =>
    if x.kind = .table ∧ !x.closed then
      some { d.set key { x with closed := true } with current := key }
    else none

/-- Opens one more table of an array; what the one before held is forgotten. -/
def arrayHeader (d : Defined) (key : List String) : Option Defined := do
  let d ← d.closeDotted.pass [] key.dropLast
  match d.find? key with
  | none => some { d.set key { kind := .array, closed := true } with current := key }
  | some x =>
    if x.kind = .array then
      some { d with paths := d.paths.filter fun p => !isBelow p.1 key, current := key }
    else none

/-- Passes through the tables that a dotted key names, and gives the key its value. -/
def assignAt (d : Defined) : List String → List String → Option Defined
  | _, [] => some d
  | above, [name] =>
    let path := above ++ [name]
    match d.find? path with
    | none => some (d.set path { kind := .value, dotted := true })
    | some _ => none
  | above, name :: rest =>
    let path := above ++ [name]
    match d.find? path with
    | none => assignAt (d.set path { kind := .table, dotted := true }) path rest
    | some x => if x.kind = .table ∧ !x.closed then assignAt d path rest else none

/-- Gives a key in the current table its value. -/
def assign (d : Defined) (key : List String) : Option Defined := d.assignAt d.current key

end Defined

mutual
/-- Whether the tables inside of a value give every key once. -/
def Value.isProper : Value → Bool
  | .list items => Value.areProper items
  | .table entries => Value.entriesProper {} entries
  | _ => true

def Value.areProper : List Value → Bool
  | [] => true
  | v :: vs => v.isProper && Value.areProper vs

/-- Whether the entries of a table give every key once, after those in `d`. -/
def Value.entriesProper (d : Defined) : List (List String × Value) → Bool
  | [] => true
  | (key, v) :: rest =>
    match d.assign key with
    | none => false
    | some d => v.isProper && Value.entriesProper d rest
end

end Frontend.Toml
