import Frontend.Diagnostic.Suggestion
import Frontend.Symbol.Basic

/-!
# Symbol tables

A symbol table holds all symbols that were ever made and a stack of scopes, which say what names and
raw ids stand for at present. The global scope is always open. Classes are registered under their raw
ids for as long as the scope in which that happened is open.
-/

namespace Frontend

/-- What a scope belongs to. -/
inductive ScopeKind where
  | global | function | cls | block | loop
  deriving DecidableEq, Repr, Inhabited

def ScopeKind.text : ScopeKind → String
  | global => "global"
  | function => "function"
  | cls => "class"
  | block => "block"
  | loop => "loop"

/-- Replaces the value of a key, or adds the key at the end. -/
def putEntry (key : String) (value : α) : List (String × α) → List (String × α)
  | [] => [(key, value)]
  | (k, v) :: rest => if k == key then (key, value) :: rest else (k, v) :: putEntry key value rest

/-- One scope. -/
structure Scope where
  kind : ScopeKind
  names : List (String × SymbolId) := []
  rids : List (String × SymbolId) := []
  /-- The raw ids of the classes registered in this scope. -/
  types : List String := []
  deriving Repr, Inhabited

/-- The name that may be defined again and again. -/
def discardName : String := "_"

/-- A symbol table. -/
structure SymbolTable where
  symbols : Array Symbol := #[]
  global : Scope := { kind := .global }
  /-- The open scopes above the global one, innermost first. -/
  inner : List Scope := []
  /-- The registered classes by raw id. -/
  types : List (String × SymbolId) := []
  deriving Inhabited

namespace SymbolTable

/-- The level of the innermost scope. -/
def level (t : SymbolTable) : Nat := t.inner.length

/-- All scopes, innermost first. -/
def scopes (t : SymbolTable) : List Scope := t.inner ++ [t.global]

def top (t : SymbolTable) : Scope := t.inner.headD t.global

def kind (t : SymbolTable) : ScopeKind := t.top.kind

def get (t : SymbolTable) (id : SymbolId) : Symbol := t.symbols.getD id default

/-- Makes a new symbol, which no name stands for yet. -/
def add (t : SymbolTable) (s : Symbol) : SymbolId × SymbolTable :=
  (t.symbols.size, { t with symbols := t.symbols.push s })

def modify (t : SymbolTable) (id : SymbolId) (f : Symbol → Symbol) : SymbolTable :=
  { t with symbols := t.symbols.modify id f }

def enter (t : SymbolTable) (kind : ScopeKind) : SymbolTable :=
  { t with inner := { kind } :: t.inner }

/-- Closes the innermost scope and forgets the classes registered in it; the global scope stays. -/
def exit (t : SymbolTable) : SymbolTable :=
  match t.inner with
  | [] => t
  | scope :: rest =>
    { t with inner := rest, types := t.types.filter fun entry => !scope.types.contains entry.1 }

/-- Closes a number of scopes. -/
def exitMany : Nat → SymbolTable → SymbolTable
  | 0, t => t
  | n + 1, t => exitMany n t.exit

/-- Closes scopes until the level is at most the given one. -/
def leaveTo (t : SymbolTable) (level : Nat) : SymbolTable := exitMany (t.level - level) t

/-- The right to close a scope again. It can be used once. -/
structure Guard where
  /-- The level to go back to. -/
  level : Nat
  spent : Bool := false
  deriving DecidableEq, Repr, Inhabited

/-- Opens a scope and gives the right to close it. -/
def openScope (t : SymbolTable) (kind : ScopeKind) : Guard × SymbolTable :=
  ({ level := t.level }, t.enter kind)

/-- Closes a scope with all scopes that were left open in it. -/
def closeScope (t : SymbolTable) (g : Guard) : Guard × SymbolTable :=
  if g.spent then (g, t) else ({ g with spent := true }, t.leaveTo g.level)

def scopeAt (t : SymbolTable) (level : Nat) : Scope :=
  (t.inner.drop (t.level - level)).headD t.global

def mapScope (t : SymbolTable) (level : Nat) (f : Scope → Scope) : SymbolTable :=
  if level = 0 then { t with global := f t.global }
  else { t with inner := t.inner.modify (t.level - level) f }

/-- A line that says where a symbol comes from. -/
def declaredAt (s : Symbol) : Phrase :=
  .entry .infoDeclaredAt [.text s.name, .text s.pos.text]

/-- The diagnostic for a name that is taken. -/
def duplicate (new old : Symbol) : Diagnostic :=
  ((Diagnostic.mkAt .symbolDuplicate Code.symbolDuplicate new.pos
    (.entry .symbolDuplicate [.text new.name])).withSpan new.name.utf8ByteSize).withInfo
    [declaredAt old]

/-- Enters a symbol in the scope of a level. -/
def insertAt (t : SymbolTable) (level : Nat) (id : SymbolId) : Except Diagnostic SymbolTable :=
  let s := t.get id
  match if s.name == discardName then none else (t.scopeAt level).names.lookup s.name with
  | some old => .error (duplicate s (t.get old))
  | none =>
    let t := t.modify id fun s => { s with level }
    .ok (t.mapScope level fun scope => { scope with
      names := putEntry s.name id scope.names
      rids := putEntry s.rid id scope.rids })

/-- Enters a symbol in the innermost scope. -/
def insert (t : SymbolTable) (id : SymbolId) : Except Diagnostic SymbolTable :=
  t.insertAt t.level id

/-- Enters a symbol in the global scope. -/
def insertGlobal (t : SymbolTable) (id : SymbolId) : Except Diagnostic SymbolTable :=
  t.insertAt 0 id

/-- The scopes from a level on outwards; all scopes when there is no such level. -/
def scopesFrom (t : SymbolTable) (ceiling : Option Int) : List Scope :=
  match ceiling with
  | none => t.scopes
  | some c => if 0 ≤ c && c ≤ t.level then t.scopes.drop (t.level - c.toNat) else t.scopes

/-- What a name stands for. -/
def find? (t : SymbolTable) (name : String) (ceiling : Option Int := none) : Option SymbolId :=
  (t.scopesFrom ceiling).findSome? (·.names.lookup name)

def findRid? (t : SymbolTable) (rid : String) (ceiling : Option Int := none) : Option SymbolId :=
  (t.scopesFrom ceiling).findSome? (·.rids.lookup rid)

/-- Whether the innermost scope has a name. -/
def contains (t : SymbolTable) (name : String) : Bool := (t.top.names.lookup name).isSome

/-- The level of the innermost function; 0 outside of functions. -/
def functionLevel (t : SymbolTable) : Nat := (t.inner.dropWhile (·.kind != .function)).length

/-- What a name stands for within the innermost function. -/
def findInFunction? (t : SymbolTable) (name : String) : Option SymbolId :=
  (t.scopes.take (t.level + 1 - t.functionLevel)).findSome? (·.names.lookup name)

/-- All names that stand for something. -/
def visibleNames (t : SymbolTable) : List String :=
  t.scopes.flatMap fun scope => scope.names.map Prod.fst

/-- What a name stands for, or why it cannot be used. The variables of an outer function are out of
reach. -/
def lookup (t : SymbolTable) (name : String) (pos : Position) : Except Diagnostic SymbolId :=
  match t.find? name with
  | none =>
    .error (((Diagnostic.mkAt .symbolNotFound Code.symbolNotFound pos
      (.entry .symbolNotFound [.text name])).withSpan name.utf8ByteSize).withHint
      [Suggestion.didYouMean name t.visibleNames, .entry .hintDeclareFirst [.text name]])
  | some id =>
    let s := t.get id
    if s.var?.isSome && 0 < s.level && s.level < t.functionLevel then
      .error (((Diagnostic.mkAt .scope Code.scope pos (.entry .scopeCapture [.text name])).withSpan
        name.utf8ByteSize).withInfo [.entry .infoDeclaredAt [.text name, .text s.pos.text]])
    else .ok id

/-- Registers a class in the innermost scope. -/
def registerType (t : SymbolTable) (id : SymbolId) : SymbolTable :=
  let rid := (t.get id).rid
  { t.mapScope t.level fun scope => { scope with types := scope.types ++ [rid] } with
    types := putEntry rid id t.types }

/-- The registered class with a raw id. -/
def type? (t : SymbolTable) (rid : String) : Option SymbolId := t.types.lookup rid

/-- The class that a type stands for. -/
def classOf (t : SymbolTable) (type : Tag) (pos : Position) : Except Diagnostic SymbolId :=
  if !type.isClass then
    .error (.mkAt .typeMismatch Code.typeMismatch pos (.entry .notAClass [.text type.text]))
  else match t.type? type.rid with
    | some id => .ok id
    | none =>
      .error ((Diagnostic.mkAt .symbolNotFound Code.unregisteredType pos
        (.entry .customTypeNotFound [.text type.name])).withHint
        [.entry .hintDefineClass [.text type.name]])

end SymbolTable

end Frontend
