import Frontend.Symbol.Table

/-!
# Class hierarchies

Classes have at most one base. This module follows the chain of bases: members, permissions and the
question whether one class stands above another. A chain never comes back to its start, so it is never
longer than the number of symbols.
-/

namespace Frontend.SymbolTable

def classInfo (t : SymbolTable) (id : SymbolId) : ClassInfo := ((t.get id).class?).getD {}

/-- A class and the classes above it, nearest first, at most `n` of them. -/
def chainOf (t : SymbolTable) : (n : Nat) → Option SymbolId → List SymbolId
  | 0, _ => []
  | _, none => []
  | n + 1, some id => id :: chainOf t n (t.classInfo id).base

/-- A class and all classes above it. -/
def chain (t : SymbolTable) (id : Option SymbolId) : List SymbolId := t.chainOf t.symbols.size id

/-- The classes above a class. -/
def ancestors (t : SymbolTable) (id : SymbolId) : List SymbolId := t.chain (t.classInfo id).base

/-- Hangs a class below another one. -/
def setBase (t : SymbolTable) (id : SymbolId) (base : Option SymbolId) (pos : Position) :
    Except Diagnostic SymbolTable :=
  let above := t.chain base
  if above.contains id then
    let size : Nat := (base.map fun b => (t.get b).name.utf8ByteSize).getD 0
    .error ((Diagnostic.mkAt .semantic Code.semantic pos
      (.entry .inheritanceCycle [.text (t.get id).name])).withSpan size)
  else
    let t := t.modify id (Symbol.mapClass fun c => { c with base })
    .ok (above.foldl (fun t b =>
      t.modify b (Symbol.mapClass fun c => { c with derived := c.derived ++ [id] })) t)

/-- The member that a class itself defines under a name. -/
def ownMember? (t : SymbolTable) (cls : SymbolId) (name : String) : Option SymbolId :=
  let c := t.classInfo cls
  (c.members.lookup name).or (c.statics.lookup name)

def addMember (t : SymbolTable) (cls member : SymbolId) (static : Bool) :
    Except Diagnostic SymbolTable :=
  let s := t.get member
  match t.ownMember? cls s.name with
  | some old => .error (duplicate s (t.get old))
  | none => .ok (t.modify cls (Symbol.mapClass fun c =>
      if static then { c with statics := c.statics ++ [(s.name, member)] }
      else { c with members := c.members ++ [(s.name, member)] }))

/-- Whether a symbol is a static member of a class or of one above it. -/
def isStaticMember (t : SymbolTable) (cls member : SymbolId) : Bool :=
  (t.chain (some cls)).any fun c =>
    (t.classInfo c).statics.lookup (t.get member).name == some member

/-- The member of a class with a name; the nearest definition counts. -/
def member? (t : SymbolTable) (cls : SymbolId) (name : String) : Option SymbolId :=
  (t.chain (some cls)).findSome? (t.ownMember? · name)

def memberNames (t : SymbolTable) (cls : SymbolId) : List String :=
  (t.chain (some cls)).flatMap fun c =>
    (t.classInfo c).members.map Prod.fst ++ (t.classInfo c).statics.map Prod.fst

def noMember (t : SymbolTable) (cls : SymbolId) (name : String) (pos : Position) : Diagnostic :=
  ((Diagnostic.mkAt .symbolNotFound Code.memberNotFound pos
    (.entry .memberNotFound [.text (t.get cls).name, .text name])).withSpan
    name.utf8ByteSize).withHint [Suggestion.didYouMean name (t.memberNames cls)]

/-- The member of a class with a name, for one who comes with a permission. -/
def memberFor (t : SymbolTable) (cls : SymbolId) (name : String) (asserted : Permission)
    (pos : Position) : Except Diagnostic SymbolId :=
  match t.member? cls name with
  | none => .error (t.noMember cls name pos)
  | some id =>
    let actual := (t.get id).permission
    if asserted.allows actual then .ok id
    else
      let owner := (t.get cls).name
      .error (((Diagnostic.mkAt .semantic Code.permission pos
        (.entry .permissionDenied [.text name, .text owner, .text actual.text])).withSpan
        name.utf8ByteSize).withHint [.entry .hintMakePublic [.text owner]])

/-- The variables among the entries of a member list. -/
def variablesIn (t : SymbolTable) (entries : List (String × SymbolId)) : List SymbolId :=
  (entries.map Prod.snd).filter fun id => (t.get id).detail matches .var _

/-- The fields that a class gives its instances. -/
def fields (t : SymbolTable) (cls : SymbolId) : List SymbolId :=
  t.variablesIn (t.classInfo cls).members

/-- The fields of a class itself. -/
def staticFields (t : SymbolTable) (cls : SymbolId) : List SymbolId :=
  t.variablesIn (t.classInfo cls).statics

/-- The methods of a class, those of its instances first. -/
def methods (t : SymbolTable) (cls : SymbolId) : List SymbolId :=
  let c := t.classInfo cls
  ((c.members ++ c.statics).map Prod.snd).filter fun id => (t.get id).function?.isSome

/-- Whether a class stands above another; a class stands above itself unless `strict`. -/
def isAbove (t : SymbolTable) (a b : Option SymbolId) (strict : Bool) : Bool :=
  if a == b then !strict
  else match a, b with
    | some a, some b => (t.ancestors b).contains a
    | _, _ => false

/-- Whether the second class is the first one, above it or below it. -/
def isRelated (t : SymbolTable) (a b : Option SymbolId) : Bool :=
  a == b || match a, b with
    | some a, some b => (t.ancestors a).contains b || (t.classInfo a).derived.contains b
    | _, _ => false

/-- The permission with which code inside of one class comes to the members of another. -/
def assertedPermission (t : SymbolTable) (inside owner : Option SymbolId) : Permission :=
  if inside.isNone then .priv
  else if inside == owner then .pub
  else if t.isAbove owner inside true then .prot
  else .priv

/-- Whether a value of one type may be stored where another type is declared: the types meet, or the
value belongs to a derived class. -/
def assignable (t : SymbolTable) (declared value : Tag) : Bool :=
  if declared.meets value then true
  else if !declared.isClass || !value.isClass then false
  else match t.type? declared.rid, t.type? value.rid with
    | some a, some b => t.isAbove (some a) (some b) false
    | _, _ => false

end Frontend.SymbolTable
