import Frontend.Token.Kind
import Frontend.Diagnostic.Basic

/-!
# Tags

A tag is a label with its meaning settled: a type, a permission, a life cycle, a restriction or a
role. A type tag with a raw id stands for a class. The function types may carry groups: the types of
the parameters, then the type of the result. Where no type was given the tag is missing, which counts
as any type.
-/

namespace Frontend

/-- What a tag speaks about. -/
inductive TagKind where
  | type | permission | lifeCycle | restriction | role
  deriving DecidableEq, Repr, Inhabited

namespace TagKind

def text : TagKind → String
  | type => "type"
  | permission => "permission"
  | lifeCycle => "life-cycle"
  | restriction => "restriction"
  | role => "object-oriented"

/-- The kind of tag that a kind of token gives; a name is the name of a class. -/
def ofToken? : TokenKind → Option TagKind
  | .ident | .label (.type _) => some type
  | .label (.permission _) => some permission
  | .label (.lifeCycle _) => some lifeCycle
  | .label (.restriction _) => some restriction
  | .label (.role _) => some role
  | _ => none

end TagKind

/-- A tag, or the place of one that is missing. -/
inductive Tag where
  | missing
  | mk (kind : TagKind) (name rid : String) (groups : List (List Tag)) (pos : Position)
  deriving Repr, Inhabited

namespace Tag

def ofType (t : TypeName) : Tag := mk .type t.text "" [] {}

/-- The tag of a type that is known by its name only. -/
def ofName (name : String) : Tag := mk .type name "" [] {}

def ofClass (name rid : String) : Tag := mk .type name rid [] {}

def any : Tag := ofType .any

/-- The type of a statement's outcome. -/
def nul : Tag := ofType .nul

def name : Tag → String
  | missing => ""
  | mk _ n _ _ _ => n

/-- The raw id of the class that a tag stands for; empty for all other tags. -/
def rid : Tag → String
  | missing => ""
  | mk _ _ r _ _ => r

def groups : Tag → List (List Tag)
  | missing => []
  | mk _ _ _ gs _ => gs

/-- What a tag speaks about. -/
def kind? : Tag → Option TagKind
  | missing => none
  | mk k _ _ _ _ => some k

def pos : Tag → Position
  | missing => {}
  | mk _ _ _ _ p => p

def isMissing : Tag → Bool
  | missing => true
  | mk .. => false

/-- Whether a tag stands for a class. -/
def isClass : Tag → Bool
  | mk .type _ rid _ _ => !rid.isEmpty
  | _ => false

/-- Whether a tag is the given built-in type. -/
def is (t : TypeName) : Tag → Bool
  | mk .type n rid _ _ => rid.isEmpty && n == t.text
  | _ => false

/-- Whether nothing is known about the type. -/
def isAny (t : Tag) : Bool := t.isMissing || t.is .any

def isFunction (t : Tag) : Bool := t.is .func || t.is .funi

/-- Whether a tag is a type of numbers. -/
def isNumeric (t : Tag) : Bool := t.is .int || t.is .flt

/-- The types of the parameters of a function type. -/
def params (t : Tag) : List Tag := t.groups.headD []

/-- The type of the result of a function type; any type when it is not described. -/
def result (t : Tag) : Tag :=
  match t.groups with
  | _ :: (r :: _) :: _ => r
  | _ => any

/-- The type of a function with the given parameters and result. A function without a result is
`func`, every other one `funi`. -/
def signature (params : List Tag) (result : Tag) : Tag :=
  let kind : TypeName :=
    if !result.isMissing && result.name == TypeName.nul.text && !result.isClass then .func else .funi
  mk .type kind.text "" [params, [if result.isMissing then any else result]] {}

mutual
def text : Tag → String
  | missing => TypeName.any.text
  | mk _ n _ gs _ => n ++ groupTexts gs

/-- The texts of groups, each in brackets. -/
def groupTexts : List (List Tag) → String
  | [] => ""
  | g :: gs => "[" ++ Text.joinWith ", " (texts g) ++ "]" ++ groupTexts gs

def texts : List Tag → List String
  | [] => []
  | t :: ts => text t :: texts ts
end

mutual
/-- Whether two tags mean the same: they agree in everything but their places. -/
def same : Tag → Tag → Bool
  | missing, missing => true
  | mk k n r gs _, mk k' n' r' gs' _ => k == k' && n == n' && r == r' && sameGroups gs gs'
  | _, _ => false

/-- Whether two lists of groups mean the same. -/
def sameGroups : List (List Tag) → List (List Tag) → Bool
  | [], [] => true
  | g :: gs, g' :: gs' => sameAll g g' && sameGroups gs gs'
  | _, _ => false

/-- Whether two lists of tags mean the same. -/
def sameAll : List Tag → List Tag → Bool
  | [], [] => true
  | t :: ts, t' :: ts' => same t t' && sameAll ts ts'
  | _, _ => false
end

/-- Whether values of two types may meet. There is no conversion between numbers; any type meets every
type; no other type meets `nul`; a function type without groups meets every function type of its
name. -/
def meets (left right : Tag) : Bool :=
  if left.same right then true
  else if left.isAny || right.isAny then true
  else if left.is .nul || right.is .nul then false
  else if left.isFunction && right.isFunction && left.name == right.name then
    left.groups.isEmpty || right.groups.isEmpty
  else false

end Tag

/-! ## Marks

The tags of one declaration. There is at most one type, at most one permission and at most one life
cycle; restrictions and roles may be combined and repeated. -/

/-- The tags of a declaration, sorted by what they speak about. -/
structure Marks where
  /-- All tags in the order they were given. -/
  all : List Tag := []
  type : Tag := .missing
  permissionTag : Option Tag := none
  lifeCycleTag : Option Tag := none
  flags : List String := []
  deriving Repr, Inhabited

namespace Marks

/-- The diagnostic for a tag that does not belong where it stands. -/
def misplaced (tag : Tag) (message : Phrase) : Diagnostic :=
  (Diagnostic.mkAt .semantic Code.semantic tag.pos message).withSpan tag.name.utf8ByteSize

/-- The diagnostic for a tag that contradicts an earlier one. -/
def conflict (kind : TagKind) (tag old : Tag) : Diagnostic :=
  misplaced tag (.entry .duplicateMark [.text kind.text, .text tag.name, .text old.name])

def add (m : Marks) (tag : Tag) : Except Diagnostic Marks :=
  let added := { m with all := m.all ++ [tag] }
  match tag with
  | .missing => .ok m
  | .mk .type .. =>
    if m.type.isMissing then .ok { added with type := tag }
    else .error (misplaced tag (.entry .duplicateTypeLabel [.text m.type.text, .text tag.text]))
  | .mk .permission .. =>
    match m.permissionTag.filter (·.name != tag.name) with
    | some old => .error (conflict .permission tag old)
    | none => .ok { added with permissionTag := some tag }
  | .mk .lifeCycle .. =>
    match m.lifeCycleTag.filter (·.name != tag.name) with
    | some old => .error (conflict .lifeCycle tag old)
    | none => .ok { added with lifeCycleTag := some tag }
  | .mk .restriction .. | .mk .role .. => .ok { added with flags := tag.name :: m.flags }

/-- Adds tags until one is refused: the marks so far and, perhaps, the refusal. -/
def collect : Marks → List Tag → Marks × Option Diagnostic
  | m, [] => (m, none)
  | m, tag :: rest =>
    match m.add tag with
    | .ok m => collect m rest
    | .error d => (m, some d)

def permission? (m : Marks) : Option Permission :=
  m.permissionTag.map fun tag => (Permission.ofText? tag.name).getD .priv

def lifeCycle? (m : Marks) : Option LifeCycle :=
  m.lifeCycleTag.bind fun tag =>
    [LifeCycle.static, .global, .perInstance].find? (·.text == tag.name)

/-- Whether a restriction or role was asked for. -/
def has (m : Marks) (word : String) : Bool := m.flags.contains word

/-- Whether the declared thing keeps its value. -/
def isConst (m : Marks) : Bool := m.has Restriction.const.text

/-- Whether the declared thing is passed unevaluated. -/
def isQuote (m : Marks) : Bool := m.has Restriction.quote.text

/-- Whether the declared thing belongs to a class and not to its instances. -/
def isStatic (m : Marks) : Bool := m.lifeCycle? == some .static

/-- Whether one tag is among those allowed. The word `type` allows every type. -/
def admits (allowed : List String) : Tag → Bool
  | .missing => true
  | .mk .type .. => allowed.contains "type"
  | .mk _ name _ _ _ => allowed.contains name

/-- The diagnostic for the first tag that is not allowed on the thing described by `what`. -/
def refusal? (m : Marks) (what : String) (allowed : List String) : Option Diagnostic :=
  (m.all.find? (!admits allowed ·)).map fun tag =>
    misplaced tag (.entry .labelNotAdmitted [.text tag.text, .text what])

end Marks

namespace Permission

/-- Whether one who comes with the first permission may use a member that has the second. From
outside one comes as private, from a derived class as protected, from the class itself as public.
Built-in members are open to the class itself only. -/
def allows : Permission → Permission → Bool
  | priv, actual => actual == pub
  | prot, actual => actual == prot || actual == pub
  | pub, _ => true
  | builtin, _ => false

end Permission

end Frontend
