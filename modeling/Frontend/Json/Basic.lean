import Frontend.Decimal

/-!
# JSON values

Objects keep their fields in order, also when a name is given twice. A number is kept as it is written,
because whether `1e0` counts as a whole number depends on who reads it.
-/

namespace Frontend

/-- A JSON value. -/
inductive Json where
  | null
  | bool (b : Bool)
  /-- A number as it is written. -/
  | num (literal : String)
  /-- A text, and whether it is written with escapes. -/
  | string (s : String) (escaped : Bool)
  | arr (items : List Json)
  | obj (fields : List (String × Json))
  deriving Repr, Inhabited

namespace Json

def str (s : String) : Json := .string s false

/-- A whole number. -/
def int (n : Int) : Json := .num (Text.ofInt n)

def fields : Json → List (String × Json)
  | obj fs => fs
  | _ => []

/-- The last field with a name. -/
def get? (j : Json) (name : String) : Option Json :=
  (j.fields.reverse.find? (·.1 == name)).map Prod.snd

/-- The text of a string value. -/
def str? : Json → Option String
  | string s _ => some s
  | _ => none

/-- The text of a string value that is written without escapes. -/
def plain? : Json → Option String
  | string s escaped => if escaped then none else some s
  | _ => none

/-- The items of an array. -/
def arr? : Json → Option (List Json)
  | arr items => some items
  | _ => none

/-- The value of a number that is written as a whole number. -/
def int? : Json → Option Int
  | num literal => Decimal.readInt? literal
  | _ => none

/-- The value of a number that is written as a whole number without a sign. -/
def nat? : Json → Option Nat
  | num literal => if literal.startsWith "-" then none else (Decimal.readInt? literal).map Int.toNat
  | _ => none

/-- The truth value. -/
def bool? : Json → Option Bool
  | bool b => some b
  | _ => none

def isNull : Json → Bool
  | null => true
  | _ => false

/-! ## Shapes of JSON values

What a reader expects of a JSON value. Null fits everywhere, because it stands for what is not given.
The fields of a record are found by their names in any case, and fields that no one asks for are not
looked at. When a field is given more than once, every one of its values has to fit. -/

/-- A character of a field name without its case. The long s counts as an s, and the sign of the kelvin
as a k. -/
def foldChar (c : Char) : Char :=
  if c == '\u017f' then 's' else if c == '\u212a' then 'k' else c.toLower

/-- Whether two field names differ in case at most. -/
def sameName (a b : String) : Bool := a.toList.map foldChar == b.toList.map foldChar

mutual
/-- Whether no number in a value is too large for a double. -/
def isFinite : Json → Bool
  | .num literal => (Decimal.readFinite? literal).isSome
  | .arr items => allFinite items
  | .obj fields => fieldsFinite fields
  | _ => true

/-- Whether no number in several values is too large. -/
def allFinite : List Json → Bool
  | [] => true
  | j :: js => isFinite j && allFinite js

/-- Whether no number in several fields is too large. -/
def fieldsFinite : List (String × Json) → Bool
  | [] => true
  | (_, j) :: fs => isFinite j && fieldsFinite fs
end

end Json

/-- What is expected of a JSON value. -/
inductive Shape where
  /-- A value that passes a test. -/
  | leaf (test : Json → Bool)
  | list (item : Shape)
  /-- An object whose fields have any names and one shape. -/
  | table (item : Shape)
  | record (fields : List (String × Shape))
  deriving Inhabited

namespace Shape

def text : Shape := .leaf fun j => j.str?.isSome

/-- A truth value. -/
def bool : Shape := .leaf fun j => j.bool?.isSome

/-- A number that is written as a whole number, within bounds. -/
def intWithin (least most : Int) : Shape :=
  .leaf fun j => j.int?.any fun n => least ≤ n && n ≤ most

/-- A signed number of 32 bits. -/
def int32 : Shape := intWithin (-2147483648) 2147483647

/-- A signed number of 64 bits. -/
def int64 : Shape := .leaf fun j => j.int?.any Decimal.inWord

/-- An unsigned number of 32 bits. -/
def nat32 : Shape := .leaf fun j => j.nat?.any (· ≤ 4294967295)

/-- A number that is not too large for a double. -/
def double : Shape := .leaf fun
  | .num literal => (Decimal.readFinite? literal).isSome
  | _ => false

/-- Any value without numbers that are too large for a double. -/
def any : Shape := .leaf Json.isFinite

def field? (fields : List (String × Shape)) (name : String) : Option Shape :=
  (fields.find? fun f => Json.sameName f.1 name).map Prod.snd

mutual
def admits : Shape → Json → Bool
  | _, .null => true
  | .leaf test, j => test j
  | .list item, .arr items => admitsAll item items
  | .table item, .obj fields => admitsFields (fun _ => some item) fields
  | .record expected, .obj fields => admitsFields (field? expected) fields
  | _, _ => false

/-- Whether several values have a shape. -/
def admitsAll (item : Shape) : List Json → Bool
  | [] => true
  | j :: js => admits item j && admitsAll item js

/-- Whether all fields that are asked for have the shape that is expected of them. -/
def admitsFields (expected : String → Option Shape) : List (String × Json) → Bool
  | [] => true
  | (name, j) :: fs =>
    (match expected name with
      | none => true
      | some shape => admits shape j) && admitsFields expected fs
end

end Shape

/-! ## Layers of JSON values

A field may be given more than once. Its values are then laid over each other: a record takes each of
its fields from the last layer that has it, and null adds nothing. Arrays are laid over each other item
by item and are as long as the last one; what an item held before shows through, also when an array
between was too short for it. Only an empty array or null makes an array start afresh. -/

/-- The values given for one thing, in order. -/
abbrev Layers := List Json

namespace Layers

/-- The values given for a field. -/
def field (layers : Layers) (name : String) : Layers :=
  layers.flatMap fun j => (j.fields.filter fun f => Json.sameName name f.1).map Prod.snd

/-- The last value that can be read, or one known beforehand. -/
def last (read : Json → Option α) (missing : α) (layers : Layers) : α :=
  ((layers.filterMap read).getLast?).getD missing

/-- A text; empty if none is given. -/
def text (layers : Layers) : String := layers.last Json.str? ""

/-- A whole number; zero if none is given. -/
def int (layers : Layers) : Int := layers.last Json.int? 0

/-- A number without a sign; zero if none is given. -/
def nat (layers : Layers) : Nat := layers.last Json.nat? 0

/-- Whether a value makes an array start afresh. -/
def isFresh : Json → Bool
  | .null => true
  | .arr items => items.isEmpty
  | _ => false

/-- The items of an array, each with its own layers. -/
def items (layers : Layers) : List Layers :=
  let arrays := (layers.reverse.takeWhile (!isFresh ·)).reverse.filterMap Json.arr?
  let length := (arrays.getLast?.getD []).length
  (List.range length).map fun i => arrays.filterMap (·[i]?)

/-- Puts an entry in the place of the one with its name, or behind all others. -/
def enter (table : List (String × Json)) (entry : String × Json) : List (String × Json) :=
  table.filter (·.1 != entry.1) ++ [entry]

/-- The entries of a table. Later entries replace earlier ones as a whole, and null empties it. -/
def entries (layers : Layers) : List (String × Json) :=
  layers.foldl (fun table j => if j.isNull then [] else j.fields.foldl enter table) []

end Layers

end Frontend
