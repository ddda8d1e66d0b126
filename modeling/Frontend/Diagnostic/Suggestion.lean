import Frontend.Decimal
import Frontend.Diagnostic.Basic

/-!
# Suggestions

Advice that goes with the code of a diagnostic, and the search for a name that was probably meant: the
closest candidate by edit distance, case ignored.
-/

namespace Frontend.Suggestion

/-- The advice that every diagnostic with a code gets when it has none of its own. -/
def ofCode (code : String) : List Phrase :=
  if code == Code.typeMismatch then [.entry .hintConvertValue []]
  else if code == Code.missingReturn then [.entry .hintAddReturn []]
  else if code == Code.scope then [.entry .hintRenameShadowing []]
  else if code == Code.extensionLoad then [.entry .hintExtensionAbi []]
  else if code == Code.recursiveImport then [.entry .hintBreakImport []]
  else []

/-- One row of the edit distance table from the row above it, after the entry `left`. -/
def nextRow (c : Char) : Nat → List Nat → List Char → List Nat
  | left, above :: right :: more, d :: ds =>
    let cost := if c == d then 0 else 1
    let here := min (right + 1) (min (left + 1) (above + cost))
    here :: nextRow c here (right :: more) ds
  | _, _, _ => []

/-- The last row of the edit distance table, the rows `i` to the end still to be made. -/
def lastRow (target : List Char) : List Char → Nat → List Nat → List Nat
  | [], _, row => row
  | c :: cs, i, row => lastRow target cs (i + 1) ((i + 1) :: nextRow c (i + 1) row target)

/-- The edit distance of two character lists. -/
def distanceOf (source target : List Char) : Nat :=
  (lastRow target source 0 (List.range (target.length + 1))).getLast?.getD 0

/-- The least number of insertions, deletions and substitutions between two names, case ignored. -/
def distance (a b : String) : Nat := distanceOf (Text.lower a).toList (Text.lower b).toList

/-- The first candidate with the least distance below `bound`, if there is one. -/
def closest (name : String) : List String → Int → Option String → Option String
  | [], _, best => best
  | c :: cs, bound, best =>
    let d : Int := distance name c
    if d < bound then closest name cs d (some c) else closest name cs bound best

/-- The candidate most similar to a name, at most `limit` edits away. The limit is a word, and the bound above
it is one too, so nothing is below the bound of the largest word. -/
def similar? (name : String) (candidates : List String) (limit : Int) : Option String :=
  closest name candidates (Decimal.wrapWord (limit + 1)) none

/-- How many edits a misspelt name may have. -/
def tolerance (name : String) : Int := if name.utf8ByteSize ≤ 3 then 1 else 2

/-- Advice to use a similar name; silent when there is none or the name itself is one. -/
def didYouMean (name : String) (candidates : List String) : Phrase :=
  match similar? name candidates (tolerance name) with
  | some other =>
    if other.isEmpty || other == name then .text "" else .entry .hintDidYouMean [.text other]
  | none => .text ""

end Frontend.Suggestion
