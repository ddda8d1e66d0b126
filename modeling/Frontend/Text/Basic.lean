/-!
# Cutting and joining text

Small operations on character lists and strings: splitting at a character, replacing, trimming at
one end, and padding.
-/

namespace Frontend.Text

/-- Puts one more element in front of parts. -/
def prepend (x : α) : List (List α) → List (List α)
  | [] => [[x]]
  | part :: parts => (x :: part) :: parts

/-- Cuts a list at every element that `stop` accepts. The result has one part more than there are
such elements. -/
def splitAt (stop : α → Bool) (xs : List α) : List (List α) :=
  xs.foldr (fun x parts => if stop x then [] :: parts else prepend x parts) [[]]

@[simp] theorem splitAt_nil (stop : α → Bool) : splitAt stop [] = [[]] := rfl

theorem splitAt_cons (stop : α → Bool) (x : α) (xs : List α) :
    splitAt stop (x :: xs) =
      if stop x then [] :: splitAt stop xs else prepend x (splitAt stop xs) := rfl

theorem splitAt_ne_nil (stop : α → Bool) (xs : List α) : splitAt stop xs ≠ [] := by
  cases xs with
  | nil => simp
  | cons x xs =>
    rw [splitAt_cons]
    split
    · simp
    · cases splitAt stop xs <;> simp [prepend]

/-- Cuts a string at every occurrence of a character. -/
def splitOn (c : Char) (s : String) : List String :=
  (splitAt (· == c) s.toList).map String.ofList

/-- The lines of a text: cut at newline characters only. -/
def lines (s : String) : List String := splitOn '\n' s

/-- Drops the elements at the end of a list that `p` accepts. -/
def dropEndWhile (p : α → Bool) (xs : List α) : List α := (xs.reverse.dropWhile p).reverse

/-- Replaces every occurrence of a character by a text. -/
def replaceChar (c : Char) (into : String) (s : String) : String :=
  String.join (s.toList.map fun d => if d == c then into else d.toString)

/-- Whether `s` starts with `head`. -/
def startsWith (s head : String) : Bool := head.toList.isPrefixOf s.toList

/-- The rest of `s` after `head`, when `s` starts with it. -/
def dropHead? (s head : String) : Option String :=
  if startsWith s head then some (String.ofList (s.toList.drop head.length)) else none

theorem dropHead?_append (head rest : String) : dropHead? (head ++ rest) head = some rest := by
  have hdrop : (head ++ rest).toList.drop head.length = rest.toList := by
    rw [String.toList_append, ← String.length_toList, List.drop_left]
  unfold dropHead? startsWith
  rw [hdrop, String.ofList_toList, String.toList_append]
  simp

def run (c : Char) (n : Nat) : String := String.ofList (List.replicate n c)

/-- Pads a text with spaces on the left to at least `width` characters. -/
def padLeft (width : Nat) (s : String) : String := run ' ' (width - s.length) ++ s

/-- Joins texts with a separator between each two. -/
def joinWith (sep : String) (parts : List String) : String := String.intercalate sep parts

/-- A whole number in decimal. -/
def ofInt (n : Int) : String :=
  match n with
  | .ofNat k => String.ofList (Nat.toDigits 10 k)
  | .negSucc k => String.ofList ('-' :: Nat.toDigits 10 (k + 1))

/-- A natural number in decimal. -/
def ofNat (n : Nat) : String := String.ofList (Nat.toDigits 10 n)

/-- A truth value as a word. -/
def ofBool (b : Bool) : String := if b then "true" else "false"

/-- A number in hexadecimal with at least `width` lower-case digits. -/
def hex (width n : Nat) : List Char :=
  let digits := Nat.toDigits 16 n
  List.replicate (width - digits.length) '0' ++ digits

def digitValue (c : Char) : Nat := c.toNat - '0'.toNat

/-- Whether `c` is one of the ten decimal digits. -/
def isDigit (c : Char) : Bool := '0' ≤ c && c ≤ '9'

/-- The value of a run of decimal digits. -/
def digitsValue (ds : List Char) : Nat := ds.foldl (fun n c => n * 10 + digitValue c) 0

/-- The value of a hexadecimal digit. -/
def hexValue? (c : Char) : Option Nat :=
  if isDigit c then some (digitValue c)
  else if 'a' ≤ c && c ≤ 'f' then some (c.toNat - 'a'.toNat + 10)
  else if 'A' ≤ c && c ≤ 'F' then some (c.toNat - 'A'.toNat + 10)
  else none

/-! ## White space

The characters with the Unicode property White_Space, and trimming and cutting at them. -/

/-- Whether a character is white space. -/
def isBlank (c : Char) : Bool :=
  let n := c.toNat
  (0x09 ≤ n && n ≤ 0x0D) || n == 0x20 || n == 0x85 || n == 0xA0 || n == 0x1680 ||
    (0x2000 ≤ n && n ≤ 0x200A) || n == 0x2028 || n == 0x2029 || n == 0x202F || n == 0x205F ||
    n == 0x3000

/-- Drops white space at both ends of a character list. -/
def trimList (cs : List Char) : List Char := dropEndWhile isBlank (cs.dropWhile isBlank)

/-- Drops white space at both ends. -/
def trim (s : String) : String := String.ofList (trimList s.toList)

/-- The words of a text: its longest parts without white space. -/
def words (s : String) : List String :=
  ((splitAt isBlank s.toList).filter (!·.isEmpty)).map String.ofList

end Frontend.Text
