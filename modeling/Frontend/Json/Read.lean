import Frontend.Json.Basic

/-!
# Reading JSON

A reader for complete JSON texts. A surrogate escape without its partner reads as the replacement
character, and arrays and objects nest at most ten thousand deep.
-/

namespace Frontend.Json

/-- The four characters between tokens. -/
def isGap (c : Char) : Bool := c == ' ' || c == '\n' || c == '\r' || c == '\t'

/-- Skips what stands between tokens. -/
def skipGap (cs : List Char) : List Char := cs.dropWhile isGap

/-- Four hexadecimal digits. -/
def hexUnit? : List Char → Option (Nat × List Char)
  | a :: b :: c :: d :: rest => do
    let a ← Text.hexValue? a
    let b ← Text.hexValue? b
    let c ← Text.hexValue? c
    let d ← Text.hexValue? d
    return (a * 4096 + b * 256 + c * 16 + d, rest)
  | _ => none

/-- Whether a unit is the first half of a pair. -/
def isHigh (n : Nat) : Bool := 0xD800 ≤ n && n < 0xDC00

/-- Whether a unit is the second half of a pair. -/
def isLow (n : Nat) : Bool := 0xDC00 ≤ n && n < 0xE000

/-- The replacement character. -/
def unreadable : Char := Char.ofNat 0xFFFD

/-- The character of a `\u` escape whose first unit was read, with what follows it. -/
def unitChar (n : Nat) (rest : List Char) : Char × List Char :=
  if isHigh n then
    match rest with
    | '\\' :: 'u' :: more =>
      match hexUnit? more with
      | some (m, more) =>
        if isLow m then (Char.ofNat ((n - 0xD800) * 1024 + (m - 0xDC00) + 0x10000), more)
        else (unreadable, rest)
      | none => (unreadable, rest)
    | _ => (unreadable, rest)
  else if isLow n then (unreadable, rest)
  else (Char.ofNat n, rest)

def shortEscape? : Char → Option Char
  | '\x22' => some '\x22'
  | '\\' => some '\\'
  | '/' => some '/'
  | 'b' => some '\x08'
  | 'f' => some '\x0c'
  | 'n' => some '\n'
  | 'r' => some '\r'
  | 't' => some '\t'
  | _ => none

/-- The rest of a string behind its opening quote; `done` holds its characters, last first, and
`escaped` says whether one of them was an escape. -/
def readString : Nat → Bool → List Char → List Char → Option (String × Bool × List Char)
  | 0, _, _, _ => none
  | _, _, _, [] => none
  | fuel + 1, escaped, done, c :: rest =>
    if c == '\x22' then some (String.ofList done.reverse, escaped, rest)
    else if c == '\\' then
      match rest with
      | 'u' :: more =>
        match hexUnit? more with
        | some (n, more) =>
          let (c, more) := unitChar n more
          readString fuel true (c :: done) more
        | none => none
      | e :: more =>
        match shortEscape? e with
        | some c => readString fuel true (c :: done) more
        | none => none
      | [] => none
    else if c.toNat < 0x20 then none
    else readString fuel escaped (c :: done) rest

/-- The whole part of a number: a zero, or digits that do not start with one. -/
def readWhole? (cs : List Char) : Option (List Char × List Char) :=
  match cs with
  | '0' :: rest => some (['0'], rest)
  | c :: _ => if Text.isDigit c then some (cs.takeWhile Text.isDigit, cs.dropWhile Text.isDigit)
    else none
  | [] => none

/-- The point of a number and the digits behind it, if it has one. -/
def readFraction? (cs : List Char) : Option (List Char × List Char) :=
  match cs with
  | '.' :: rest =>
    let digits := rest.takeWhile Text.isDigit
    if digits.isEmpty then none else some ('.' :: digits, rest.dropWhile Text.isDigit)
  | _ => some ([], cs)

/-- The exponent of a number with its mark and its sign, if it has one. -/
def readExponent? (cs : List Char) : Option (List Char × List Char) :=
  match cs with
  | mark :: rest =>
    if mark == 'e' || mark == 'E' then
      let (sign, rest) := match rest with
        | '-' :: more => (['-'], more)
        | '+' :: more => (['+'], more)
        | more => ([], more)
      let digits := rest.takeWhile Text.isDigit
      if digits.isEmpty then none
      else some (mark :: (sign ++ digits), rest.dropWhile Text.isDigit)
    else some ([], cs)
  | [] => some ([], [])

def readNumber? (cs : List Char) : Option (Json × List Char) := do
  let (sign, cs) := match cs with
    | '-' :: rest => (['-'], rest)
    | rest => ([], rest)
  let (whole, cs) ← readWhole? cs
  let (fraction, cs) ← readFraction? cs
  let (exponent, cs) ← readExponent? cs
  return (.num (String.ofList (sign ++ whole ++ fraction ++ exponent)), cs)

def readWord? (word : String) (value : Json) (cs : List Char) : Option (Json × List Char) :=
  if word.toList.isPrefixOf cs then some (value, cs.drop word.length) else none

/-- How deep arrays and objects may nest. -/
def maxDepth : Nat := 10000

mutual
/-- A value behind any gap; `room` says how deep it may nest. -/
def readValue : Nat → Nat → List Char → Option (Json × List Char)
  | 0, _, _ => none
  | fuel + 1, room, cs =>
    match skipGap cs with
    | '\x7b' :: rest =>
      match room, skipGap rest with
      | 0, _ => none
      | _, '\x7d' :: more => some (.obj [], more)
      | room + 1, more => readFields fuel room [] more
    | '[' :: rest =>
      match room, skipGap rest with
      | 0, _ => none
      | _, ']' :: more => some (.arr [], more)
      | room + 1, more => readItems fuel room [] more
    | '\x22' :: rest =>
      (readString fuel false [] rest).map fun (s, escaped, more) => (.string s escaped, more)
    | 't' :: rest => readWord? "true" (.bool true) ('t' :: rest)
    | 'f' :: rest => readWord? "false" (.bool false) ('f' :: rest)
    | 'n' :: rest => readWord? "null" .null ('n' :: rest)
    | more => readNumber? more

/-- The items of an array from the next one on, after those already read. -/
def readItems : Nat → Nat → List Json → List Char → Option (Json × List Char)
  | 0, _, _, _ => none
  | fuel + 1, room, done, cs => do
    let (item, cs) ← readValue fuel room cs
    match skipGap cs with
    | ',' :: rest => readItems fuel room (item :: done) rest
    | ']' :: rest => some (.arr (item :: done).reverse, rest)
    | _ => none

/-- The fields of an object from the next one on, after those already read. -/
def readFields : Nat → Nat → List (String × Json) → List Char → Option (Json × List Char)
  | 0, _, _, _ => none
  | fuel + 1, room, done, cs =>
    match skipGap cs with
    | '\x22' :: rest => do
      let (name, _, cs) ← readString fuel false [] rest
      match skipGap cs with
      | ':' :: rest => do
        let (value, cs) ← readValue fuel room rest
        match skipGap cs with
        | ',' :: rest => readFields fuel room ((name, value) :: done) rest
        | '\x7d' :: rest => some (.obj ((name, value) :: done).reverse, rest)
        | _ => none
      | _ => none
    | _ => none
end

/-- Reads a complete JSON text. -/
def read? (s : String) : Option Json :=
  match readValue (s.length + 1) maxDepth s.toList with
  | some (j, rest) => if (skipGap rest).isEmpty then some j else none
  | none => none

end Frontend.Json
