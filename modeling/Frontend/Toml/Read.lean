import Frontend.Toml.Basic

/-!
# Reading TOML

A reader for complete documents. Numbers, dates and times are only measured: their text is taken as
far as it goes and not looked at further.
-/

namespace Frontend.Toml

/-- A reader of one thing: the thing and what follows it. -/
abbrev Reader (α : Type) := List Char → Option (α × List Char)

/-- A space inside of a line. -/
def isGap (c : Char) : Bool := c == ' ' || c == '\t'

/-- Skips spaces inside of a line. -/
def skipGap (cs : List Char) : List Char := cs.dropWhile isGap

/-- Whether a character may stand in strings and comments. -/
def isAllowed (c : Char) : Bool := c == '\t' || (0x20 ≤ c.toNat && c != '\x7f')

/-- Whether a character may stand in a name without quotes. -/
def isNameChar (c : Char) : Bool :=
  ('a' ≤ c && c ≤ 'z') || ('A' ≤ c && c ≤ 'Z') || Text.isDigit c || c == '_' || c == '-'

/-- Takes one given character. -/
def expect (c : Char) : List Char → Option (List Char)
  | d :: rest => if d == c then some rest else none
  | [] => none

/-- Skips a line end. -/
def newline? : List Char → Option (List Char)
  | '\n' :: rest => some rest
  | '\r' :: '\n' :: rest => some rest
  | _ => none

/-- Skips a comment behind its mark; what follows it starts with a line end. -/
def comment? (cs : List Char) : Option (List Char) :=
  let rest := cs.dropWhile isAllowed
  match rest with
  | [] => some []
  | _ => (newline? rest).map fun _ => rest

/-- Skips spaces, comments and line ends. -/
def skipBlank : Nat → List Char → Option (List Char)
  | 0, _ => none
  | fuel + 1, cs =>
    match skipGap cs with
    | '#' :: rest => (comment? rest).bind (skipBlank fuel)
    | '\n' :: rest => skipBlank fuel rest
    | '\r' :: rest => (newline? ('\r' :: rest)).bind (skipBlank fuel)
    | rest => some rest

/-- The character that `count` hexadecimal digits stand for. -/
def codePoint? (count : Nat) (cs : List Char) : Option (Char × List Char) := do
  let digits ← (cs.take count).mapM Text.hexValue?
  let n := digits.foldl (fun n d => n * 16 + d) 0
  if digits.length = count ∧ n.isValidChar then some (Char.ofNat n, cs.drop count) else none

/-- The character of an escape behind its backslash. -/
def escape? : List Char → Option (Char × List Char)
  | '\x22' :: rest => some ('\x22', rest)
  | '\\' :: rest => some ('\\', rest)
  | 'b' :: rest => some ('\x08', rest)
  | 'f' :: rest => some ('\x0c', rest)
  | 'n' :: rest => some ('\n', rest)
  | 'r' :: rest => some ('\r', rest)
  | 't' :: rest => some ('\t', rest)
  | 'e' :: rest => some ('\x1b', rest)
  | 'u' :: rest => codePoint? 4 rest
  | 'U' :: rest => codePoint? 8 rest
  | _ => none

/-- The rest of a string in double quotes; `done` holds its characters, last first. -/
def readBasic : Nat → List Char → Reader String
  | fuel + 1, done, c :: rest =>
    if c == '\x22' then some (String.ofList done.reverse, rest)
    else if c == '\\' then
      (escape? rest).bind fun (c, rest) => readBasic fuel (c :: done) rest
    else if isAllowed c then readBasic fuel (c :: done) rest
    else none
  | _, _, _ => none

/-- The rest of a string in single quotes. -/
def readLiteral (cs : List Char) : Option (String × List Char) :=
  match cs.dropWhile fun c => isAllowed c && c != '\x27' with
  | '\x27' :: rest =>
    some (String.ofList (cs.takeWhile fun c => isAllowed c && c != '\x27'), rest)
  | _ => none

/-- Skips the line end right behind an opening triple quote. -/
def skipFirstNewline (cs : List Char) : List Char := (newline? cs).getD cs

/-- The end of a string in triple quotes, at a quote: how many quotes belong to the text, and what
follows. Up to two quotes may stand in front of the closing three. -/
def closing? (quote : Char) (cs : List Char) : Option (Option (Nat × List Char)) :=
  let run := (cs.takeWhile (· == quote)).length
  if run < 3 then some none
  else if run ≤ 5 then some (some (run - 3, cs.drop run))
  else none

/-- Skips spaces and line ends. -/
def skipLines : List Char → List Char
  | '\r' :: '\n' :: rest => skipLines rest
  | c :: rest => if isGap c || c == '\n' then skipLines rest else c :: rest
  | [] => []

/-- What follows a backslash at the end of a line: the next character that is no space. -/
def continued? (cs : List Char) : Option (List Char) := (newline? (skipGap cs)).map skipLines

/-- The rest of a string in triple quotes of either kind. -/
def readLong (quote : Char) : Nat → List Char → Reader String
  | fuel + 1, done, c :: rest =>
    if c == quote then
      match closing? quote (c :: rest) with
      | none => none
      | some (some (extra, rest)) =>
        some (String.ofList (done.reverse ++ List.replicate extra quote), rest)
      | some none => readLong quote fuel (c :: done) rest
    else if c == '\\' && quote == '\x22' then
      match continued? rest with
      | some rest => readLong quote fuel done rest
      | none => (escape? rest).bind fun (c, rest) => readLong quote fuel (c :: done) rest
    else if c == '\n' then readLong quote fuel (c :: done) rest
    else if c == '\r' then
      match rest with
      | '\n' :: rest => readLong quote fuel ('\n' :: '\r' :: done) rest
      | _ => none
    else if isAllowed c then readLong quote fuel (c :: done) rest
    else none
  | _, _, _ => none

def readName (cs : List Char) : Option (String × List Char) :=
  match cs with
  | '\x22' :: rest => readBasic cs.length [] rest
  | '\x27' :: rest => readLiteral rest
  | _ =>
    let name := cs.takeWhile isNameChar
    if name.isEmpty then none else some (String.ofList name, cs.dropWhile isNameChar)

/-- A path of names with dots between them. -/
def readKey : Nat → Reader (List String)
  | 0, _ => none
  | fuel + 1, cs => do
    let (name, cs) ← readName cs
    match skipGap cs with
    | '.' :: rest => (readKey fuel (skipGap rest)).map fun (more, cs) => (name :: more, cs)
    | rest => some ([name], rest)

/-- Skips a word that is known to stand here. -/
def dropWord? (word : String) (cs : List Char) : Option (List Char) :=
  if word.toList.isPrefixOf cs then some (cs.drop word.length) else none

/-- Skips a date or a time. One space may stand before an hour, which has two bytes. A character of more
bytes does not fit there and is left for what follows, where it fits no better. -/
def skipMoment (spaced : Bool) : List Char → List Char
  | [] => []
  | [' ', d] => if !spaced && Text.isDigit d then [] else [' ', d]
  | ' ' :: d :: e :: rest =>
    if spaced || !Text.isDigit d then ' ' :: d :: e :: rest
    else if e.utf8Size = 1 then skipMoment true rest
    else e :: rest
  | c :: rest =>
    if Text.isDigit c || "-+Tt:.Zz".toList.contains c then skipMoment spaced rest else c :: rest

/-- Whether a date or a time starts here. -/
def atMoment (cs : List Char) : Bool :=
  let digits := (cs.takeWhile Text.isDigit).length
  3 ≤ cs.length &&
    ((digits == 2 && cs[2]? == some ':') || (digits == 4 && cs[4]? == some '-'))

/-- Skips the digits of a number with a base mark. -/
def skipDigits (isBase : Char → Bool) (cs : List Char) : List Char :=
  cs.dropWhile fun c => isBase c || c == '_'

/-- Skips a number in decimal: anything that a number can be made of, and the words for infinity and
for no number at its end. -/
def skipDecimal (cs : List Char) : Option (List Char) :=
  let rest := cs.dropWhile fun c => Text.isDigit c || "+-_.eE".toList.contains c
  match rest with
  | 'i' :: _ => dropWord? "inf" rest
  | 'n' :: _ => dropWord? "nan" rest
  | _ => if rest.length = cs.length then none else some rest

def skipNumber (cs : List Char) : Option (List Char) :=
  match cs with
  | '0' :: mark :: next :: rest =>
    if mark == 'x' then some (skipDigits (fun c => (Text.hexValue? c).isSome) (next :: rest))
    else if mark == 'o' then some (skipDigits (fun c => '0' ≤ c && c ≤ '7') (next :: rest))
    else if mark == 'b' then some (skipDigits (fun c => c == '0' || c == '1') (next :: rest))
    else if mark == '.' || mark == 'e' || mark == 'E' then skipDecimal cs
    else some (mark :: next :: rest)
  | _ => skipDecimal cs

/-- A number, a date or a time. -/
def readScalar (cs : List Char) : Option (Value × List Char) :=
  (if atMoment cs then some (skipMoment false cs) else skipNumber cs).map fun rest =>
    (.scalar, rest)

mutual
def readValue : Nat → Reader Value
  | 0, _ => none
  | fuel + 1, cs =>
    let text := fun (r : Option (String × List Char)) => r.map fun (s, rest) => (Value.text s, rest)
    match cs with
    | '\x22' :: '\x22' :: '\x22' :: rest =>
      text (readLong '\x22' cs.length [] (skipFirstNewline rest))
    | '\x27' :: '\x27' :: '\x27' :: rest =>
      text (readLong '\x27' cs.length [] (skipFirstNewline rest))
    | '\x22' :: rest => text (readBasic cs.length [] rest)
    | '\x27' :: rest => text (readLiteral rest)
    | 't' :: _ => (dropWord? "true" cs).map fun rest => (.bool true, rest)
    | 'f' :: _ => (dropWord? "false" cs).map fun rest => (.bool false, rest)
    | '[' :: rest =>
      match skipBlank cs.length rest with
      | some (']' :: rest) => some (.list [], rest)
      | some rest => readItems fuel [] rest
      | none => none
    | '\x7b' :: rest =>
      match skipGap rest with
      | '\x7d' :: rest => some (.table [], rest)
      | rest => readEntries fuel [] rest
    | _ => readScalar cs

/-- The items of an array from the next one on. A comma may follow the last one. -/
def readItems : Nat → List Value → Reader Value
  | 0, _, _ => none
  | fuel + 1, done, cs => do
    let (item, cs) ← readValue fuel cs
    let done := item :: done
    match ← skipBlank (cs.length + 1) cs with
    | ']' :: rest => some (.list done.reverse, rest)
    | ',' :: rest =>
      match ← skipBlank (rest.length + 1) rest with
      | ']' :: rest => some (.list done.reverse, rest)
      | rest => readItems fuel done rest
    | _ => none

/-- The entries of a table on one line from the next one on. -/
def readEntries : Nat → List (List String × Value) → Reader Value
  | 0, _, _ => none
  | fuel + 1, done, cs => do
    let (key, cs) ← readKey (cs.length + 1) cs
    let cs ← expect '=' (skipGap cs)
    let (value, cs) ← readValue fuel (skipGap cs)
    let done := (key, value) :: done
    match skipGap cs with
    | '\x7d' :: rest => some (.table done.reverse, rest)
    | ',' :: rest => readEntries fuel done (skipGap rest)
    | _ => none
end

def readStatement (cs : List Char) : Option (Statement × List Char) :=
  match cs with
  | '[' :: '[' :: rest => do
    let (key, cs) ← readKey cs.length (skipGap rest)
    let cs ← expect ']' (skipGap cs)
    let cs ← expect ']' cs
    some (.arrayHeader key, cs)
  | '[' :: rest => do
    let (key, cs) ← readKey cs.length (skipGap rest)
    let cs ← expect ']' (skipGap cs)
    some (.header key, cs)
  | _ => do
    let (key, rest) ← readKey (cs.length + 1) cs
    let rest ← expect '=' (skipGap rest)
    let (value, rest) ← readValue cs.length (skipGap rest)
    some (.assign key value, rest)

/-- The rest of a line: spaces and a comment. -/
def endLine? (cs : List Char) : Option (List Char) :=
  match skipGap cs with
  | '#' :: rest => comment? rest
  | rest => some rest

/-- The statements of a document from a line start on. -/
def readLines : Nat → List Statement → List Char → Option (List Statement)
  | 0, _, _ => none
  | fuel + 1, done, cs =>
    let next := fun (done : List Statement) (cs : List Char) => do
      let cs ← endLine? cs
      if cs.isEmpty then some done.reverse
      else readLines fuel done (← newline? cs)
    match skipGap cs with
    | [] => some done.reverse
    | '#' :: rest => next done ('#' :: rest)
    | '\n' :: rest => next done ('\n' :: rest)
    | '\r' :: rest => next done ('\r' :: rest)
    | rest => do
      let (s, rest) ← readStatement rest
      next (s :: done) rest

def read? (s : String) : Option (List Statement) := readLines (s.length + 1) [] s.toList

end Frontend.Toml
