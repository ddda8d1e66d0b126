import Frontend.Text.Quoted

/-!
# Options on the command line

How the words of a command line are told apart. An option is written `--name`, `--name=value` or
`--name value`, or with one letter as `-n`, `-n=value`, `-nvalue` or `-n value`; letters of switches can
stand together. A switch takes the next word only as an operand. Behind `--` there are operands alone.
-/

namespace Frontend

/-- An option of a command. -/
structure Flag where
  name : String
  short : Option Char := none
  /-- The kind of the value; a switch has none. -/
  value : Option String := none
  usage : String
  deriving DecidableEq, Repr, Inhabited

namespace Flag

/-- Whether an option is switched on by its name alone. -/
def isSwitch (f : Flag) : Bool := f.value.isNone

def find? (flags : List Flag) (name : String) : Option Flag := flags.find? (·.name == name)

def findShort? (flags : List Flag) (c : Char) : Option Flag := flags.find? (·.short == some c)

/-- How messages name an option. -/
def label (f : Flag) : String :=
  match f.short with
  | some c => String.ofList ['-', c] ++ ", --" ++ f.name
  | none => "--" ++ f.name

end Flag

/-- Why a command line is refused. -/
inductive UsageError where
  | malformedFlag (word : String)
  | unknownFlag (name : String)
  | unknownLetter (letters : String)
  | missingValue (word : String)
  | missingLetterValue (letter : Char)
  | badSwitch (flag : Flag) (value : String)
  | unknownCommand (name within : String) (similar : List String)
  | tooManyOperands (most given : Nat)
  | operandCount (wanted given : Nat)
  deriving DecidableEq, Repr

namespace UsageError

/-- A character between single quotes. -/
def quotedLetter (c : Char) : String :=
  let body := if c == '\x27' then ['\\', c] else if c == '\x22' then [c] else Text.quoteChar c
  String.ofList ('\x27' :: (body ++ ['\x27']))

/-- The first byte of a text, as the character with that code. -/
def leadLetter (s : String) : Char := Char.ofNat ((s.toUTF8.toList.headD 0).toNat)

def offer (similar : List String) : String :=
  if similar.isEmpty then ""
  else "\n\nDid you mean this?\n" ++ String.join (similar.map fun s => "\t" ++ s ++ "\n")

/-- The words for a refused command line. -/
def text : UsageError → String
  | malformedFlag word => "bad flag syntax: " ++ word
  | unknownFlag name => "unknown flag: --" ++ name
  | unknownLetter letters =>
    "unknown shorthand flag: " ++ quotedLetter (leadLetter letters) ++ " in -" ++ letters
  | missingValue word => "flag needs an argument: " ++ word
  | missingLetterValue c =>
    "flag needs an argument: " ++ quotedLetter c ++ " in -" ++ String.singleton c
  | badSwitch flag value =>
    "invalid argument " ++ Text.quote value ++ " for " ++ Text.quote flag.label ++
      " flag: strconv.ParseBool: parsing " ++ Text.quote value ++ ": invalid syntax"
  | unknownCommand name within similar =>
    "unknown command " ++ Text.quote name ++ " for " ++ Text.quote within ++ offer similar
  | tooManyOperands most given =>
    "accepts at most " ++ Text.ofNat most ++ " arg(s), received " ++ Text.ofNat given
  | operandCount wanted given =>
    "accepts " ++ Text.ofNat wanted ++ " arg(s), received " ++ Text.ofNat given

end UsageError

/-- What a command line gives to a command: the values of options, first one first, and the operands. -/
structure Given where
  settings : List (String × String) := []
  operands : List String := []
  deriving DecidableEq, Repr, Inhabited

namespace Given

def switchValue? (value : String) : Option Bool :=
  if ["1", "t", "T", "TRUE", "true", "True"].contains value then some true
  else if ["0", "f", "F", "FALSE", "false", "False"].contains value then some false
  else none

def value? (g : Given) (name : String) : Option String := g.settings.reverse.lookup name

/-- The last value of an option; empty when it is not given. -/
def value (g : Given) (name : String) : String := (g.value? name).getD ""

def isOn (g : Given) (name : String) : Bool :=
  ((g.value? name).bind switchValue?).getD false

/-- An option with its value; the value of a switch must mean yes or no. -/
def setting (f : Flag) (value : String) : Except UsageError (String × String) :=
  if f.isSwitch && (switchValue? value).isNone then .error (.badSwitch f value)
  else .ok (f.name, value)

/-- Reads an option that is written with its name. `next` is the word behind it; the answer says
whether that word was taken. -/
def readNamed (flags : List Flag) (word : String) (next : Option String) :
    Except UsageError (List (String × String) × Bool) := do
  let body := word.toList.drop 2
  if body.isEmpty || body.head? == some '-' || body.head? == some '=' then
    .error (.malformedFlag word)
  else
    let name := String.ofList (body.takeWhile (· != '='))
    match Flag.find? flags name with
    | none => .error (.unknownFlag name)
    | some f =>
      match body.dropWhile (· != '='), next with
      | _ :: value, _ => return ([← setting f (String.ofList value)], false)
      | [], next =>
        if f.isSwitch then return ([← setting f "true"], false)
        else match next with
          | some value => return ([← setting f value], true)
          | none => .error (.missingValue word)

/-- Whether letters are an option of a test runner, such as `-test.v`. Any command may get one. -/
def isForTests (letters : List Char) : Bool := "test.".toList.isPrefixOf letters

/-- Reads options that are written with letters. Those for a test runner are passed over. -/
def readLetters (flags : List Flag) (next : Option String) :
    List Char → Except UsageError (List (String × String) × Bool)
  | [] => .ok ([], false)
  | c :: rest =>
    if isForTests (c :: rest) then .ok ([], false)
    else match Flag.findShort? flags c with
    | none => .error (.unknownLetter (String.ofList (c :: rest)))
    | some f =>
      if rest.head? == some '=' && 1 < rest.length then
        (setting f (String.ofList rest.tail)).map fun s => ([s], false)
      else if f.isSwitch then do
        let s ← setting f "true"
        let (more, taken) ← readLetters flags next rest
        return (s :: more, taken)
      else if !rest.isEmpty then (setting f (String.ofList rest)).map fun s => ([s], false)
      else match next with
        | some value => (setting f value).map fun s => ([s], true)
        | none => .error (.missingLetterValue c)

def isOption (word : String) : Bool := Text.startsWith word "-" && word != "-"

def readOption (flags : List Flag) (word : String) (next : Option String) :
    Except UsageError (List (String × String) × Bool) :=
  if Text.startsWith word "--" then readNamed flags word next
  else readLetters flags next (word.toList.drop 1)

/-- Reads the words of a command line. -/
def read (flags : List Flag) : List String → Except UsageError Given
  | [] => .ok {}
  | word :: rest => do
    if word == "--" then return { operands := rest }
    else if !isOption word then
      let g ← read flags rest
      return { g with operands := word :: g.operands }
    else
      let (settings, taken) ← readOption flags word rest.head?
      let g ← read flags (if taken then rest.tail else rest)
      return { g with settings := settings ++ g.settings }
termination_by words => words.length
decreasing_by
  · simp
  · have := rest.length_tail
    split <;> (rw [List.length_cons]; omega)

end Given

namespace Flag

/-- Whether the word behind an option is its value, as far as can be told before the command is known:
only known switches go without. -/
def takesNext (flags : List Flag) (word : String) : Bool :=
  let isSwitch := fun (f : Option Flag) => (f.map Flag.isSwitch).getD false
  !word.toList.contains '=' && (
    (Text.startsWith word "--" && !isSwitch (find? flags (String.ofList (word.toList.drop 2)))) ||
    (Text.startsWith word "-" && word.utf8ByteSize == 2 &&
      !isSwitch ((word.toList[1]?).bind (findShort? flags))))

/-- The words that are neither options nor values of options. -/
def bareWords (flags : List Flag) : List String → List String
  | [] => []
  | word :: rest =>
    if word == "--" then []
    else if takesNext flags word then
      match rest with
      | _ :: next :: more => bareWords flags (next :: more)
      | _ => []
    else if word.isEmpty || Text.startsWith word "-" then bareWords flags rest
    else word :: bareWords flags rest

/-- A command line without the first bare word `x`. -/
def withoutBareWord (flags : List Flag) (x : String) : List String → List String
  | [] => []
  | word :: rest =>
    if word == "--" then word :: rest
    else if takesNext flags word then
      match rest with
      | value :: more => word :: value :: withoutBareWord flags x more
      | [] => [word]
    else if word == x && !Text.startsWith word "-" then rest
    else word :: withoutBareWord flags x rest

end Flag

end Frontend
