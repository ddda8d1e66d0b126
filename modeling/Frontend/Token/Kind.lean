import Frontend.Text.Basic

/-!
# Kinds of tokens

The vocabulary of the language: operators, brackets, keywords and label words, and how a piece of
text is classified. The kind of a token follows from its text alone; only string tokens are told apart
earlier, by their quotes.
-/

namespace Frontend

/-- The operators. -/
inductive Operator where
  | plus | minus | star | power | slash | percent
  | assign | plusAssign | minusAssign | starAssign | slashAssign | percentAssign
  | increment | decrement
  | eq | ne | lt | le | gt | ge
  | and | or | not
  | arrow | dot | colon
  deriving DecidableEq, Repr, Inhabited

/-- The three pairs of brackets. -/
inductive Bracket where
  | paren | square | brace
  deriving DecidableEq, Repr, Inhabited

/-- The keywords that start or shape a construct. -/
inductive Keyword where
  | varDef | funDef | classDef
  | ifTest | elifTest | elseCase | whileLoop | forLoop
  | returnFrom | breakOut | continueOn | pass
  | trueValue | falseValue | nullValue | this
  | importFile
  deriving DecidableEq, Repr, Inhabited

/-- The built-in types. -/
inductive TypeName where
  | int | flt | str | bool | nul | any | list | dict | pair | func | funi
  deriving DecidableEq, Repr, Inhabited

/-- Who may use a member. -/
inductive Permission where
  | priv | prot | pub | builtin
  deriving DecidableEq, Repr, Inhabited

/-- What a member belongs to. -/
inductive LifeCycle where
  | static | global | perInstance
  deriving DecidableEq, Repr, Inhabited

/-- Limits on the use of a variable. -/
inductive Restriction where
  | const | quote
  deriving DecidableEq, Repr, Inhabited

/-- The part a method plays in a class hierarchy. -/
inductive Role where
  | overwrite | interface | virtual
  deriving DecidableEq, Repr, Inhabited

/-- The words that may label a declaration. -/
inductive LabelWord where
  | type (t : TypeName)
  | permission (p : Permission)
  | lifeCycle (l : LifeCycle)
  | restriction (r : Restriction)
  | role (r : Role)
  deriving DecidableEq, Repr, Inhabited

/-- The kind of a token. -/
inductive TokenKind where
  | illegal
  | start
  | eof
  | newline
  | ident
  | int
  | float
  | str
  | op (o : Operator)
  | comma
  | opening (b : Bracket)
  | closing (b : Bracket)
  | keyword (k : Keyword)
  | label (l : LabelWord)
  deriving DecidableEq, Repr, Inhabited

def Operator.table : List (String × Operator) := [
  ("+", .plus), ("-", .minus), ("*", .star), ("**", .power), ("/", .slash), ("%", .percent),
  ("=", .assign), ("+=", .plusAssign), ("-=", .minusAssign), ("*=", .starAssign),
  ("/=", .slashAssign), ("%=", .percentAssign), ("++", .increment), ("--", .decrement),
  ("==", .eq), ("!=", .ne), ("<", .lt), ("<=", .le), (">", .gt), (">=", .ge),
  ("&&", .and), ("||", .or), ("!", .not), ("->", .arrow), (".", .dot), (":", .colon)]

def Operator.text : Operator → String
  | plus => "+" | minus => "-" | star => "*" | power => "**" | slash => "/" | percent => "%"
  | assign => "=" | plusAssign => "+=" | minusAssign => "-=" | starAssign => "*="
  | slashAssign => "/=" | percentAssign => "%=" | increment => "++" | decrement => "--"
  | eq => "==" | ne => "!=" | lt => "<" | le => "<=" | gt => ">" | ge => ">="
  | and => "&&" | or => "||" | not => "!" | arrow => "->" | dot => "." | colon => ":"

def Operator.ofText? (s : String) : Option Operator := Operator.table.lookup s

/-- The opening character of a pair of brackets. -/
def Bracket.opener : Bracket → Char
  | paren => '(' | square => '[' | brace => '\x7b'

/-- The closing character of a pair of brackets. -/
def Bracket.closer : Bracket → Char
  | paren => ')' | square => ']' | brace => '\x7d'

def Keyword.text : Keyword → String
  | varDef => "var" | funDef => "fun" | classDef => "class"
  | ifTest => "if" | elifTest => "elif" | elseCase => "else"
  | whileLoop => "while" | forLoop => "for" | returnFrom => "return"
  | breakOut => "break" | continueOn => "continue" | pass => "pass"
  | trueValue => "true" | falseValue => "false" | nullValue => "null" | this => "this"
  | importFile => "import"

def Keyword.all : List Keyword := [
  .varDef, .funDef, .classDef, .ifTest, .elifTest, .elseCase, .whileLoop, .forLoop,
  .returnFrom, .breakOut, .continueOn, .pass, .trueValue, .falseValue, .nullValue, .this,
  .importFile]

def TypeName.text : TypeName → String
  | int => "int" | flt => "flt" | str => "str" | bool => "bool" | nul => "nul" | any => "any"
  | list => "list" | dict => "dict" | pair => "pair" | func => "func" | funi => "funi"

def TypeName.all : List TypeName :=
  [.int, .flt, .str, .bool, .nul, .any, .list, .dict, .pair, .func, .funi]

def TypeName.ofText? (s : String) : Option TypeName := TypeName.all.find? (·.text == s)

def Permission.text : Permission → String
  | priv => "private" | prot => "protected" | pub => "public" | builtin => "builtin"

def Permission.ofText? (s : String) : Option Permission :=
  [Permission.priv, .prot, .pub, .builtin].find? (·.text == s)

def LifeCycle.text : LifeCycle → String
  | static => "static" | global => "global" | perInstance => "instance"

def Restriction.text : Restriction → String
  | const => "const" | quote => "quote"

def Role.text : Role → String
  | overwrite => "overwrite" | interface => "interface" | virtual => "virtual"

def LabelWord.text : LabelWord → String
  | type t => t.text
  | permission p => p.text
  | lifeCycle l => l.text
  | restriction r => r.text
  | role r => r.text

def LabelWord.all : List LabelWord :=
  TypeName.all.map .type ++
  [Permission.priv, .prot, .pub, .builtin].map .permission ++
  [LifeCycle.static, .global, .perInstance].map .lifeCycle ++
  [Restriction.const, .quote].map .restriction ++
  [Role.overwrite, .interface, .virtual].map .role

namespace TokenKind

/-- The words with a meaning of their own, with their kinds. -/
def words : List (String × TokenKind) :=
  Keyword.all.map (fun k => (k.text, .keyword k)) ++
  LabelWord.all.map (fun l => (l.text, .label l))

/-- The tokens of one character that always stand alone. -/
def ofDelimiter? (s : String) : Option TokenKind :=
  match s with
  | "," => some .comma
  | "\n" => some .newline
  | "(" => some (.opening .paren)
  | ")" => some (.closing .paren)
  | "[" => some (.opening .square)
  | "]" => some (.closing .square)
  | "\x7b" => some (.opening .brace)
  | "\x7d" => some (.closing .brace)
  | _ => none

/-- Digits with at most one point, which is neither first nor last. -/
def isUnsigned : List Char → Bool
  | [] => false
  | cs@(c :: _) =>
    Text.isDigit c && cs.all (fun d => Text.isDigit d || d == '.') &&
      cs.count '.' ≤ 1 && cs.getLast? != some '.'

/-- Whether a text is a number, perhaps with a minus in front. -/
def isNumber (s : String) : Bool :=
  match s.toList with
  | '-' :: rest => isUnsigned rest
  | cs => isUnsigned cs

/-- The letters that a name may start with. -/
def isNameStart (c : Char) : Bool :=
  c == '_' || ('a' ≤ c && c ≤ 'z') || ('A' ≤ c && c ≤ 'Z')

/-- The letters that a name may go on with. -/
def isNameChar (c : Char) : Bool := isNameStart c || Text.isDigit c

def isName (s : String) : Bool :=
  match s.toList with
  | [] => false
  | c :: rest => isNameStart c && rest.all isNameChar

/-- The kind of token that a text stands for. -/
def classify (s : String) : TokenKind :=
  if s.isEmpty then .illegal
  else if let some k := ofDelimiter? s then k
  else if let some o := Operator.ofText? s then .op o
  else if let some k := words.lookup s then k
  else if isNumber s then (if s.toList.contains '.' then .float else .int)
  else if isName s then .ident
  else .illegal

/-- The name of a kind: the text of a word or sign, or a capitalised class name. -/
def name : TokenKind → String
  | illegal => "ILLEGAL"
  | start => "START"
  | eof => "EOF"
  | newline => "NEWLINE"
  | ident => "IDENT"
  | int => "INT"
  | float => "FLOAT"
  | str => "STRING"
  | op o => o.text
  | comma => ","
  | opening b => b.opener.toString
  | closing b => b.closer.toString
  | keyword k => k.text
  | label l => l.text

def isKeyword : TokenKind → Bool
  | keyword _ => true
  | _ => false

def isOperator : TokenKind → Bool
  | op _ => true
  | _ => false

def isLabel : TokenKind → Bool
  | label _ => true
  | _ => false

def isOpening : TokenKind → Bool
  | opening _ => true
  | _ => false

def isClosing : TokenKind → Bool
  | closing _ => true
  | _ => false

end TokenKind

/-- All reserved words in alphabetical order. -/
def reservedWords : List String :=
  (TokenKind.words.map Prod.fst).mergeSort (fun a b => decide (a ≤ b))

/-- Whether a text occurs only as a part of longer operators. -/
def isPartialOperator (s : String) : Bool := s == "&" || s == "|"

/-- Whether a character may occur in an operator. -/
def isOperatorChar (c : Char) : Bool := "+-*/%=!<>&|.:".toList.contains c

end Frontend
