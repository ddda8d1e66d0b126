import Frontend.Tree.Basic

/-!
# Printing trees

The text of a node: operators are fully parenthesised, blocks stand on one line.
-/

namespace Frontend

mutual
def Label.text : Label → String
  | .mk token groups => token.literal ++ Label.groupTexts groups

def Label.groupTexts : List (List Label) → String
  | [] => ""
  | g :: gs => "[" ++ Text.joinWith ", " (Label.texts g) ++ "]" ++ Label.groupTexts gs

def Label.texts : List Label → List String
  | [] => []
  | l :: ls => l.text :: Label.texts ls
end

/-- The labels behind a declared name. -/
def Label.suffix (labels : List Label) : String :=
  if labels.isEmpty then "" else ": " ++ Text.joinWith " " (Label.texts labels)

def Ident.text (i : Ident) : String := i.name ++ Label.suffix i.labels

/-- A list of definitions: names with the texts of their values. -/
def definitionTexts : List Ident → List (Option String) → List String
  | name :: names, value :: values =>
    (name.text ++ (value.map (" = " ++ ·)).getD "") :: definitionTexts names values
  | _, _ => []

mutual
def Node.text : Node → String
  | .int t _ | .float t _ | .bool t _ => t.literal
  | .str t => Text.quote t.literal
  | .null _ => "null"
  | .ident name => name.text
  | .this _ => "this"
  | .unary op operand => "(" ++ op.literal ++ operand.text ++ ")"
  | .binary left op right => "(" ++ left.text ++ " " ++ op.literal ++ " " ++ right.text ++ ")"
  | .increment operand op => "(" ++ operand.text ++ op.literal ++ ")"
  | .assign target op value => target.text ++ " " ++ op.literal ++ " " ++ value.text
  | .parallel items => Text.joinWith ", " (Node.texts items)
  | .group opener closer _ body => opener.literal ++ (Node.text? body).getD "" ++ closer.literal
  | .block body => body.text
  | .list _ elements => "[" ++ Text.joinWith ", " (Node.texts elements) ++ "]"
  | .pair key _ value => key.text ++ ": " ++ value.text
  | .dict _ pairs => "\x7b" ++ Text.joinWith ", " (Node.texts pairs) ++ "\x7d"
  | .arrow left _ right => "(" ++ left.text ++ " -> " ++ right.text ++ ")"
  | .argument name value => name.name ++ "=" ++ value.text
  | .call callee _ _ args => callee.text ++ "(" ++ Text.joinWith ", " (Node.texts args) ++ ")"
  | .index left _ subscript => "(" ++ left.text ++ "[" ++ subscript.text ++ "])"
  | .member object _ name => object.text ++ "." ++ name.name
  | .varDef _ names values =>
    "var " ++ Text.joinWith ", " (definitionTexts names (Node.optionTexts values))
  | .funDecl _ name params labels =>
    "fun " ++ name.name ++ "(" ++ Text.joinWith ", " (Param.texts params) ++ ")" ++
      Label.suffix labels
  | .funDef _ name params labels body _ =>
    "fun " ++ name.name ++ "(" ++ Text.joinWith ", " (Param.texts params) ++ ")" ++
      Label.suffix labels ++ " " ++ body.text
  | .lambda _ params labels body =>
    "fun (" ++ Text.joinWith ", " (Param.texts params) ++ ")" ++ Label.suffix labels ++ " " ++
      body.text
  | .constructor _ _ params labels body =>
    "init(" ++ Text.joinWith ", " (Param.texts params) ++ ")" ++ Label.suffix labels ++ " " ++
      body.text
  | .classDecl _ name => "class " ++ name.text
  | .classDef _ name body => "class " ++ name.text ++ " " ++ body.text
  | .branch tests none => Text.joinWith " " (Condition.texts tests)
  | .branch tests (some otherwise) =>
    Text.joinWith " " (Condition.texts tests ++ ["else " ++ otherwise.text])
  | .whileLoop _ test body => "while (" ++ test.text ++ ") " ++ body.text
  | .forLoop _ init test update body =>
    "for (" ++ init.text ++ "; " ++ test.text ++ "; " ++ update.text ++ ") " ++ body.text
  | .pass _ => "pass"
  | .breakOut _ => "break"
  | .continueOn _ => "continue"
  | .returnFrom _ none => "return"
  | .returnFrom _ (some value) => "return " ++ value.text
  | .importFile _ path => "import " ++ Text.quote path.literal

/-- The text of a node that may be missing. -/
def Node.text? : Option Node → Option String
  | none => none
  | some n => some n.text

def Node.texts : List Node → List String
  | [] => []
  | n :: ns => n.text :: Node.texts ns

/-- The texts of several nodes that may be missing. -/
def Node.optionTexts : List (Option Node) → List (Option String)
  | [] => []
  | n :: ns => Node.text? n :: Node.optionTexts ns

/-- The text of a block, on one line. -/
def Block.text : Block → String
  | .mk _ _ [] => "\x7b\x7d"
  | .mk _ _ items => "\x7b " ++ Text.joinWith "; " (Node.texts items) ++ " \x7d"

def Param.text : Param → String
  | .mk name .keyword value => name.text ++ " = " ++ (Node.text? value).getD ""
  | .mk name .restPositional _ => "*" ++ name.text
  | .mk name .restKeyword _ => "**" ++ name.text
  | .mk name .positional _ => name.text

/-- The texts of several parameters. -/
def Param.texts : List Param → List String
  | [] => []
  | p :: ps => p.text :: Param.texts ps

/-- The text of a test with its block. -/
def Condition.text : Condition → String
  | .mk keyword test body => keyword.literal ++ " (" ++ test.text ++ ") " ++ body.text

/-- The texts of several tests. -/
def Condition.texts : List Condition → List String
  | [] => []
  | c :: cs => c.text :: Condition.texts cs
end

/-- The text of a program, one line for each item. -/
def Program.text (p : Program) : String := Text.joinWith "\n" (Node.texts p.body)

end Frontend
