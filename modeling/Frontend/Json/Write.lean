import Frontend.Json.Basic

/-!
# Writing JSON

Compact text, and text with one field or item a line.
-/

namespace Frontend.Json

/-- The written form of one character of a string. -/
def writeChar (c : Char) : List Char :=
  match c with
  | '\x22' => ['\\', '\x22']
  | '\\' => ['\\', '\\']
  | '\n' => ['\\', 'n']
  | '\r' => ['\\', 'r']
  | '\t' => ['\\', 't']
  | c => if c.toNat < 0x20 then '\\' :: 'u' :: Text.hex 4 c.toNat else [c]

/-- A string between double quotes. -/
def writeString (s : String) : String :=
  String.ofList ('\x22' :: (s.toList.flatMap writeChar ++ ['\x22']))

mutual
/-- The compact text of a value. -/
def write : Json → String
  | .null => "null"
  | .bool b => Text.ofBool b
  | .num literal => literal
  | .string s _ => writeString s
  | .arr items => "[" ++ Text.joinWith "," (writeItems items) ++ "]"
  | .obj fields => "\x7b" ++ Text.joinWith "," (writeFields fields) ++ "\x7d"

/-- The texts of several values. -/
def writeItems : List Json → List String
  | [] => []
  | j :: js => write j :: writeItems js

/-- The texts of several fields. -/
def writeFields : List (String × Json) → List String
  | [] => []
  | (name, j) :: fs => (writeString name ++ ":" ++ write j) :: writeFields fs
end

/-- Puts parts between brackets, each on a line of its own with an indent. -/
def spread (opener closer : String) (indent : String) (parts : List String) : String :=
  if parts.isEmpty then opener ++ closer
  else
    opener ++ "\n" ++ Text.joinWith ",\n" (parts.map (indent ++ "  " ++ ·)) ++ "\n" ++ indent ++ closer

mutual
/-- The text of a value over several lines, the inner ones indented by two more spaces. -/
def pretty (indent : String) : Json → String
  | .arr items => spread "[" "]" indent (prettyItems (indent ++ "  ") items)
  | .obj fields => spread "\x7b" "\x7d" indent (prettyFields (indent ++ "  ") fields)
  | j => write j

/-- The indented texts of several values. -/
def prettyItems (indent : String) : List Json → List String
  | [] => []
  | j :: js => pretty indent j :: prettyItems indent js

/-- The indented texts of several fields. -/
def prettyFields (indent : String) : List (String × Json) → List String
  | [] => []
  | (name, j) :: fs => (writeString name ++ ": " ++ pretty indent j) :: prettyFields indent fs
end

end Frontend.Json
