import Frontend.Instruction.Basic

/-!
# Reading code

Reads RA text back into instructions. Blank lines and lines that start with a semicolon are skipped.
`checkFrames` tests that every opened frame is closed once.
-/

namespace Frontend

/-- An instruction with the number of its line. -/
structure PlacedInstruction where
  instr : Instruction
  line : Nat
  deriving DecidableEq, Repr, Inhabited

/-- Why RA text cannot be read. -/
inductive CodeError where
  | unknownOpcode (line : Nat) (name : String)
  | unterminatedString (line : Nat)
  deriving DecidableEq, Repr

/-- The words for text that cannot be read. -/
def CodeError.text : CodeError → String
  | unknownOpcode line name =>
    "line " ++ Text.ofNat line ++ ": unknown opcode " ++ Text.quote name
  | unterminatedString line => "line " ++ Text.ofNat line ++ ": unterminated string operand"

/-- Why frames do not match. -/
inductive FrameError where
  | strayEnd (line : Nat)
  | neverClosed (line : Nat) (op : Opcode)
  deriving DecidableEq, Repr

/-- The words for frames that do not match. -/
def FrameError.text : FrameError → String
  | strayEnd line => "line " ++ Text.ofNat line ++ ": END without an open scope"
  | neverClosed line op => "line " ++ Text.ofNat line ++ ": " ++ op.name ++ " is never closed"

namespace Code

/-- Where an operand reader stands. -/
structure OperandState where
  quoted : Bool := false
  escaped : Bool := false

/-- How one character changes an operand reader, and whether it separates operands. -/
def OperandState.step (s : OperandState) (c : Char) : OperandState × Bool :=
  if s.escaped then ({ s with escaped := false }, false)
  else if s.quoted && c == '\\' then ({ s with escaped := true }, false)
  else if c == '\x22' then ({ s with quoted := !s.quoted }, false)
  else (s, c == ',' && !s.quoted)

/-- Cuts operands at commas outside of strings; `current` holds the operand being read, last
character first. Without a closing quote there is no result. -/
def splitOperands : OperandState → List Char → List Char → Option (List String)
  | s, current, [] =>
    if s.quoted then none else some [String.ofList (Text.trimList current.reverse)]
  | s, current, c :: rest =>
    let (s, separates) := s.step c
    if separates then
      (splitOperands s [] rest).map (String.ofList (Text.trimList current.reverse) :: ·)
    else splitOperands s (c :: current) rest

/-- Reads one line; blank lines and annotations give nothing. -/
def readLine (number : Nat) (raw : String) : Except CodeError (Option PlacedInstruction) :=
  let line := Text.trimList raw.toList
  match line with
  | [] => .ok none
  | ';' :: _ => .ok none
  | _ =>
    let name := line.takeWhile (· != ':')
    match Opcode.ofName? (Text.trim (String.ofList name)) with
    | none => .error (.unknownOpcode number (String.ofList name))
    | some op =>
      match line.dropWhile (· != ':') with
      | [] => .ok (some ⟨{ op }, number⟩)
      | _ :: rest =>
        match splitOperands {} [] rest with
        | some args => .ok (some ⟨{ op, args }, number⟩)
        | none => .error (.unterminatedString number)

def readLines : Nat → List String → Except CodeError (List PlacedInstruction)
  | _, [] => .ok []
  | number, raw :: rest => do
    match ← readLine number raw with
    | some i => return i :: (← readLines (number + 1) rest)
    | none => readLines (number + 1) rest

def read (text : String) : Except CodeError (List PlacedInstruction) := readLines 1 (Text.lines text)

/-- Goes through instructions with the frames that are open, innermost first. -/
def checkFrom : List PlacedInstruction → List PlacedInstruction → Except FrameError Unit
  | [], [] => .ok ()
  | frame :: _, [] => .error (.neverClosed frame.line frame.instr.op)
  | frames, i :: rest =>
    if i.instr.op.opensFrame then checkFrom (i :: frames) rest
    else if i.instr.op == .finish then
      match frames with
      | [] => .error (.strayEnd i.line)
      | _ :: frames => checkFrom frames rest
    else checkFrom frames rest

/-- Tests that every frame is closed exactly once. -/
def checkFrames (is : List PlacedInstruction) : Except FrameError Unit := checkFrom [] is

end Code

end Frontend
