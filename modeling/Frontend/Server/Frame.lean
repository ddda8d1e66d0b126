import Frontend.Text.Letter

/-!
# Frames

Messages travel over a stream of bytes. In front of every message stand header lines, one of which
tells the length of the message, and a blank line.
-/

namespace Frontend

/-- A piece of a stream. -/
abbrev Bytes := List UInt8

def Bytes.ofText (s : String) : Bytes := s.toUTF8.toList

namespace Frame

/-- The byte that ends a line. -/
def newline : UInt8 := 10

/-- The first line of a stream without its end, and what follows; nothing when no line has ended. -/
def line? (bytes : Bytes) : Option (Bytes × Bytes) :=
  match bytes.dropWhile (· != newline) with
  | [] => none
  | _ :: rest => some (bytes.takeWhile (· != newline), rest)

theorem length_lt_of_line? {bytes line rest : Bytes} (h : line? bytes = some (line, rest)) :
    rest.length < bytes.length := by
  have hle : (bytes.dropWhile (· != newline)).length ≤ bytes.length :=
    (List.dropWhile_suffix _).length_le
  unfold line? at h
  split at h
  · simp at h
  · rename_i tail heq
    simp only [Option.some.injEq, Prod.mk.injEq] at h
    obtain ⟨-, rfl⟩ := h
    rw [heq] at hle
    simp only [List.length_cons] at hle
    omega

/-- The text of a header line without white space around it. -/
def lineText (line : Bytes) : String := Text.trim (Source.ofBytes line).shown

/-- The name of the header that tells the length. -/
def lengthName : String := "Content-Length:"

/-- A whole number of 64 bits in decimal, with or without a sign. -/
def integer? (s : String) : Option Int :=
  let (negative, digits) := match s.toList with
    | '-' :: ds => (true, ds)
    | '+' :: ds => (false, ds)
    | ds => (false, ds)
  if digits.isEmpty || !digits.all Text.isDigit then none
  else
    let n : Int := Text.digitsValue digits
    let n := if negative then -n else n
    if -9223372036854775808 ≤ n ∧ n ≤ 9223372036854775807 then some n else none

/-- What a header line says. -/
inductive HeaderLine where
  | blank
  | length (n : Int)
  /-- A length that is no number. -/
  | wrong
  | other
  deriving DecidableEq, Repr

def headerLine (line : Bytes) : HeaderLine :=
  let text := lineText line
  if text.isEmpty then .blank
  else
    match Text.dropHead? text lengthName with
    | none => .other
    | some value =>
      match integer? (Text.trim value) with
      | none => .wrong
      | some n => .length n

/-- What a header leads to. -/
inductive Header where
  /-- The announced length, zero if there was none, and what follows the blank line. -/
  | complete (length : Int) (rest : Bytes)
  /-- A length that is no number, and what follows its line. -/
  | faulty (rest : Bytes)
  /-- The stream stops inside of the header. -/
  | starved
  deriving DecidableEq, Repr

/-- Reads header lines up to a blank one; of several lengths the last one counts. `say` tells what a
line says. -/
def headerBy (say : Bytes → HeaderLine) (length : Int) (bytes : Bytes) : Header :=
  match h : line? bytes with
  | none => .starved
  | some (line, rest) =>
    have := length_lt_of_line? h
    match say line with
    | .blank => .complete length rest
    | .wrong => .faulty rest
    | .length n => headerBy say n rest
    | .other => headerBy say length rest
termination_by bytes.length

/-- Reads the header lines of a frame. -/
def header (bytes : Bytes) : Header := headerBy headerLine 0 bytes

/-- What reading a frame leads to. -/
inductive Reading where
  | message (body rest : Bytes)
  /-- A header without a usable length, and where reading goes on. -/
  | faulty (rest : Bytes)
  /-- The stream stops before the frame is complete; `inside` says whether a part of the message was
  there already. -/
  | starved (inside : Bool)
  /-- A length that there can be no room for ends everything. -/
  | abort
  deriving DecidableEq, Repr

/-- The longest message that there can be room for. -/
def maxLength : Int := 281474976710656

/-- Reads the first frame of a stream. -/
def read (bytes : Bytes) : Reading :=
  match header bytes with
  | .starved => .starved false
  | .faulty rest => .faulty rest
  | .complete length rest =>
    if length = 0 then .faulty rest
    else if length < 0 ∨ maxLength < length then .abort
    else if rest.length < length.toNat then .starved (!rest.isEmpty)
    else .message (rest.take length.toNat) (rest.drop length.toNat)

def write (body : Bytes) : Bytes :=
  Bytes.ofText (lengthName ++ " " ++ Text.ofNat body.length ++ "\r\n\r\n") ++ body

end Frame

end Frontend
