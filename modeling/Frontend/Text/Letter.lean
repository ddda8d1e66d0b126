import Frontend.Number
import Frontend.Text.Basic

/-!
# Letters of a source text

A source text arrives as bytes. It is read as a list of *letters*: each letter is a character, or a
single stray byte that belongs to no character. Every letter knows how many bytes it stands for, so
byte offsets and character columns can both be counted on the same list.
-/

namespace Frontend

/-- One letter of a source text. -/
inductive Letter where
  /-- A decoded character. -/
  | char (c : Char)
  /-- A byte that is part of no well-formed character. -/
  | stray (b : UInt8)
  deriving DecidableEq, Repr

/-- The character shown for text that could not be decoded. -/
def replacementChar : Char := Char.ofNat 0xFFFD

namespace Letter

/-- How many bytes the letter occupies. -/
def width : Letter → Nat
  | char c => c.utf8Size
  | stray _ => 1

/-- The character that stands for the letter in messages: a stray byte shows as the replacement
character. -/
def shown : Letter → Char
  | char c => c
  | stray _ => replacementChar

/-- Whether the letter is the given character. -/
def is (l : Letter) (c : Char) : Bool := l == .char c

@[simp] theorem width_char (c : Char) : (char c).width = c.utf8Size := rfl

@[simp] theorem width_stray (b : UInt8) : (stray b).width = 1 := rfl

theorem width_pos (l : Letter) : 0 < l.width := by
  cases l with
  | char c => exact Char.utf8Size_pos c
  | stray b => exact Nat.one_pos

end Letter

/-- A source text, letter by letter. -/
abbrev Source := List Letter

namespace Source

/-- A well-formed string as a source text. -/
def ofString (s : String) : Source := s.toList.map .char

def shown (src : Source) : String := String.ofList (src.map Letter.shown)

def byteSize (src : Source) : Nat := Number.total (src.map Letter.width)

@[simp] theorem byteSize_nil : byteSize [] = 0 := rfl

@[simp] theorem byteSize_cons (l : Letter) (src : Source) :
    byteSize (l :: src) = l.width + byteSize src := by
  simp [byteSize]

/-- Whether `b` may follow the first byte of a longer character. -/
def isTail (b : UInt8) : Bool := 0x80 ≤ b && b ≤ 0xBF

/-- The bits that a continuation byte carries. -/
def tailBits (b : UInt8) : Nat := b.toNat % 64

/-- Decodes the character at the head of a byte sequence, with the number of bytes that follow its
first one. Overlong forms, surrogates and values beyond the last code point are no characters. -/
def decodeHead (b : UInt8) (rest : List UInt8) : Option (Char × Nat) :=
  if b < 0x80 then some (Char.ofNat b.toNat, 0)
  else if 0xC2 ≤ b && b ≤ 0xDF then
    match rest with
    | c :: _ => if isTail c then some (Char.ofNat ((b.toNat % 32) * 64 + tailBits c), 1) else none
    | [] => none
  else if 0xE0 ≤ b && b ≤ 0xEF then
    match rest with
    | c :: d :: _ =>
      let low : UInt8 := if b == 0xE0 then 0xA0 else 0x80
      let high : UInt8 := if b == 0xED then 0x9F else 0xBF
      if low ≤ c && c ≤ high && isTail d then
        some (Char.ofNat ((b.toNat % 16) * 4096 + tailBits c * 64 + tailBits d), 2)
      else none
    | _ => none
  else if 0xF0 ≤ b && b ≤ 0xF4 then
    match rest with
    | c :: d :: e :: _ =>
      let low : UInt8 := if b == 0xF0 then 0x90 else 0x80
      let high : UInt8 := if b == 0xF4 then 0x8F else 0xBF
      if low ≤ c && c ≤ high && isTail d && isTail e then
        some (Char.ofNat
          ((b.toNat % 8) * 262144 + tailBits c * 4096 + tailBits d * 64 + tailBits e), 3)
      else none
    | _ => none
  else none

/-- Reads bytes as letters; a byte that starts no character is a stray letter of its own. -/
def ofBytes : List UInt8 → Source
  | [] => []
  | b :: rest =>
    match decodeHead b rest with
    | some (c, extra) => .char c :: ofBytes (rest.drop extra)
    | none => .stray b :: ofBytes rest
termination_by bytes => bytes.length
decreasing_by
  · simp only [List.length_drop, List.length_cons]; omega
  · simp

/-- The lines of a text, without their newline characters. There is always at least one. -/
def lines (src : Source) : List Source := Text.splitAt (·.is '\n') src

/-- Drops the carriage returns at the end of a line. -/
def dropReturns (line : Source) : Source :=
  (line.reverse.dropWhile (·.is '\r')).reverse

/-- The line with the given number, counted from 1, without trailing carriage returns; empty when
there is no such line. -/
def lineAt (src : Source) (n : Int) : String :=
  if n ≤ 0 then ""
  else match src.lines[n.toNat - 1]? with
    | some line => shown (dropReturns line)
    | none => ""

end Source

end Frontend
