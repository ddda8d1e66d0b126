import Frontend.Server.Frame
import Frontend.Text.Quoted

/-!
# Document addresses

Editors name documents by addresses. A `file` address stands for a path of the file system; any other
address stands for itself. A `file` address has a host, which is not used, and a path, both of which
may hold bytes as hexadecimal escapes; what follows a question mark is left out.
-/

namespace Frontend.Address

/-- What is wrong with an address. -/
inductive Fault where
  | control
  /-- An escape that is not one, or that may not stand where it does. -/
  | escape (written : Bytes)
  | hostLetter (c : Char)
  | port (written : String)
  | openBracket
  | user
  deriving DecidableEq, Repr

/-- The words for what is wrong with an address. -/
def Fault.text : Fault → String
  | control => "net/url: invalid control character in URL"
  | escape written => "invalid URL escape " ++ Text.quoteSource (Source.ofBytes written)
  | hostLetter c => "invalid character " ++ Text.quote c.toString ++ " in host name"
  | port written => "invalid port " ++ Text.quote written ++ " after host"
  | openBracket => "missing ']' in host"
  | user => "net/url: invalid userinfo"

/-- The words for an address that cannot be taken apart. -/
def Fault.message (address : String) (f : Fault) : String :=
  "failed to parse request URI: parse " ++ Text.quote address ++ ": " ++ f.text

/-- The start of addresses that stand for files. -/
def fileScheme : String := "file://"

/-- The byte that starts an escape. -/
def percent : UInt8 := 37

/-- The byte that two hexadecimal digits stand for. -/
def hexByte? (c d : UInt8) : Option UInt8 := do
  let high ← Text.hexValue? (Char.ofNat c.toNat)
  let low ← Text.hexValue? (Char.ofNat d.toNat)
  return (high * 16 + low).toUInt8

/-- Reads the hexadecimal escapes of a part of an address. -/
def unescape : Bytes → Except Fault Bytes
  | [] => .ok []
  | b :: rest =>
    if b != percent then do return b :: (← unescape rest)
    else
      let bad := Fault.escape (b :: rest.take 2)
      match rest with
      | c :: d :: more =>
        match hexByte? c d with
        | some e => do return e :: (← unescape more)
        | none => .error bad
      | _ => .error bad

/-- The characters of ASCII that may stand in a host. -/
def isHostLetter (c : Char) : Bool := c.isAlphanum || "!$&'()*+,;=:[]<>\"-_.~".toList.contains c

/-- Whether a byte of a host may be written as an escape: one beyond ASCII, or the percent sign. In the
zone of a network address these are the percent sign, the space, and what may stand there anyway. -/
def mayEscape (zone : Bool) (b : UInt8) : Bool :=
  b == percent || (if zone then b == 32 || isHostLetter (Char.ofNat b.toNat) else 0x80 ≤ b)

/-- Checks the bytes of a host, or of the zone in one. -/
def checkHostBytes (zone : Bool) : Bytes → Except Fault Unit
  | [] => .ok ()
  | b :: rest =>
    if b == percent then
      let bad := Fault.escape (b :: rest.take 2)
      match rest with
      | c :: d :: more =>
        if (hexByte? c d).any (mayEscape zone) then checkHostBytes zone more else .error bad
      | _ => .error bad
    else
      let c := Char.ofNat b.toNat
      if b < 0x80 && !isHostLetter c then .error (.hostLetter c) else checkHostBytes zone rest

/-- What stands behind the last of a character; nothing if it does not occur. -/
def behindLast? (c : Char) (cs : List Char) : Option (List Char) :=
  if cs.contains c then some (cs.reverse.takeWhile (· != c)).reverse else none

/-- Checks what follows a host: nothing, or a colon and digits. -/
def checkPort : List Char → Except Fault Unit
  | [] => .ok ()
  | c :: digits =>
    if c == ':' && digits.all Text.isDigit then .ok ()
    else .error (.port (String.ofList (c :: digits)))

/-- The zone of a network address starts with an escaped percent sign: what stands before it, and the
zone. Without such a sign there is no zone. -/
def splitZone : List Char → List Char × List Char
  | [] => ([], [])
  | c :: rest =>
    if ['%', '2', '5'].isPrefixOf (c :: rest) then ([], c :: rest)
    else
      let (before, zone) := splitZone rest
      (c :: before, zone)

def checkHostPart (zone : Bool) (cs : List Char) : Except Fault Unit :=
  checkHostBytes zone (Bytes.ofText (String.ofList cs))

/-- Checks a host with its port. A network address stands between brackets and may have a zone. -/
def checkHost (cs : List Char) : Except Fault Unit := do
  if cs.head? == some '[' then
    match behindLast? ']' cs with
    | none => throw .openBracket
    | some port =>
      checkPort port
      let (before, zone) := splitZone (cs.take (cs.length - port.length - 1))
      if zone.isEmpty then checkHostPart false cs
      else
        checkHostPart false before
        checkHostPart true zone
        checkHostPart false (']' :: port)
  else
    match behindLast? ':' cs with
    | none => pure ()
    | some port => checkPort (':' :: port)
    checkHostPart false cs

/-- The characters that may stand in the name of a user. -/
def isUserLetter (c : Char) : Bool := c.isAlphanum || "-._:~!$&'()*+,;=%@".toList.contains c

/-- Checks the host of an address, and the user in front of it, whose password stands behind a
colon. -/
def checkAuthority (cs : List Char) : Except Fault Unit :=
  match behindLast? '@' cs with
  | none => checkHost cs
  | some host => do
    checkHost host
    let user := cs.take (cs.length - host.length - 1)
    if !user.all isUserLetter then throw .user
    let _ ← unescape (Bytes.ofText (String.ofList (user.takeWhile (· != ':'))))
    let _ ← unescape (Bytes.ofText (String.ofList (user.dropWhile (· != ':'))))

/-- Whether a character may not stand in an address. -/
def isControl (c : Char) : Bool := c.toNat < 0x20 || c.toNat == 0x7F

/-- Whether a byte is a letter in the eight-bit alphabet of western Europe. -/
def isLetterByte (b : UInt8) : Bool :=
  let c := Char.ofNat b.toNat
  c.isAlpha || b == 0xAA || b == 0xB5 || b == 0xBA || (0xC0 ≤ b && b != 0xD7 && b != 0xF7)

/-- A path without the slash in front of the letter of a drive. -/
def dropDriveSlash : Bytes → Bytes
  | slash :: letter :: colon :: more =>
    if slash == 47 && isLetterByte letter && colon == 58 && !more.isEmpty then
      letter :: colon :: more
    else slash :: letter :: colon :: more
  | bytes => bytes

/-- The path that an address stands for. -/
def path (address : String) : Except Fault String :=
  match Text.dropHead? address fileScheme with
  | none => .ok address
  | some rest => do
    if address.toList.any isControl then throw .control
    let plain := rest.toList.takeWhile (· != '?')
    checkAuthority (plain.takeWhile (· != '/'))
    let bytes ← unescape (Bytes.ofText (String.ofList (plain.dropWhile (· != '/'))))
    return (Source.ofBytes (dropDriveSlash bytes)).shown

end Frontend.Address
