import Frontend.Digest
import Frontend.File.Tree
import Frontend.Json.Read
import Frontend.Json.Write
import Frontend.Text.Letter

/-!
# Moments

A moment is a number of nanoseconds since the start of the year 1, in the calendar that counts leap
years evenly back to then, together with the clock it was read from: how many seconds that clock is
ahead. Its text has a date, a time and an offset, as in `2024-02-29T12:30:00.5+01:00`.
-/

namespace Frontend

/-- A moment as some clock shows it. -/
structure Moment where
  /-- Nanoseconds since the start of the year 1. -/
  instant : Int := 0
  /-- How many seconds the clock is ahead. -/
  offset : Int := 0
  deriving DecidableEq, Repr, Inhabited

namespace Moment

/-- The nanoseconds of a second. -/
def second : Int := 1000000000

/-- The seconds of a day. -/
def day : Int := 86400

/-- The moment one nanosecond later. -/
def next (t : Moment) : Moment := { t with instant := t.instant + 1 }

def later (s t : Moment) : Moment := if s.instant < t.instant then t else s

/-- The year, month and day of a day, counted from the first of the year 1. The count goes over years
that start in March, so that a leap day is the last of its year. -/
def date (days : Int) : Int × Nat × Nat :=
  let z := days + 306
  let inEra := (z % 146097).toNat
  let yearOfEra := (inEra - inEra / 1460 + inEra / 36524 - inEra / 146096) / 365
  let dayOfYear := inEra - (365 * yearOfEra + yearOfEra / 4 - yearOfEra / 100)
  let m := (5 * dayOfYear + 2) / 153
  let month := if m < 10 then m + 3 else m - 9
  let year := yearOfEra + z / 146097 * 400 + (if month ≤ 2 then 1 else 0)
  (year, month, dayOfYear - (153 * m + 2) / 5 + 1)

def isLeap (year : Nat) : Bool := year % 4 == 0 && (year % 100 != 0 || year % 400 == 0)

def daysIn (year month : Nat) : Nat :=
  if month == 2 then (if isLeap year then 29 else 28)
  else if [4, 6, 9, 11].contains month then 30 else 31

/-- The days from the first of the year 1 to a date. -/
def daysBefore (year month day : Nat) : Int :=
  let y : Int := year - 1
  365 * y + y / 4 - y / 100 + y / 400 +
    Number.total ((List.range (month - 1)).map fun m => daysIn year (m + 1)) + (day - 1)

/-- A number with leading zeros. -/
def padded (width n : Nat) : String :=
  let s := Text.ofNat n
  Text.run '0' (width - s.length) ++ s

/-- The part of a second, without zeros at its end. -/
def fraction (nanos : Nat) : String :=
  if nanos = 0 then ""
  else "." ++ String.ofList (Text.dropEndWhile (· == '0') (padded 9 nanos).toList)

def offsetText (offset : Int) : String :=
  if offset = 0 then "Z"
  else
    let minutes := offset.natAbs / 60
    (if offset < 0 then "-" else "+") ++ padded 2 (minutes / 60) ++ ":" ++ padded 2 (minutes % 60)

/-- The text of a moment. There is none for a clock that is a day or more ahead or behind. -/
def text? (t : Moment) : Option String :=
  if day ≤ t.offset.natAbs then none
  else
    let shown := t.instant + t.offset * second
    let seconds := shown / second
    let (year, month, dayOfMonth) := date (seconds / day)
    let s := (seconds % day).toNat
    some (padded 4 year.toNat ++ "-" ++ padded 2 month ++ "-" ++ padded 2 dayOfMonth ++ "T" ++
      padded 2 (s / 3600) ++ ":" ++ padded 2 (s / 60 % 60) ++ ":" ++ padded 2 (s % 60) ++
      fraction (shown % second).toNat ++ offsetText t.offset)

/-- A number of exactly `width` digits. -/
def number? (width : Nat) (cs : List Char) : Option (Nat × List Char) :=
  let ds := cs.take width
  if ds.length = width ∧ ds.all Text.isDigit then some (Text.digitsValue ds, cs.drop width) else none

/-- A number of one or two digits. -/
def hour? (cs : List Char) : Option (Nat × List Char) := (number? 2 cs).or (number? 1 cs)

/-- Takes one given character. -/
def mark? (c : Char) : List Char → Option (List Char)
  | d :: rest => if d == c then some rest else none
  | [] => none

/-- The nanoseconds behind a point or a comma, if there is one; digits beyond the ninth do not
count. -/
def readFraction? (cs : List Char) : Option (Nat × List Char) :=
  match cs with
  | c :: rest =>
    if c == '.' || c == ',' then
      let ds := rest.takeWhile Text.isDigit
      if ds.isEmpty then none
      else
        let nanos := Text.digitsValue ((ds ++ List.replicate 9 '0').take 9)
        some (nanos, rest.dropWhile Text.isDigit)
    else some (0, cs)
  | [] => some (0, [])

/-- The seconds of an offset at the end of a text. -/
def readOffset? : List Char → Option Int
  | ['Z'] => some 0
  | sign :: rest => do
    let (hours, rest) ← number? 2 rest
    let (minutes, rest) ← number? 2 (← mark? ':' rest)
    let seconds : Int := hours * 3600 + minutes * 60
    if !rest.isEmpty || 24 < hours || 60 < minutes then none
    else if sign == '+' then some seconds
    else if sign == '-' then some (-seconds)
    else none
  | [] => none

/-- The moment that a text names. An hour may have one digit, and an offset may reach up to and
including a whole day and hour. -/
def ofText? (s : String) : Option Moment := do
  let (year, cs) ← number? 4 s.toList
  let (month, cs) ← number? 2 (← mark? '-' cs)
  let (dayOfMonth, cs) ← number? 2 (← mark? '-' cs)
  let (hour, cs) ← hour? (← mark? 'T' cs)
  let (minute, cs) ← number? 2 (← mark? ':' cs)
  let (sec, cs) ← number? 2 (← mark? ':' cs)
  let (nanos, cs) ← readFraction? cs
  let offset ← readOffset? cs
  if month = 0 ∨ 12 < month ∨ dayOfMonth = 0 ∨ daysIn year month < dayOfMonth ∨ 24 ≤ hour ∨
      60 ≤ minute ∨ 60 ≤ sec then none
  else
    let seconds : Int := daysBefore year month dayOfMonth * day + hour * 3600 + minute * 60 + sec
    some { instant := (seconds - offset) * second + nanos, offset }

end Moment

/-! ## The cache of compiled code

Keeps the code of compiled programs in a directory, one file for every entry file, with an index
beside them. An entry counts only for the key it was stored under and while every file that it depends
on is as it was. When there are too many entries, or they take too much room, those that were not used
for the longest time go first.

Time is counted by the cache itself: whatever notes a time takes the next tick of its clock, which
starts on a fixed day and goes on from the last of that day's times in the index. Sizes and counts are
words of 64 bits, which wrap around. -/

/-- What the index knows of one entry file. -/
structure CacheEntry where
  /-- The entry file, as the entry itself names it. -/
  source : String
  key : String
  /-- The file that holds the code. -/
  file : String
  size : Int
  /-- The files that the code depends on, with the digests of their texts. -/
  dependencies : List (String × String) := []
  compiled : Moment := {}
  accessed : Moment := {}
  count : Int := 1
  deriving Repr, DecidableEq, Inhabited

/-- An open cache. -/
structure Cache where
  dir : String
  /-- The entries by the path of their entry file. -/
  entries : List (String × CacheEntry) := []
  /-- The entry files that the index names without an entry. -/
  blanks : List String := []
  totalSize : Int := 0
  updated : Moment := {}
  hits : Nat := 0
  misses : Nat := 0
  clock : Moment
  deriving Repr, DecidableEq, Inhabited

/-- Why a cache could not be changed. -/
inductive CacheError where
  /-- A file could not be read or written. -/
  | file (e : FileError)
  /-- The index holds a moment that has no text. -/
  | moment
  deriving DecidableEq, Repr, Inhabited

namespace Cache

/-- The day on which the clock of a cache starts. -/
def firstDay : Moment := { instant := 739616 * Moment.day * Moment.second }

/-- Whether a moment may come from the clock of a cache. -/
def isOwn (t : Moment) : Bool :=
  firstDay.instant ≤ t.instant && t.instant < firstDay.instant + Moment.day * Moment.second

/-- How many entries a cache holds at most. -/
def maxEntries : Nat := 1000

/-- How many bytes of code a cache holds at most. -/
def maxSize : Int := 64 * 1024 * 1024

def version : String := "1"

def codeExtension : String := ".ra"

def indexPath (c : Cache) : String := Path.join [c.dir, "index.json"]

/-- The index entry of an entry file. -/
def find? (c : Cache) (path : String) : Option CacheEntry := c.entries.lookup path

/-- How many entries the index has. -/
def count (c : Cache) : Nat := c.entries.length + c.blanks.length

/-- The entry as a value of the index. -/
def entryJson? (e : CacheEntry) : Option Json := do
  return .obj [
    ("source_path", .str e.source), ("key", .str e.key), ("cache_file", .str e.file),
    ("size", .int e.size), ("dependencies", .obj (e.dependencies.map fun (p, h) => (p, .str h))),
    ("compiled_at", .str (← e.compiled.text?)), ("accessed_at", .str (← e.accessed.text?)),
    ("access_count", .int e.count)]

/-- The text of the index, if all of its moments have one. -/
def indexText? (c : Cache) : Option String := do
  let entries ← c.entries.mapM fun (p, e) => (entryJson? e).map fun j => (p, j)
  let entries := (entries ++ c.blanks.map (·, Json.null)).mergeSort fun a b => decide (a.1 ≤ b.1)
  return Json.pretty "" (.obj [
    ("version", .str version), ("entries", .obj entries), ("total_size", .int c.totalSize),
    ("updated_at", .str (← c.updated.text?))])

def moment? (j : Json) : Option Moment := j.plain?.bind Moment.ofText?

def momentShape : Shape := .leaf fun j => (moment? j).isSome

def entryShape : Shape := .record [
  ("source_path", .text), ("key", .text), ("cache_file", .text), ("size", .int64),
  ("dependencies", .table .text), ("compiled_at", momentShape), ("accessed_at", momentShape),
  ("access_count", .int64)]

def indexShape : Shape := .record [
  ("version", .text), ("entries", .table entryShape), ("total_size", .int64),
  ("updated_at", momentShape)]

def entryOf (layers : Layers) : CacheEntry where
  source := (layers.field "source_path").text
  key := (layers.field "key").text
  file := (layers.field "cache_file").text
  size := (layers.field "size").int
  dependencies := (layers.field "dependencies").entries.map fun (p, h) => (p, h.str?.getD "")
  compiled := (layers.field "compiled_at").last moment? {}
  accessed := (layers.field "accessed_at").last moment? {}
  count := (layers.field "access_count").int

/-- The cache that an index describes; nothing if the text is no index of this version. -/
def ofIndex? (dir text : String) : Option Cache := do
  let j ← (Json.read? text).filter indexShape.admits
  let layers : Layers := [j]
  if (layers.field "version").last Json.str? version != version then none
  else
    let listed := (layers.field "entries").entries
    let entries := (listed.filter (!·.2.isNull)).map fun (p, e) => (p, entryOf [e])
    let updated := (layers.field "updated_at").last moment? {}
    let times := (updated :: entries.map (·.2.accessed)).filter isOwn
    some {
      dir, entries, updated
      blanks := (listed.filter (·.2.isNull)).map Prod.fst
      totalSize := (layers.field "total_size").int
      clock := (times.foldl Moment.later firstDay).next }

/-- Removes a file, if it is there. -/
def drop (files : FileTree) (path : String) : FileTree := ((files.remove path).toOption).getD files

/-- Removes all files with code from a directory. -/
def dropCode (files : FileTree) (dir : String) : FileTree :=
  let names := ((files.list dir).toOption).getD []
  let paths := (names.filter (Path.extension · == codeExtension)).map fun n => Path.join [dir, n]
  (paths.filter files.isFile).foldl drop files

/-- Opens the cache in a directory, which is made if need be. An index that cannot be read counts for
nothing, and neither does the code beside it. -/
def openAt (files : FileTree) (dir : String) : Except DirError Cache × FileTree :=
  match files.makeDirs dir with
  | (.error e, files) => (.error e, files)
  | (.ok _, files) =>
    let fresh : Cache := { dir, clock := firstDay }
    match (files.read? fresh.indexPath).bind (ofIndex? dir) with
    | some c => (.ok c, files)
    | none => (.ok fresh, dropCode files dir)

/-- Writes the index. -/
def save (c : Cache) (files : FileTree) : Except CacheError FileTree :=
  match c.indexText? with
  | none => .error .moment
  | some text => (files.write c.indexPath text).mapError .file

/-- Forgets an entry and removes its code. -/
def removeEntry (c : Cache) (files : FileTree) (path : String) : Cache × FileTree :=
  match c.find? path with
  | none => (c, files)
  | some e =>
    ({ c with
        entries := c.entries.filter (·.1 != path)
        totalSize := Decimal.wrapWord (c.totalSize - e.size) }, drop files e.file)

/-- Whether a file that an entry depends on is not as it was. -/
def isStale (files : FileTree) (e : CacheEntry) : Bool :=
  e.dependencies.any fun (path, digest) => (files.read? path).map Digest.ofText != some digest

/-- The code of an entry, as far as it still counts for a key. -/
def current? (files : FileTree) (e : CacheEntry) (key : String) : Option String :=
  if e.key != key || isStale files e then none else files.read? e.file

def changeEntry (c : Cache) (path : String) (f : CacheEntry → CacheEntry) : Cache :=
  { c with entries := c.entries.map fun (p, e) => if p == path then (p, f e) else (p, e) }

/-- The code stored for an entry file under a key. An entry that does not count any more is removed. -/
def get (c : Cache) (files : FileTree) (path key : String) : Option String × Cache × FileTree :=
  match c.find? path with
  | none => (none, { c with misses := c.misses + 1 }, files)
  | some e =>
    match current? files e key with
    | none =>
      let (c, files) := c.removeEntry files path
      (none, { c with misses := c.misses + 1 }, files)
    | some text =>
      let c := c.changeEntry path fun e =>
        { e with accessed := c.clock, count := Decimal.wrapWord (e.count + 1) }
      (some text, { c with hits := c.hits + 1, clock := c.clock.next }, files)

/-- Whether a cache is within its limits. -/
def fits (c : Cache) : Bool := c.count ≤ maxEntries && c.totalSize ≤ maxSize

/-- Removes the given entries one after another until the cache is within its limits. -/
def evict : List String → Cache → FileTree → Cache × FileTree
  | [], c, files => (c, files)
  | path :: rest, c, files =>
    if c.fits then (c, files)
    else
      let (c, files) := c.removeEntry files path
      evict rest c files

/-- The entry files that the entries name, from the entry that was not used for the longest time to
the one used last. -/
def byAge (c : Cache) : List String :=
  (c.entries.mergeSort fun a b => decide (a.2.accessed.instant ≤ b.2.accessed.instant)).map
    (·.2.source)

/-- The file for code that is stored under a key: the first 32 bytes of the key name it. -/
def codeFile (c : Cache) (key : String) : String :=
  Path.join [c.dir, (Source.ofBytes (key.toUTF8.toList.take 32)).shown ++ codeExtension]

/-- The digests of the files that code depends on. The entry file itself is not among them. -/
def digests (files : FileTree) (path : String) (dependencies : List String) :
    Except FileError (List (String × String)) := do
  let found ← (dependencies.filter (· != path)).mapM fun p => do
    return (p, Digest.ofText (← files.read p))
  return found.foldl (fun known d => known.filter (·.1 != d.1) ++ [d]) []

/-- Stores the code of an entry file under a key. The cache changes also when this fails half way. -/
def put (c : Cache) (files : FileTree) (path key text : String) (dependencies : List String) :
    Except CacheError Unit × Cache × FileTree :=
  match digests files path dependencies with
  | .error e => (.error (.file e), c, files)
  | .ok hashes =>
    let (c, files) := c.removeEntry files path
    let file := c.codeFile key
    match files.write file text with
    | .error e => (.error (.file e), c, files)
    | .ok files =>
      let now := c.clock
      let entry : CacheEntry := {
        source := path, key, file, size := text.utf8ByteSize, dependencies := hashes, compiled := now
        accessed := now }
      let c := { c with
        entries := c.entries ++ [(path, entry)]
        totalSize := Decimal.wrapWord (c.totalSize + entry.size)
        updated := now
        clock := now.next }
      let (c, files) := evict c.byAge c files
      match c.save files with
      | .error e => (.error e, c, files)
      | .ok files => (.ok (), c, files)

/-- Writes the index and says how that went. -/
def flush (c : Cache) (files : FileTree) : Except CacheError Unit × Cache × FileTree :=
  match c.save files with
  | .error e => (.error e, c, files)
  | .ok files => (.ok (), c, files)

/-- Forgets an entry file. -/
def invalidate (c : Cache) (files : FileTree) (path : String) :
    Except CacheError Unit × Cache × FileTree :=
  let (c, files) := c.removeEntry files path
  c.flush files

/-- Forgets everything. -/
def clear (c : Cache) (files : FileTree) : Except CacheError Unit × Cache × FileTree :=
  let files := dropCode files c.dir
  flush { c with entries := [], blanks := [], totalSize := 0, updated := {} } files

end Cache

end Frontend
