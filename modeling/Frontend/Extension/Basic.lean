import Frontend.Builtin.Basic

/-!
# Extensions

An extension adds built-in functions from a library. A library is opened, asked to load, asked for its
functions, and in the end unloaded and closed. Everything that is asked of a library is an event, so
that what happens to it can be followed from its opening to its closing.
-/

namespace Frontend

/-- What is asked of a library. -/
inductive LibraryEvent where
  | load
  | functions
  | unload
  | close
  deriving DecidableEq, Repr

/-- A function in the table of a library, as the library tells it. -/
structure ExportedFunction where
  name : String
  /-- Whether there is a function at all behind the name. -/
  present : Bool := true
  pure : Bool := false
  minArgs : Int := 0
  /-- The most arguments; minus one stands for any number. -/
  maxArgs : Int := -1
  /-- The name of the type of the value; empty for any type. -/
  result : String := ""
  generator : Generator

/-- A library that was opened: how it answers when it is asked. -/
structure Library where
  /-- Whether it agrees to be loaded. -/
  accepts : Bool := true
  functions : List ExportedFunction := []
  /-- What goes wrong when it is closed; empty when nothing does. -/
  closeError : String := ""

/-- Why a library cannot be used. -/
inductive LibraryFault where
  | notOpened (cause : String)
  | refused
  | nameless (index : Nat)
  | absent (name : String)
  | twice (name : String)
  | range (name : String) (minArgs maxArgs : Int)
  | unregistered (cause : RegistryError)
  deriving DecidableEq, Repr

/-- The words for a library that cannot be used. -/
def LibraryFault.text : LibraryFault → String
  | notOpened cause => cause
  | refused => "kite_ext_load returned false"
  | nameless index => "function #" ++ Text.ofNat index ++ " has no name"
  | absent name => "function '" ++ name ++ "' has a null pointer"
  | twice name => "function '" ++ name ++ "' is exported twice"
  | range name least most => "function '" ++ name ++ "' has an invalid argument range " ++
      Text.ofInt least ++ ".." ++ Text.ofInt most
  | unregistered cause => cause.text

/-- The diagnostic for a library that cannot be used. -/
def LibraryFault.diagnostic (path : String) (f : LibraryFault) : Diagnostic :=
  (Diagnostic.mkAt .extension Code.extensionLoad {}
    (.entry .extensionLoad [.text path, .text f.text])).withHint [.entry .hintExtensionAbi []]

/-- Texts that go to a library and come from it end at the first zero character. -/
def cutAtZero (s : String) : String := String.ofList (s.toList.takeWhile (· != '\x00'))

namespace ExportedFunction

/-- The number that stands for any number of arguments. -/
def anyNumber : Int := -1

/-- What is wrong with a function of a table, given the names before it. -/
def fault? (f : ExportedFunction) (index : Nat) (seen : List String) : Option LibraryFault :=
  let name := cutAtZero f.name
  if name.isEmpty then some (.nameless index)
  else if !f.present then some (.absent name)
  else if seen.contains name then some (.twice name)
  else if f.minArgs < 0 || (f.maxArgs != anyNumber && f.maxArgs < f.minArgs) then
    some (.range name f.minArgs f.maxArgs)
  else none

/-- The built-in function that a function of a table becomes. -/
def builtin (f : ExportedFunction) : Builtin :=
  let result := cutAtZero f.result
  { name := cutAtZero f.name
    pure := f.pure
    minArgs := f.minArgs
    maxArgs := if f.maxArgs = anyNumber then none else some f.maxArgs
    result := if result.isEmpty then "any" else result
    generator := some f.generator }

/-- Takes in a table of functions from the one with an index on. The first fault counts. -/
def builtins : Nat → List String → List ExportedFunction → Except LibraryFault (List Builtin)
  | _, _, [] => .ok []
  | index, seen, f :: rest =>
    match f.fault? index seen with
    | some fault => .error fault
    | none => (builtins (index + 1) (cutAtZero f.name :: seen) rest).map (f.builtin :: ·)

end ExportedFunction

/-- What a library writes into a buffer when it asks for the name of a temporary. The name needs room
for a zero character behind it; a name without room is lost. Without a buffer no name is taken. -/
def Supply.tempInto (s : Supply) (capacity : Option Nat) : String × Supply :=
  match capacity with
  | none => ("", s)
  | some room =>
    let (name, s) := s.temp
    (if name.utf8ByteSize + 1 ≤ room then name else "", s)

/-- A library event with the number of the opening that it belongs to. -/
abbrev LibraryTrace := List (Nat × LibraryEvent)

/-- An extension in use. -/
structure Extension where
  path : String
  /-- Which opening of a library this is. -/
  handle : Nat
  library : Library
  entries : List Builtin
  isOpen : Bool := true

namespace Library

/-- Closes a library: what goes wrong. -/
def closing (l : Library) : List Refusal :=
  if l.closeError.isEmpty then [] else [.plain (.text l.closeError)]

end Library

namespace Extension

/-- Puts a library to use: loads it and takes in its functions. A library that cannot be used is
closed again, and unloaded before that if it had been loaded. -/
def attach (handle : Nat) (path : String) (l : Library) :
    Except (List Refusal) Extension × LibraryTrace :=
  let failed := fun (f : LibraryFault) => Except.error (.diagnostic (f.diagnostic path) :: l.closing)
  if !l.accepts then (failed .refused, [(handle, .load), (handle, .close)])
  else
    match ExportedFunction.builtins 0 [] l.functions with
    | .error f =>
      (failed f, [(handle, .load), (handle, .functions), (handle, .unload), (handle, .close)])
    | .ok entries =>
      (.ok { path, handle, library := l, entries }, [(handle, .load), (handle, .functions)])

/-- Adds the functions of an extension to a registry. Names that are taken are refused one by one. -/
def register (e : Extension) (r : Registry) : List Refusal × Registry :=
  e.entries.foldl (fun (faults, r) entry =>
    match r.register entry with
    | .ok r => (faults, r)
    | .error cause =>
      (faults ++ [.diagnostic ((LibraryFault.unregistered cause).diagnostic e.path)], r)) ([], r)

/-- Ends the use of an extension. Doing it again does nothing. -/
def close (e : Extension) : Extension × List Refusal × LibraryTrace :=
  if e.isOpen then
    ({ e with isOpen := false }, e.library.closing, [(e.handle, .unload), (e.handle, .close)])
  else (e, [], [])

end Extension

/-- Extensions in use, in the order of their loading, and a registry with their functions. -/
structure ExtensionSet where
  extensions : List Extension := []
  registry : Registry := .standard

namespace ExtensionSet

/-- Closes extensions one after another. -/
def closeAll : List Extension → List Refusal × LibraryTrace
  | [] => ([], [])
  | e :: rest =>
    let (_, faults, trace) := e.close
    let (more, later) := closeAll rest
    (faults ++ more, trace ++ later)

/-- Closes all extensions, the last one first. -/
def close (s : ExtensionSet) : ExtensionSet × List Refusal × LibraryTrace :=
  let (faults, trace) := closeAll s.extensions.reverse
  ({ s with extensions := [] }, faults, trace)

/-- Loads more libraries into a set. The first failure ends it, and then everything is closed. -/
def loadMore (opening : String → Except String Library) :
    Nat → ExtensionSet → List String → Except (List Refusal) ExtensionSet × LibraryTrace
  | _, s, [] => (.ok s, [])
  | handle, s, path :: rest =>
    let failed := fun (s : ExtensionSet) (causes : List Refusal) (trace : LibraryTrace) =>
      let (_, faults, closing) := s.close
      (Except.error (causes ++ faults), trace ++ closing)
    match opening path with
    | .error cause =>
      failed s [.diagnostic ((LibraryFault.notOpened cause).diagnostic path)] []
    | .ok l =>
      match Extension.attach handle path l with
      | (.error causes, trace) => failed s causes trace
      | (.ok e, trace) =>
        let (faults, registry) := e.register s.registry
        let s : ExtensionSet := { extensions := s.extensions ++ [e], registry }
        if !faults.isEmpty then failed s faults trace
        else
          let (r, later) := loadMore opening (handle + 1) s rest
          (r, trace ++ later)

/-- Loads libraries one after another on top of a registry. -/
def load (opening : String → Except String Library) (base : Registry) (paths : List String) :
    Except (List Refusal) ExtensionSet × LibraryTrace :=
  loadMore opening 0 { registry := base } paths

end ExtensionSet

end Frontend
