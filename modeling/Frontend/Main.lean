import Frontend.Command.Run

/-!
# The program

Runs a command line on the files around it: takes a picture of them, runs the command on the picture,
and carries over what has changed.
-/

namespace Frontend.Main

/-- Takes what stands under an absolute path into a tree. What cannot be read as text is left out. -/
partial def takeIn (t : FileTree) (path : String) : IO FileTree := do
  let here := (← IO.currentDir) / path
  if ← here.isDir then
    let t := (t.makeDirs path).2
    (← here.readDir).foldlM (fun t e => takeIn t (Path.join [path, e.fileName])) t
  else
    try
      return (t.place path (← IO.FS.readFile here)).toOption.getD t
    catch _ => return t

/-- The directory of the project that a path belongs to, or else the directory around it. -/
def surroundings (path : String) : IO String := do
  let above := (FileTree.ancestry path).reverse
  let here ← IO.currentDir
  let found ← above.findM? fun d => (here / Path.join [d, Config.fileName]).pathExists
  return found.getD (if ← (here / path).isDir then path else Path.dir path)

def settingNames : List String := ["HOME", Imports.searchSetting] ++ Command.languageSettings

/-- The world around the program, as far as a command line can see it. -/
def world (words : List String) : IO World := do
  let cwd := toString (← IO.currentDir)
  let settings ← settingNames.filterMapM fun n => return (← IO.getEnv n).map (n, ·)
  let w : World := { tree := { cwd, dirs := FileTree.ancestry cwd }, settings }
  let named := match Command.read words with
    | .ok (.run _ given) => given.operands
    | _ => []
  let places ← (cwd :: named.map (Path.absolute cwd)).mapM surroundings
  let home := (settings.lookup "HOME").toList.map (Path.join [·, ".kite_history"])
  let search := (Path.searchList (w.setting Imports.searchSetting)).map (Path.absolute cwd)
  let tree ← (places.eraseDups ++ home ++ search).foldlM takeIn w.tree
  return { w with tree }

/-- Carries the changes from one tree to another over to the files. -/
def carryOver (before after : FileTree) : IO Unit := do
  for dir in after.dirs do
    if !before.dirs.contains dir then IO.FS.createDirAll dir
  for (path, text) in after.files do
    if before.files.lookup path != some text then IO.FS.writeFile path text
  for (path, _) in before.files do
    if (after.files.lookup path).isNone then IO.FS.removeFile path

/-- The input, if a command line asks for it. -/
def input (words : List String) : IO String := do
  match Command.read words with
  | .ok (.run .repl _) => (← IO.getStdin).readToEnd
  | _ => return ""

end Frontend.Main

/-- Runs the command line. -/
def main (words : List String) : IO UInt32 := do
  let w ← Frontend.Main.world words
  let outcome := Frontend.Command.run w words (← Frontend.Main.input words)
  Frontend.Main.carryOver w.tree outcome.files
  (← IO.getStdout).putStr outcome.out
  (← IO.getStderr).putStr outcome.err
  return outcome.code.toUInt32
