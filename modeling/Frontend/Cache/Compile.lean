import Frontend.Cache.Basic
import Frontend.Project.Basic

/-!
# Compiling with a cache

Compiles an entry file, or takes its code out of a cache when neither the file nor the way to compile
it has changed.
-/

namespace Frontend

def compilerVersion : String := "0.1.0"

/-- The key that the code of a source text is stored under: it changes with the compiler, with the
options, with the built-in functions and with the text. -/
def CompileOptions.cacheKey (o : CompileOptions) (text : String) : String :=
  Digest.ofText ("kite " ++ compilerVersion ++ "\nannotate=" ++ Text.ofBool o.annotate ++
    "\nbuiltins=" ++ Text.joinWith "," o.builtins.names ++ "\n" ++ text)

/-- Compiles an entry file with a cache: the text of its code or the failure, and the cache and the
files afterwards. That code cannot be stored does no harm. -/
def compileFileCached (w : World) (o : CompileOptions) (cache : Cache) (path : String) :
    Except Failure String × Cache × FileTree :=
  let file := Path.absolute w.tree.cwd path
  match w.tree.read file with
  | .error _ => (compileFile w o file, cache, w.tree)
  | .ok text =>
    let key := o.cacheKey text
    match cache.get w.tree file key with
    | (some code, cache, files) => (.ok code, cache, files)
    | (none, cache, files) =>
      match compileEntry { w with tree := files } o file with
      | .error f => (.error f, cache, files)
      | .ok (code, loaded) =>
        let (_, cache, files) := cache.put files file key code loaded
        (.ok code, cache, files)

end Frontend
