import Frontend.Diagnostic.Layout
import Frontend.Parse.Program

/-!
# Failures

Why a compilation failed: one diagnostic, grammar errors, or something that is not about the source
text at all.
-/

namespace Frontend

/-- The cause of a failed compilation. -/
inductive Failure where
  | diagnostic (d : Diagnostic)
  | grammar (errors : List ParseError)
  | other (message : Phrase)
  /-- Several causes at once. -/
  | several (causes : List Diagnostic)
  deriving Inhabited

namespace Failure

/-- The failure that a faulty source text leads to. -/
def ofSourceError : SourceError → Failure
  | .scan d => .diagnostic d
  | .grammar errors => .grammar errors

def text (lang : Language) : Failure → String
  | diagnostic d => d.text lang
  | grammar errors => Text.joinWith "; " (errors.map (·.text lang))
  | other message => message.render lang
  | several causes => Text.joinWith "; " (causes.map (·.text lang))

/-- Shows the line of a diagnostic if it points into the given file and has no line yet. -/
def complete (file : String) (src : Source) (d : Diagnostic) : Diagnostic :=
  if d.sourceLine.isEmpty && d.file == file && !src.isEmpty then d.withSource src else d

/-- The diagnostics of a failure. `src` is the text of `file`, from which lines are shown. -/
def diagnostics (file : String) (src : Source) : Failure → List Diagnostic
  | diagnostic d => [complete file src d]
  | grammar errors => errors.map fun e => e.diagnostic (if e.pos.file == file then src else [])
  | other _ => []
  | several causes => (causes.take 1).map (complete file src)

/-- Reports a failure: the reporter afterwards and the text. -/
def report (read : String → Option String) (lang : Language) (r : Reporter) (file : String)
    (src : Source) (f : Failure) : Reporter × String :=
  match f.diagnostics file src with
  | [] => (r, r.plain (f.text lang))
  | ds => r.reportAll read lang ds

end Failure

end Frontend
