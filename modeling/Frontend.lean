import Frontend.Main
import Frontend.Proofs.Binding.Alias
import Frontend.Proofs.Cache.Account
import Frontend.Proofs.Cache.Fresh
import Frontend.Proofs.Course.Field
import Frontend.Proofs.Diagnostic.Caret
import Frontend.Proofs.Diagnostic.Suggestion
import Frontend.Proofs.Emission.Discipline
import Frontend.Proofs.Emission.Return
import Frontend.Proofs.Extension.Release
import Frontend.Proofs.Import.Once
import Frontend.Proofs.Judgement.Stack
import Frontend.Proofs.Lowering.Negative
import Frontend.Proofs.Meaning.Exact
import Frontend.Proofs.Meaning.Preservation
import Frontend.Proofs.Member.Initial
import Frontend.Proofs.Parse.Minus
import Frontend.Proofs.Repl.Finished
import Frontend.Proofs.Server.Framing
import Frontend.Proofs.Server.Outline
import Frontend.Proofs.Server.Splice
import Frontend.Proofs.Symbol.Environment
import Frontend.Proofs.Trace.Interface
