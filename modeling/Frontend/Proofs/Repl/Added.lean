import Frontend.Proofs.Locality
import Frontend.Proofs.Lowering.Unit
import Frontend.Proofs.Parse.Join
import Frontend.Repl.Dialogue

/-!
# What an input adds

Every input is compiled together with all the inputs before it. The items that were there come first in
the longer program, they are lowered the way they were, and code is only ever written behind other code.
So the code of the longer program is the code there was, and behind it what the input adds.
-/

namespace Frontend

variable {file text : String} {p : Program} {s s' : Lowering}
variable {src a b : Source} {q : Program} {u : Unit} {code code' : Code}

/-! ## Code and texts -/

theorem CodeBuffer.exists_code_append (b : CodeBuffer) (code : Code) :
    ∃ added, (b.append code).code = b.code ++ added := by
  rw [append_eq]
  split
  · exact ⟨code, by simp [CodeBuffer.code]⟩
  · exact ⟨[], by simp [CodeBuffer.code]⟩

theorem Code.render_append (code more : Code) : render (code ++ more) = render code ++ render more := by
  unfold render
  rw [List.map_append, String.join_append]

theorem Text.joinWith_concat (sep : String) {parts : List String} (h : parts ≠ []) (last : String) :
    joinWith sep (parts ++ [last]) = joinWith sep parts ++ sep ++ last := by
  unfold joinWith
  induction parts with
  | nil => exact absurd rfl h
  | cons part parts ih =>
    cases parts with
    | nil => simp [String.intercalate_cons_cons]
    | cons other parts =>
      rw [List.cons_append, List.cons_append, String.intercalate_cons_cons, ← List.cons_append,
        ih (List.cons_ne_nil _ _), String.intercalate_cons_cons]
      simp only [String.append_assoc]

theorem Source.ofString_append_newline (a b : String) :
    ofString (a ++ "\n" ++ b) = ofString a ++ Letter.char '\n' :: ofString b := by
  simp [ofString]

/-! ## Longer programs -/

theorem Program.ofSource_eq_ok : ofSource src file = .ok p ↔ ∃ tokens, src.tokens file = .ok tokens ∧
      (ofTokens tokens).errors = [] ∧ (ofTokens tokens).program = p := by
  unfold ofSource
  cases hscan : src.scan file with
  | error d => simp [← Source.scan_eq_ok, hscan]
  | ok tokens =>
    dsimp only
    split
    next hempty => simp [← Source.scan_eq_ok, hscan, List.isEmpty_iff.mp hempty]
    next hsome => simp [← Source.scan_eq_ok, hscan, mt List.isEmpty_iff.mpr hsome]

/-- Behind a program and a newline, a text that does not go on with a branch adds items. -/
theorem Program.exists_body_append (hp : ofSource a file = .ok p)
    (hq : ofSource (a ++ Letter.char '\n' :: b) file = .ok q)
    (hfirst : ∀ tokens, b.tokens file = .ok tokens → StartsAnew tokens) : ∃ added, q.body = p.body ++ added := by
  obtain ⟨ta, ha, hclean, rfl⟩ := ofSource_eq_ok.mp hp
  obtain ⟨tokens, htokens, -, rfl⟩ := ofSource_eq_ok.mp hq
  obtain ⟨earlier, pos, rfl, hfate⟩ :=
    Source.sameFate_tokens_append ha b (fun p l h => a.below_after l h) rfl
  rw [htokens] at hfate
  cases hb : b.tokens file with
  | error e =>
    rw [hb] at hfate
    cases hfate
  | ok tb =>
    rw [hb] at hfate
    cases hfate with
    | ok hjoined =>
      have key := (ofTokens_append ha hclean hb (hfirst tb hb) a.moves_below).1
      rw [List.dropLast_concat, ← hjoined] at key
      exact ⟨_, key⟩

/-- Where nothing else has changed, only another text is at hand. -/
theorem Locality.Kept.seeing (h : Kept s s') (src : Source) : s'.seeing s.view src = { s' with source := src } := by
  rw [← h.view]
  rfl

theorem Lower.startFile_source (h : startFile file s = (.ok u, s')) (src : Source) :
    startFile file { s with source := src } = (.ok u, { s' with source := src }) := by
  rw [← (Locality.kept_startFile h).seeing]
  exact Locality.startFile_seeing (v := s.view) rfl h src

/-- Items that were lowered write code behind the code there was, and are lowered the same way with
another text at hand. -/
theorem Lower.items_source {levels : Nat} {ns : List Node} (h : items (visit levels) ns s = (.ok u, s')) :
    (∃ code, s'.out = s.out.append code) ∧
      ∀ src, items (visit levels) ns { s with source := src } = (.ok u, { s' with source := src }) := by
  have hvisit := Locality.repeats_visit (Locality.Change.harmless_unchanged s.view)
    (Nat.le_refl levels)
  obtain ⟨kept, same⟩ := Locality.Repeats.items hvisit ns s u s' h
  refine ⟨kept.out, fun src => ?_⟩
  rw [← kept.seeing]
  exact same rfl trivial (fun _ _ => trivial) src

/-- The code of a program is the first part of the code of a program that has more items. -/
theorem Session.exists_code_append {session : Session} {t : FileTree} {annotate : Bool} {src' : Source}
    {more : List Node} {after after' : Session} (hfile : q.file = p.file) (hbody : q.body = p.body ++ more)
    (h : session.compile t annotate p src = (.ok code, after))
    (h' : session.compile t annotate q src' = (.ok code', after')) : ∃ added, code' = code ++ added := by
  obtain ⟨final, hlower, rfl, rfl⟩ := Session.compile_eq_ok.mp h
  obtain ⟨final', hlower', rfl, rfl⟩ := Session.compile_eq_ok.mp h'
  obtain ⟨s₁, s₂, hstart, hitems, rfl⟩ := Locality.unit_eq_ok.mp (Session.lower_eq_ok.mp hlower).1
  obtain ⟨t₁, t₂, hstart', hitems', rfl⟩ :=
    Locality.unit_eq_ok.mp (Session.lower_eq_ok.mp hlower').1
  rw [hfile] at hstart'
  obtain ⟨-, rfl⟩ := Prod.mk.inj (hstart'.symm.trans (Lower.startFile_source hstart src'))
  -- the items that both programs have lead to the same state, except for the text at hand
  have hcommon := (Lower.items_source hitems).2 src'
  rw [hbody, Lower.items, Lower.forAll_append] at hitems'
  change Lower.andThen (Lower.items (Lower.visit levels) p.body) _ _ = _ at hitems'
  rw [Lower.andThen, hcommon] at hitems'
  obtain ⟨written, hout⟩ := (Lower.items_source hitems').1
  change ∃ added, t₂.out.code = s₂.out.code ++ added
  rw [hout]
  exact CodeBuffer.exists_code_append _ _

/-- The code of a source text that is accepted is the first part of the code of a longer one. -/
theorem exists_code_append_of_compileSource {files : FileTree} {options : CompileOptions}
    (h : compileSource files options a file = .ok code)
    (h' : compileSource files options (a ++ Letter.char '\n' :: b) file = .ok code')
    (hfirst : ∀ tokens, b.tokens file = .ok tokens → Program.StartsAnew tokens) :
    ∃ added, code' = code ++ added := by
  obtain ⟨p, hp, hcode⟩ := exists_program_of_compileSource h
  obtain ⟨q, hq, hcode'⟩ := exists_program_of_compileSource h'
  obtain ⟨more, hbody⟩ := Program.exists_body_append hp hq hfirst
  have hfile : q.file = p.file :=
    (Program.file_of_ofSource hq).trans (Program.file_of_ofSource hp).symm
  exact Session.exists_code_append hfile hbody (Prod.ext hcode rfl) (Prod.ext hcode' rfl)

/-! ## Sessions -/

namespace Repl

/-- The states that inputs, accepted or not, and resets lead to while the files stay as they are. -/
inductive Reachable (files : FileTree) : Repl → Prop where
  | start (annotate : Bool) (builtins : Registry) : Reachable files { annotate, builtins }
  | eval {r : Repl} (h : Reachable files r) (input : String) : Reachable files (r.eval files input).2
  | reset {r : Repl} (h : Reachable files r) : Reachable files r.reset

variable {files : FileTree} {r r' : Repl} {input added : String}

def options (r : Repl) : CompileOptions := { annotate := r.annotate, builtins := r.builtins }

/-- The text of the code that an input comes to together with the accepted ones. -/
def wholeText (r : Repl) (files : FileTree) (input : String) : Except Failure String :=
  (compileSource files r.options (.ofString (r.programWith input)) inputName).map Code.render

theorem eval_eq (r : Repl) (files : FileTree) (input : String) : r.eval files input =
    match r.wholeText files input with
    | .error f => (.error f, r)
    | .ok text => (.ok ((Text.dropHead? text r.output).getD text),
        { r with accepted := r.accepted ++ [input], output := text }) := by
  unfold eval wholeText options
  dsimp only
  cases compileSource files { annotate := r.annotate, builtins := r.builtins }
      (.ofString (r.programWith input)) inputName <;> rfl

/-- An input that is accepted is the last one of the accepted ones, and the output is the whole code. -/
theorem eval_eq_ok : r.eval files input = (.ok added, r') ↔ ∃ text,
    r.wholeText files input = .ok text ∧ (Text.dropHead? text r.output).getD text = added ∧
      { r with accepted := r.accepted ++ [input], output := text } = r' := by
  rw [eval_eq]
  cases r.wholeText files input with
  | error f => simp
  | ok text => simp

theorem eval_of_toOption (h : (r.wholeText files input).toOption = some text) :
    r.eval files input = (.ok ((Text.dropHead? text r.output).getD text),
      { r with accepted := r.accepted ++ [input], output := text }) := by
  rw [eval_eq]
  cases htext : r.wholeText files input with
  | error f =>
    rw [htext] at h
    cases h
  | ok text' =>
    rw [htext] at h
    cases h
    rfl

/-- An input that is refused changes nothing. -/
theorem eval_of_refused (h : (r.wholeText files input).toOption = none) : (r.eval files input).2 = r := by
  rw [eval_eq]
  cases htext : r.wholeText files input with
  | error f => rfl
  | ok text =>
    rw [htext] at h
    cases h

/-- The output is the code of the accepted inputs. -/
def Tracks (files : FileTree) (r : Repl) : Prop :=
  r.accepted = [] ∧ r.output = "" ∨ r.accepted ≠ [] ∧ ∃ code,
    compileSource files r.options (.ofString (Text.joinWith "\n" r.accepted)) inputName = .ok code ∧
      code.render = r.output

theorem wholeText_eq_ok : r.wholeText files input = .ok text ↔ ∃ code,
    compileSource files r.options (.ofString (r.programWith input)) inputName = .ok code ∧ code.render = text := by
  unfold wholeText
  cases compileSource files r.options (.ofString (r.programWith input)) inputName with
  | error f => simp [Except.map]
  | ok code => simp [Except.map]

theorem Tracks.eval (h : r.Tracks files) (input : String) : (r.eval files input).2.Tracks files := by
  rw [eval_eq]
  cases htext : r.wholeText files input with
  | error f => exact h
  | ok text =>
    obtain ⟨code, hcode, rfl⟩ := wholeText_eq_ok.mp htext
    exact .inr ⟨by simp, code, hcode, rfl⟩

theorem Reachable.tracks (h : r.Reachable files) : r.Tracks files := by
  induction h with
  | start annotate builtins => exact .inl ⟨rfl, rfl⟩
  | reset h ih => exact .inl ⟨rfl, rfl⟩
  | eval h input ih => exact ih.eval input

/-- The whole code starts with the output there was, unless the input goes on with a branch. -/
theorem Tracks.exists_text (h : r.Tracks files) (htext : r.wholeText files input = .ok text)
    (hfirst : ∀ tokens, (Source.ofString input).tokens inputName = .ok tokens →
      Program.StartsAnew tokens) : ∃ more, text = r.output ++ more := by
  obtain ⟨code, hcode, rfl⟩ := wholeText_eq_ok.mp htext
  rcases h with ⟨-, hempty⟩ | ⟨hsome, earlier, hearlier, houtput⟩
  · exact ⟨code.render, by rw [hempty, String.empty_append]⟩
  · unfold programWith at hcode
    rw [Text.joinWith_concat _ hsome, Source.ofString_append_newline] at hcode
    obtain ⟨added, rfl⟩ := exists_code_append_of_compileSource hearlier hcode hfirst
    exact ⟨Code.render added, by rw [Code.render_append, houtput]⟩

/-- The answer to an input is exactly the new code: unless the input goes on with a branch, the code of
the whole program is the code there was before and the answer behind it. -/
theorem output_eval (h : r.Reachable files) (heval : r.eval files input = (.ok added, r'))
    (hfirst : ∀ tokens, (Source.ofString input).tokens inputName = .ok tokens →
      Program.StartsAnew tokens) :
    r'.output = r.output ++ added ∧ r.wholeText files input = .ok r'.output := by
  obtain ⟨text, htext, hadded, rfl⟩ := eval_eq_ok.mp heval
  refine ⟨?_, htext⟩
  obtain ⟨more, rfl⟩ := h.tracks.exists_text htext hfirst
  rw [Text.dropHead?_append, Option.getD_some] at hadded
  rw [hadded]

/-- The comment at the end of the first input, the input that is refused and the variable that is used
again do not matter. -/
theorem output_eval_after_comment : ∃ r r' : Repl, r.Reachable {} ∧
    r.accepted = ["var a = 1 // one"] ∧ r.output = "ALLOT: a_0\nPUT: 1, a_0\n" ∧
    r.eval {} "sout(a + 1)" = (.ok "ADD: a_0, 1, %t0\nSOUT: %t0\n", r') ∧
    r'.output = r.output ++ "ADD: a_0, 1, %t0\nSOUT: %t0\n" := by
  let later : Repl :=
    { accepted := ["var a = 1 // one"], output := "ALLOT: a_0\nPUT: 1, a_0\n" }
  have hnames : (options {}).builtins.names = _ := Registry.names_standard
  have hfirst : (wholeText {} {} "var a = 1 // one").toOption = some later.output := by
    unfold wholeText
    rw [compileSource_named (options {}) hnames]
    decide +kernel
  have hrefused : (later.wholeText {} "a +").toOption = none := by
    unfold wholeText
    rw [compileSource_named later.options hnames]
    decide +kernel
  have hsecond : (later.wholeText {} "sout(a + 1)").toOption =
      some (later.output ++ "ADD: a_0, 1, %t0\nSOUT: %t0\n") := by
    unfold wholeText
    rw [compileSource_named later.options hnames]
    decide +kernel
  have hanew : ∀ tokens, (Source.ofString "sout(a + 1)").tokens inputName = .ok tokens →
      Program.StartsAnew tokens := by
    have hall : ((Source.ofString "sout(a + 1)").tokens inputName).toOption.all
        (decide <| Program.StartsAnew ·) = true := by decide +kernel
    intro tokens htokens
    rw [htokens] at hall
    exact of_decide_eq_true hall
  have hreached : later.Reachable {} := by
    have h : ((eval {} {} "var a = 1 // one").2.eval {} "a +").2.Reachable {} :=
      ((Reachable.start false .standard).eval _).eval _
    rw [eval_of_toOption hfirst] at h
    change (later.eval {} "a +").2.Reachable {} at h
    rwa [eval_of_refused hrefused] at h
  have heval := eval_of_toOption hsecond
  rw [Text.dropHead?_append] at heval
  exact ⟨later, _, hreached, rfl, rfl, heval, (output_eval hreached heval hanew).1⟩

end Repl

end Frontend
