import Frontend.Proofs.Blur.Unit
import Frontend.Proofs.Lowering.Unit
import Frontend.Proofs.Parse.Layout
import Frontend.Proofs.Token.Place

/-!
# Notes in the code

Code may hold notes on which item of the source it comes from. A note is one line that a reader skips,
whatever the item and the file are called, and lowering goes the same way whether notes are wanted or
not. So the code of a program reads the same with notes and without.
-/

namespace Frontend

namespace Code

/-- The instructions of RA text, without the numbers of their lines. -/
def instructions? (text : String) : Option (List Instruction) :=
  (read text).toOption.map (List.map (·.instr))

/-- The instruction in a line of RA text, if there is one; the number of the line does not matter. -/
def instructionIn? (line : String) : Option (Option Instruction) :=
  (readLine 0 line).toOption.map (Option.map (·.instr))

/-- The instructions in lines of RA text. -/
def instructionsIn? : List String → Option (List Instruction)
  | [] => some []
  | line :: rest =>
    (instructionIn? line).bind fun first => (instructionsIn? rest).map (first.toList ++ ·)

theorem toOption_readLine (number : Nat) (line : String) :
    (readLine number line).toOption.map (Option.map (·.instr)) = instructionIn? line := by
  unfold instructionIn? readLine
  dsimp only
  split
  · rfl
  · rfl
  · split
    · rfl
    · split
      · rfl
      · split <;> rfl

theorem toOption_readLines (number : Nat) (lines : List String) :
    (readLines number lines).toOption.map (List.map (·.instr)) = instructionsIn? lines := by
  induction lines generalizing number with
  | nil => rfl
  | cons line rest ih =>
    rw [readLines, toOption_bind, instructionsIn?, ← ih (number + 1), ← toOption_readLine number]
    cases readLine number line with
    | error e => rfl
    | ok i => cases i <;> cases readLines (number + 1) rest <;> rfl

theorem instructions?_eq (text : String) : instructions? text = instructionsIn? (Text.lines text) :=
  toOption_readLines 1 _

theorem instructionsIn?_append (xs ys : List String) :
    instructionsIn? (xs ++ ys) = (instructionsIn? xs).bind fun first =>
      (instructionsIn? ys).map (first ++ ·) := by
  induction xs with
  | nil => simp [instructionsIn?]
  | cons x xs ih =>
    rw [List.cons_append, instructionsIn?, instructionsIn?, ih]
    cases instructionIn? x <;> cases instructionsIn? xs <;> cases instructionsIn? ys <;> simp

theorem lines_append (first rest : String) :
    Text.lines (first ++ "\n" ++ rest) = Text.lines first ++ Text.lines rest := by
  have hsplit : ∀ cs : List Char, Text.splitAt (· == '\n') (cs ++ '\n' :: rest.toList) =
      Text.splitAt (· == '\n') cs ++ Text.splitAt (· == '\n') rest.toList := by
    intro cs
    induction cs with
    | nil => rfl
    | cons c cs ih =>
      rw [List.cons_append, Text.splitAt_cons, Text.splitAt_cons, ih]
      split
      · rfl
      · cases h : Text.splitAt (· == '\n') cs with
        | nil => exact absurd h (Text.splitAt_ne_nil _ _)
        | cons part parts => rfl
  unfold Text.lines Text.splitOn
  rw [← List.map_append, ← hsplit]
  simp

/-- Every item is printed in lines of its own, if at all. -/
theorem render_eq (item : CodeItem) : item.render = "" ∨ ∃ text, item.render = text ++ "\n" := by
  cases item with
  | instr i => exact .inr ⟨i.render, rfl⟩
  | note text => exact .inr ⟨_, rfl⟩
  | passage text =>
    rw [CodeItem.render]
    split
    · exact .inl rfl
    · split
      next hlast =>
        obtain ⟨cs, hcs⟩ := List.getLast?_eq_some_iff.mp (eq_of_beq hlast)
        exact .inr ⟨String.ofList cs, String.toList_injective (by simp [hcs])⟩
      · exact .inr ⟨text, rfl⟩

theorem instructions?_note (text : String) (code : Code) :
    instructions? (render (.note text :: code)) = instructions? (render code) := by
  rw [instructions?_eq, instructions?_eq, render_cons, CodeItem.render,
    lines_cons (newline_not_mem_noteLine text), instructionsIn?, instructionIn?, readLine_noteLine]
  cases instructionsIn? (Text.lines (render code)) <;> rfl

/-- Code that reads the same does so behind any item. -/
theorem instructions?_render_congr (item : CodeItem) {code code' : Code}
    (h : instructions? (render code) = instructions? (render code')) :
    instructions? (render (item :: code)) = instructions? (render (item :: code')) := by
  rw [instructions?_eq, instructions?_eq] at h ⊢
  rw [render_cons, render_cons]
  obtain hempty | ⟨text, htext⟩ := render_eq item
  · rwa [hempty, String.empty_append, String.empty_append]
  · rw [htext, lines_append, lines_append, instructionsIn?_append, instructionsIn?_append, h]

/-- Without its notes code reads the same. -/
theorem instructions?_render_filter (code : Code) :
    instructions? (render (code.filter (!·.isNote))) = instructions? (render code) := by
  induction code with
  | nil => rfl
  | cons item code ih =>
    cases item with
    | note text => exact ih.trans (instructions?_note text code).symm
    | instr i => exact instructions?_render_congr _ ih
    | passage text => exact instructions?_render_congr _ ih

end Code

theorem Blur.spares_notes (r : Registry) : Blur.notes.Spares r := by
  intro name e _ call supply n
  rw [show Blur.notes.place = id from rfl, Node.moved_id]

/-- Compiling with notes and without ends alike: both fail, or both give code, and then the two codes
differ in notes only and their texts read as the same instructions. With the standard built-in functions
the texts can be read. -/
theorem compileSource_annotate (files : FileTree) (options : CompileOptions) (src : Source)
    (file : String) :
    (∃ e e', compileSource files { options with annotate := true } src file = .error e ∧
      compileSource files { options with annotate := false } src file = .error e') ∨
    ∃ noted plain, compileSource files { options with annotate := true } src file = .ok noted ∧
      compileSource files { options with annotate := false } src file = .ok plain ∧
      noted.filter (!·.isNote) = plain.filter (!·.isNote) ∧
      Code.instructions? noted.render = Code.instructions? plain.render ∧
      (options.builtins = .standard → ∃ is, Code.instructions? noted.render = some is) := by
  have hsame : (compileSource files { options with annotate := true } src file).toOption.map
        Blur.notes.code =
      (compileSource files { options with annotate := false } src file).toOption.map
        Blur.notes.code := by
    unfold compileSource
    cases Program.ofSource src file with
    | error e => rfl
    | ok p => exact Session.compile_alike (Blur.spares_notes _) files (.inl rfl) rfl src src
  revert hsame
  cases hnoted : compileSource files { options with annotate := true } src file with
  | error e =>
    cases compileSource files { options with annotate := false } src file with
    | error e' => exact fun _ => .inl ⟨e, e', rfl, rfl⟩
    | ok plain => intro hsame; cases hsame
  | ok noted =>
    cases compileSource files { options with annotate := false } src file with
    | error e' => intro hsame; cases hsame
    | ok plain =>
      intro hsame
      have hitems : noted.filter (!·.isNote) = plain.filter (!·.isNote) := Option.some.inj hsame
      refine .inr ⟨noted, plain, rfl, rfl, hitems, ?_, fun hstandard => ?_⟩
      · rw [← Code.instructions?_render_filter, hitems, Code.instructions?_render_filter]
      · have haccepted : compileSource files { annotate := true, imports := options.imports } src file =
            .ok noted := by rw [← hnoted, ← hstandard]
        obtain ⟨p, after, r, -, -, hwritten⟩ := exists_written_of_compileSource haccepted
        obtain ⟨placed, hread, -⟩ :=
          Code.read_render (Region.readable_flatten hwritten.fits.proper)
        rw [← hwritten.flatten] at hread
        exact ⟨placed.map (·.instr), by rw [Code.instructions?, hread]; rfl⟩

/-! ## Layout does not matter

Two source texts whose tokens say the same are compiled alike: to the same code, or not at all. Neither
reading nor lowering is able to tell where a token stands. -/

/-- No standard built-in function looks at the place of a call. -/
theorem Blur.spares_standard (b : Blur) : b.Spares .standard := by
  intro name e hfind call supply n
  have hmem : e ∈ Builtin.standard := List.mem_of_find?_eq_some hfind
  unfold Builtin.standard at hmem
  simp only [List.mem_cons, List.not_mem_nil, or_false] at hmem
  rcases hmem with rfl | rfl | rfl | rfl | rfl | rfl | rfl | rfl | rfl | rfl | rfl | rfl <;> rfl

/-- Programs of tokens that say the same cannot be told apart when places are forgotten. -/
theorem Program.ofSource_same {src src' : Source} {file : String} {tokens tokens' : List Token}
    (h : src.scan file = .ok tokens) (h' : src'.scan file = .ok tokens')
    (hsame : List.Forall₂ Token.Same tokens tokens') :
    (∃ p p', ofSource src file = .ok p ∧ ofSource src' file = .ok p' ∧
      p.moved Blur.places.place = p'.moved Blur.places.place) ∨
    ∃ e e', ofSource src file = .error e ∧ ofSource src' file = .error e' := by
  obtain ⟨herrors, hbody⟩ := Layout.ofTokens_same hsame (Source.file_of_scan h).2 Blur.places.place
    fun _ _ => rfl
  have hread : ofSource src file = if (ofTokens tokens).errors.isEmpty then .ok (ofTokens tokens).program
      else .error (.grammar (ofTokens tokens).errors) := by unfold ofSource; rw [h]
  have hread' : ofSource src' file = if (ofTokens tokens').errors.isEmpty then .ok (ofTokens tokens').program
      else .error (.grammar (ofTokens tokens').errors) := by unfold ofSource; rw [h']
  by_cases hclean : (ofTokens tokens).errors = []
  · rw [hclean, List.isEmpty_nil, if_pos rfl] at hread
    rw [herrors.mpr hclean, List.isEmpty_nil, if_pos rfl] at hread'
    refine .inl ⟨_, _, hread, hread', ?_⟩
    unfold Program.moved
    rw [hbody hclean, file_of_ofSource hread, file_of_ofSource hread']
  · rw [if_neg (by simpa using hclean)] at hread
    rw [if_neg (by simpa using mt herrors.mp hclean)] at hread'
    exact .inr ⟨_, _, hread, hread'⟩

/-- Two source texts whose tokens say the same are compiled to the same text, or none of them is
compiled. -/
theorem compileSource_same {files : FileTree} {options : CompileOptions} {src src' : Source} {file : String}
    {tokens tokens' : List Token} (hquiet : options.annotate = false)
    (hstandard : options.builtins = .standard) (h : src.scan file = .ok tokens)
    (h' : src'.scan file = .ok tokens') (hsame : List.Forall₂ Token.Same tokens tokens') :
    (∃ code code', compileSource files options src file = .ok code ∧
      compileSource files options src' file = .ok code' ∧ code.render = code'.render) ∨
    ∃ e e', compileSource files options src file = .error e ∧
      compileSource files options src' file = .error e' := by
  rcases Program.ofSource_same h h' hsame with ⟨p, p', hp, hp', hmoved⟩ | ⟨e, e', he, he'⟩
  · have hspares : Blur.places.Spares (Session.ofOptions options).builtins := by
      rw [show (Session.ofOptions options).builtins = options.builtins from rfl, hstandard]
      exact Blur.spares_standard _
    have halike := Session.compile_alike hspares files (.inr ⟨hquiet, hquiet⟩) hmoved src src'
    have hcode : Blur.places.code = id := funext fun _ => rfl
    rw [hcode, Option.map_id, id, id] at halike
    unfold compileSource
    rw [hp, hp']
    dsimp only
    cases hrun : ((Session.ofOptions options).compile files options.annotate p src).1 with
    | ok code =>
      cases hrun' : ((Session.ofOptions options).compile files options.annotate p' src').1 with
      | ok code' =>
        rw [hrun, hrun'] at halike
        exact .inl ⟨code, code', rfl, rfl, congrArg Code.render (Option.some.inj halike)⟩
      | error e' => rw [hrun, hrun'] at halike; cases halike
    | error e =>
      cases hrun' : ((Session.ofOptions options).compile files options.annotate p' src').1 with
      | ok code' => rw [hrun, hrun'] at halike; cases halike
      | error e' => exact .inr ⟨e, e', rfl, rfl⟩
  · unfold compileSource
    rw [he, he']
    exact .inr ⟨_, _, rfl, rfl⟩

/-- A text with a loop. -/
def spacedSource : Source :=
  Source.ofString "// sums\nvar a = 0; var i = -1\n\nwhile (i < 3) \x7b\n  a = a + i\n  i++\n\x7d\n"

/-- The same with less space. -/
def denseSource : Source := Source.ofString "var a=0\nvar i= -1;while(i<3)\x7b;a=a+i;i++;\x7d"

theorem compileSource_same_dense : ∃ code code', compileSource {} {} spacedSource "main" = .ok code ∧
    compileSource {} {} denseSource "main" = .ok code' ∧ code.render = code'.render := by
  have same : (spacedSource.scan "main").toOption.any (fun tokens =>
      (denseSource.scan "main").toOption.any fun tokens' =>
        decide (List.Forall₂ Token.Same tokens tokens')) = true := by
    rw [spacedSource, denseSource, Source.ofString_ofList, Source.ofString_ofList]
    decide +kernel
  have accepted : (compileSource {} {} spacedSource "main").toOption.isSome = true := by
    rw [compileSource_named {} Registry.names_standard, spacedSource, Source.ofString_ofList]
    decide +kernel
  cases h : spacedSource.scan "main" with
  | error e => rw [h] at same; cases same
  | ok tokens =>
    cases h' : denseSource.scan "main" with
    | error e => rw [h, h'] at same; cases same
    | ok tokens' =>
      rw [h, h'] at same
      refine (compileSource_same rfl rfl h h' (of_decide_eq_true same)).resolve_right ?_
      rintro ⟨e, -, he, -⟩
      rw [he] at accepted
      cases accepted

end Frontend
