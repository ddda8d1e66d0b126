import Frontend.Proofs.Lowering.Ending
import Frontend.Proofs.Token.Minus

/-!
# A space in front of a negative number

Behind an operator it does not matter whether a space stands in front of a negative number: a text is
compiled to the same code with the space and without, or in neither way. Two things are told apart. Two minus
signs in a row are one operator, and the least number of 64 bits is no opposite of another one.
-/

namespace Frontend

open Lower

/-! ## Tokens without their places -/

/-- A token that looks like this, at no place. -/
def Token.ofView (v : TokenKind × String) : Token := ⟨v.1, v.2, {}⟩

theorem Token.same_ofView {tokens : List Token} :
    List.Forall₂ Token.Same ((tokens.map Token.view).map Token.ofView) tokens := by
  induction tokens with
  | nil => exact .nil
  | cons t tokens ih => exact .cons ⟨rfl, rfl⟩ ih

section
variable {files : FileTree} {options : CompileOptions} {src : Source} {file : String} {tokens : List Token}
  {seen : List (TokenKind × String)} {code : Code}

/-- The tokens of a text are read as tokens that look like them, at no place. -/
theorem Program.ofTokens_ofView (h : src.tokens file = .ok tokens) :
    ((ofTokens tokens).errors = [] ↔ (ofTokens ((tokens.map Token.view).map Token.ofView)).errors = []) ∧
      ((ofTokens ((tokens.map Token.view).map Token.ofView)).errors = [] →
        (ofTokens tokens).program.body.map (Node.moved Blur.places.place) =
          (ofTokens ((tokens.map Token.view).map Token.ofView)).program.body.map
            (Node.moved Blur.places.place)) := by
  refine Layout.ofTokens_same Token.same_ofView ?_ Blur.places.place fun _ _ => rfl
  obtain ⟨made, pos, rfl, -⟩ := Source.scanned_of_tokens h
  exact ⟨Token.ofView (Token.eof pos).view, by simp, rfl⟩

/-- What a text is compiled to depends on how its tokens look only. -/
theorem compileSource_eq_ok (hquiet : options.annotate = false) (hstandard : options.builtins = .standard)
    (h : src.tokens file = .ok tokens) (hseen : tokens.map Token.view = seen) :
    compileSource files options src file = .ok code ↔ (Program.ofTokens (seen.map Token.ofView)).errors = [] ∧
        ∃ after, (Session.ofOptions options).compile files false
          ⟨file, (Program.ofTokens (seen.map Token.ofView)).program.body⟩ [] = (.ok code, after) := by
  subst hseen
  obtain ⟨herrors, hbody⟩ := Program.ofTokens_ofView h
  unfold compileSource
  by_cases hclean : (Program.ofTokens ((tokens.map Token.view).map Token.ofView)).errors = []
  · have hread := Program.ofSource_eq_ok.mpr ⟨tokens, h, herrors.mpr hclean, rfl⟩
    have hspares : Blur.places.Spares (Session.ofOptions options).builtins := by
      rw [show (Session.ofOptions options).builtins = options.builtins from rfl, hstandard]
      exact Blur.spares_standard _
    have hmoved : (Program.ofTokens tokens).program.moved Blur.places.place =
        Program.moved Blur.places.place
          ⟨file, (Program.ofTokens ((tokens.map Token.view).map Token.ofView)).program.body⟩ := by
      unfold Program.moved
      rw [hbody hclean, Program.file_of_ofSource hread]
    have halike := Session.compile_alike hspares files (.inr ⟨hquiet, rfl⟩) hmoved src []
    have hcode : Blur.places.code = id := funext fun _ => rfl
    rw [hcode, Option.map_id, id, id] at halike
    rw [hread]
    dsimp only
    rw [← toOption_eq_some, halike, toOption_eq_some, and_iff_right hclean]
    exact ⟨fun h => ⟨_, Prod.ext h rfl⟩, fun h => h.elim fun _ h => congrArg Prod.fst h⟩
  · cases hread : Program.ofSource src file with
    | error e => exact iff_of_false (by simp) fun h => hclean h.1
    | ok p =>
      obtain ⟨read, hsame, hempty, -⟩ := Program.ofSource_eq_ok.mp hread
      cases h.symm.trans hsame
      exact absurd (herrors.mp hempty) hclean

/-! ## Texts in front and behind -/

/-- A text is accepted, and its tokens look like this up to the end of input. -/
def Source.Sees (src : Source) (file : String) (seen : List (TokenKind × String)) : Prop :=
  ∃ tokens, src.tokens file = .ok tokens ∧ tokens.map Token.view = seen ++ [(TokenKind.eof, "")]

/-- Nothing at all, or a program that is read without errors and a line break. -/
def Source.Fronts (before : Source) (file : String) : Prop :=
  before = [] ∨ ∃ front p, before = front ++ [Letter.char '\n'] ∧ Program.ofSource front file = .ok p

/-- Nothing at all, or a line break and any text. -/
def Source.Follows (behind : Source) : Prop := behind = [] ∨ ∃ more, behind = .char '\n' :: more

theorem Source.noEof_ofView {made : List Token} (hmade : ∀ t ∈ made, t.Made) :
    NoEof ((made.map Token.view).map Token.ofView) := by
  intro t ht
  rw [List.map_map, List.mem_map] at ht
  obtain ⟨u, hu, rfl⟩ := ht
  exact (hmade u hu).kind_ne_eof

/-- Behind a text and a line break the tokens of another text look as they do alone. -/
theorem Source.exists_joined {text more : Source} {earlier : List Token} {pos : Position}
    (htext : text.tokens file = .ok (earlier ++ [Token.eof pos])) (hmore : more.tokens file = .ok tokens) :
    ∃ joined, (text ++ Letter.char '\n' :: more).tokens file = .ok joined ∧
      joined.map Token.view = earlier.map Token.view ++ tokens.map Token.view := by
  obtain ⟨earlier', pos', hsplit, hfate⟩ :=
    Source.sameFate_tokens_append htext more (fun p l _ => Position.down_after _ _ p l) rfl
  obtain ⟨rfl, -⟩ := List.append_inj' hsplit rfl
  rw [hmore] at hfate
  generalize hresult : Source.tokens (text ++ Letter.char '\n' :: more) file = result at hfate
  cases hfate with
  | ok hjoined =>
    refine ⟨_, rfl, ?_⟩
    rw [hjoined, List.map_append, List.map_map]
    rfl

theorem Program.errors_ofTokens_eof (pos : Position) : (ofTokens ([] ++ [Token.eof pos])).errors = [] := by
  have hnone : ∀ t ∈ ([] : List Token), t.kind ≠ .eof := List.forall_mem_nil _
  have hended : (Parse.startAt [] pos).ended = true := rfl
  exact (ofTokens_of_reads hnone (.ended hended)).2

/-- The tokens of a program stand in front of those of the text behind it. -/
theorem Source.Fronts.exists_sees {before : Source} (h : before.Fronts file) :
    ∃ front, NoEof (front.map Token.ofView) ∧ EndsLine (front.map Token.ofView) ∧
      (Program.ofTokens (front.map Token.ofView ++ [Token.eof {}])).errors = [] ∧
      ∀ {text seen}, Source.Sees text file seen → Source.Sees (before ++ text) file (front ++ seen) := by
  rcases h with rfl | ⟨text, p, rfl, hp⟩
  · refine ⟨[], .nil, ?_, Program.errors_ofTokens_eof {}, id⟩
    rintro t ⟨⟩
  · obtain ⟨tokens, htokens, hclean, -⟩ := Program.ofSource_eq_ok.mp hp
    obtain ⟨made, pos, rfl, hmade, hends⟩ := Source.scanned_of_tokens htokens
    refine ⟨made.map Token.view, Source.noEof_ofView hmade, ?_, ?_, ?_⟩
    · intro t ht
      rw [List.map_map, List.getLast?_map] at ht
      obtain ⟨u, hu, rfl⟩ := Option.map_eq_some_iff.mp ht
      exact hends u hu
    · have hshown := (Program.ofTokens_ofView htokens).1.mp hclean
      rwa [List.map_append, List.map_append] at hshown
    · rintro behind seen ⟨tokens, hbehind, hseen⟩
      obtain ⟨joined, hjoined, hview⟩ := Source.exists_joined htokens hbehind
      refine ⟨joined, ?_, ?_⟩
      · rw [List.append_assoc, List.singleton_append]
        exact hjoined
      · rw [hview, hseen, List.append_assoc]

/-- The tokens of a text stand in front of those of the text behind it, if that is accepted. -/
theorem Source.Follows.exists_sees {behind : Source} (h : behind.Follows) (file : String) :
    (∃ rear, NoEof (rear.map Token.ofView) ∧
      ∀ {text seen}, Source.Sees text file seen → Source.Sees (text ++ behind) file (seen ++ rear)) ∨
    ∀ {text seen}, Source.Sees text file seen → ∀ tokens, (text ++ behind).tokens file ≠ .ok tokens := by
  rcases h with rfl | ⟨more, rfl⟩
  · refine .inl ⟨[], .nil, fun h => ?_⟩
    rwa [List.append_nil, List.append_nil]
  cases hmore : Source.tokens more file with
  | ok tokens =>
    obtain ⟨made, pos, rfl, hmade, -⟩ := Source.scanned_of_tokens hmore
    refine .inl ⟨made.map Token.view, Source.noEof_ofView hmade, ?_⟩
    rintro text seen ⟨tokens, htext, hseen⟩
    obtain ⟨earlier, pos', rfl, -⟩ := Source.scanned_of_tokens htext
    rw [List.map_append] at hseen
    obtain ⟨rfl, -⟩ := List.append_inj' hseen rfl
    obtain ⟨joined, hjoined, hview⟩ := Source.exists_joined htext hmore
    refine ⟨joined, hjoined, ?_⟩
    rw [hview, List.map_append, List.append_assoc]
    rfl
  | error e =>
    refine .inr ?_
    rintro text seen ⟨tokens, htext, -⟩ joined hjoined
    obtain ⟨earlier, pos', -, hfate⟩ :=
      Source.sameFate_tokens_append htext more (fun p l _ => Position.down_after _ _ p l) rfl
    rw [hmore, hjoined] at hfate
    cases hfate

end

/-! ## Negative numbers -/

namespace NegativeEnding

variable {e : NegativeEnding}

/-- Digits are a natural number, and behind a minus its opposite. -/
theorem exists_value (hdigits : e.digits ≠ "") : ∃ k : Nat, Decimal.readInt? e.digits = some (k : Int) ∧
      Decimal.readInt? ("-" ++ e.digits) = some (-(k : Int)) := by
  have hall : e.digits.toList.all Text.isDigit = true := List.all_eq_true.mpr e.isDigits
  obtain ⟨d, ds, hlist⟩ : ∃ d ds, e.digits.toList = d :: ds :=
    List.exists_cons_of_ne_nil fun he => hdigits (String.toList_injective he)
  have hd : Text.isDigit d = true := e.isDigits d (hlist ▸ List.mem_cons_self)
  have hplain : Decimal.readSign e.digits.toList = (false, e.digits.toList) := by
    rw [hlist]
    unfold Decimal.readSign
    split
    next heq => cases heq; exact absurd hd (by decide)
    next heq => cases heq; exact absurd hd (by decide)
    next => rfl
  have hsigned : Decimal.readSign ("-" ++ e.digits).toList = (true, e.digits.toList) := by simp [Decimal.readSign]
  have hnonempty : e.digits.toList.isEmpty = false := by rw [hlist]; rfl
  refine ⟨Text.digitsValue e.digits.toList, ?_, ?_⟩
  · unfold Decimal.readInt?
    rw [hplain]
    simp [hnonempty, hall]
  · unfold Decimal.readInt?
    rw [hsigned]
    simp [hnonempty, hall]

/-- A number is too large with the minus in front of it exactly when it is too large alone, but for the one
whose opposite is the least number. -/
theorem opposed (hdigits : e.digits ≠ "") (hleast : Decimal.readInt? e.digits ≠ some (Number.twoTo 63)) :
    Token.Opposed (.ofView (.op .minus, "-")) (.ofView (.int, e.digits)) (.ofView (.int, "-" ++ e.digits)) := by
  refine ⟨rfl, rfl, rfl, ?_⟩
  obtain ⟨k, hplain, hsigned⟩ := exists_value hdigits
  have half : Number.twoTo 63 = 9223372036854775808 := rfl
  have hk : k ≠ 9223372036854775808 := by
    rintro rfl
    exact hleast hplain
  change Decimal.readWord? ("-" ++ e.digits) = (Decimal.readWord? e.digits).map (- ·)
  unfold Decimal.readWord?
  rw [hplain, hsigned]
  by_cases hsmall : k < 9223372036854775808
  · have hword : Decimal.inWord (k : Int) = true ∧ Decimal.inWord (-(k : Int)) = true := by
      unfold Decimal.inWord
      rw [half]
      simp only [Bool.and_eq_true, decide_eq_true_eq]
      omega
    rw [Option.filter_some_pos hword.1, Option.filter_some_pos hword.2]
    rfl
  · have hword : ¬ Decimal.inWord (k : Int) = true ∧ ¬ Decimal.inWord (-(k : Int)) = true := by
      unfold Decimal.inWord
      rw [half]
      simp only [Bool.and_eq_true, decide_eq_true_eq]
      omega
    rw [Option.filter_some_neg (Bool.eq_false_iff.mpr hword.1), Option.filter_some_neg (Bool.eq_false_iff.mpr hword.2)]
    rfl

/-- What the statement lacks in front of the number. -/
theorem exists_opening (ho : e.op.isBinary = true ∨ e.op.isAssignment = true) :
    ∃ fill, Node.Opening fill (e.lead.map Token.ofView) := by
  unfold lead
  cases e.defines with
  | true => exact ⟨_, .definition rfl rfl rfl ho⟩
  | false =>
    have hname : (Token.ofView (.ident, e.name)).kind = .ident := rfl
    have hop : (Token.ofView (.op e.op, e.op.text)).kind = .op e.op := rfl
    obtain ⟨fill, bound, hunfinished⟩ := Node.exists_unfinished hname hop ho 197
    exact ⟨fill, .expression hunfinished⟩

end NegativeEnding

/-! ## Programs -/

namespace NegativeEnding

variable {e : NegativeEnding} {file : String} {before behind : Source}

/-- The tokens of the statement look like this between the texts around it. -/
theorem sees_letters (hminus : e.op ≠ .minus) (hdot : e.op ≠ .dot) (spaced : Bool) (file : String) :
    Source.Sees (e.letters spaced) file (e.lead ++ e.number spaced ++ [(TokenKind.newline, "\n")]) := by
  obtain ⟨tokens, htokens, hview⟩ := tokens_letters hminus hdot spaced file
  exact ⟨tokens, htokens, by rw [hview]; simp⟩

/-- What is seen of the tokens of a whole text, with the statement between others. -/
def seen (e : NegativeEnding) (front rear : List (TokenKind × String)) (spaced : Bool) : List (TokenKind × String) :=
  front ++ (e.lead ++ e.number spaced ++ [(TokenKind.newline, "\n")]) ++ rear ++ [(TokenKind.eof, "")]

section
variable {front rear : List (TokenKind × String)}

theorem noEof_lead : NoEof (e.lead.map Token.ofView) := by
  have hkinds : ∀ v ∈ e.lead, v.1 ≠ .eof := by
    unfold lead
    cases e.defines <;> simp
  intro t ht
  obtain ⟨v, hv, rfl⟩ := List.mem_map.mp ht
  exact hkinds v hv

theorem seen_apart (hdigits : e.digits ≠ "") :
    (e.seen front rear false).map Token.ofView = front.map Token.ofView ++
      (e.lead.map Token.ofView ++ Token.ofView (.op .minus, "-") :: .ofView (.int, e.digits) ::
        .ofView (TokenKind.newline, "\n") :: rear.map Token.ofView) ++ [Token.eof {}] := by
  simp [seen, number, hdigits]
  rfl

theorem seen_signed (hdigits : e.digits ≠ "") :
    (e.seen front rear true).map Token.ofView = front.map Token.ofView ++
      (e.lead.map Token.ofView ++ Token.ofView (.int, "-" ++ e.digits) ::
        .ofView (TokenKind.newline, "\n") :: rear.map Token.ofView) ++ [Token.eof {}] := by
  simp [seen, number, hdigits]
  rfl

/-- A program with the minus apart is compiled to the same code as one with a signed number. -/
theorem compile_seen {files : FileTree} {session after : Session} {code : Code}
    (hfront : NoEof (front.map Token.ofView)) (hends : EndsLine (front.map Token.ofView))
    (hclean : (Program.ofTokens (front.map Token.ofView ++ [Token.eof {}])).errors = [])
    (hrear : NoEof (rear.map Token.ofView)) (ho : e.op.isBinary = true ∨ e.op.isAssignment = true)
    (hdigits : e.digits ≠ "") (hleast : Decimal.readInt? e.digits ≠ some (Number.twoTo 63)) :
    ((Program.ofTokens ((e.seen front rear true).map Token.ofView)).errors = [] ∧ session.compile files false
          ⟨file, (Program.ofTokens ((e.seen front rear true).map Token.ofView)).program.body⟩ [] =
            (.ok code, after)) ↔ (Program.ofTokens ((e.seen front rear false).map Token.ofView)).errors = [] ∧
        session.compile files false
          ⟨file, (Program.ofTokens ((e.seen front rear false).map Token.ofView)).program.body⟩ [] =
            (.ok code, after) := by
  obtain ⟨fill, hopening⟩ := exists_opening ho
  have hopposed := opposed hdigits hleast
  have hbehind : NoEof (Token.ofView (.newline, "\n") :: rear.map Token.ofView) := hrear.cons (by simp [Token.ofView])
  have hread := Program.ofTokens_ending hfront hends hclean hopening hopposed noEof_lead hbehind
    (by rintro t ⟨⟩; rfl)
  rw [← seen_apart hdigits, ← seen_signed hdigits] at hread
  rcases hread with ⟨herrors, herrors'⟩ | ⟨n, n', more, hn, herrors, hbody, hbody'⟩
  · exact iff_of_false (fun h => herrors' h.1) fun h => herrors h.1
  · rw [herrors]
    generalize (Program.ofTokens ((e.seen front rear false).map Token.ofView)).program.body = body at hbody ⊢
    generalize (Program.ofTokens ((e.seen front rear true).map Token.ofView)).program.body = body' at hbody' ⊢
    subst hbody hbody'
    refine and_congr_right fun _ => Iff.symm (Session.compile_abreast ?_ rfl rfl fun s hs => ?_)
    · rfl
    · exact hn.abreast hopening hopposed hs

end

/-- Behind an operator other than a minus, a space in front of a negative number does not matter: the text is
compiled to the same code with the space and without, or in neither way. -/
theorem compileSource_spaced {files : FileTree} {options : CompileOptions} (hquiet : options.annotate = false)
    (hstandard : options.builtins = .standard) (hbefore : before.Fronts file) (hbehind : behind.Follows)
    (ho : e.op.isBinary = true ∨ e.op.isAssignment = true) (hminus : e.op ≠ .minus)
    (hleast : Decimal.readInt? e.digits ≠ some (Number.twoTo 63)) :
    (compileSource files options (before ++ e.letters true ++ behind) file).toOption =
      (compileSource files options (before ++ e.letters false ++ behind) file).toOption := by
  have hdot : e.op ≠ .dot := by
    rintro hop
    rw [hop] at ho
    exact absurd ho (by decide)
  obtain ⟨front, hfront, hends, hclean, hjoin⟩ := hbefore.exists_sees
  have hsees : ∀ spaced, (before ++ e.letters spaced).Sees file
      (front ++ (e.lead ++ e.number spaced ++ [(TokenKind.newline, "\n")])) :=
    fun spaced => hjoin (sees_letters hminus hdot spaced file)
  rcases hbehind.exists_sees file with ⟨rear, hrear, hjoin'⟩ | hnone
  · obtain ⟨tokens, htokens, hview⟩ := hjoin' (hsees true)
    obtain ⟨tokens', htokens', hview'⟩ := hjoin' (hsees false)
    refine Option.ext fun code => ?_
    rw [toOption_eq_some, toOption_eq_some, compileSource_eq_ok hquiet hstandard htokens hview,
      compileSource_eq_ok hquiet hstandard htokens' hview']
    by_cases hdigits : e.digits = ""
    · simp [number, hdigits]
    · rw [← exists_and_left, ← exists_and_left]
      exact exists_congr fun after => compile_seen hfront hends hclean hrear ho hdigits hleast
  · have hfails : ∀ spaced,
        (compileSource files options (before ++ e.letters spaced ++ behind) file).toOption = none := by
      intro spaced
      unfold compileSource
      cases hp : Program.ofSource (before ++ e.letters spaced ++ behind) file with
      | error e => rfl
      | ok p =>
        obtain ⟨tokens, htokens, -⟩ := Program.ofSource_eq_ok.mp hp
        exact absurd htokens (hnone (hsees spaced) tokens)
    rw [hfails, hfails]

/-- A value that is added to a negative number. -/
def sample : NegativeEnding where
  defines := false
  name := "x"
  blanks := 1
  op := .plusAssign
  digits := "9223372036854775807"
  isName := by decide
  isDigits := by decide

/-- A variable in front of a statement. -/
def sampleFront : Source := Source.ofString "var x = 1"

theorem compileSource_spaced_sample :
    (compileSource {} {} (sampleFront ++ [.char '\n'] ++ sample.letters true ++ []) "main").toOption =
      (compileSource {} {} (sampleFront ++ [.char '\n'] ++ sample.letters false ++ []) "main").toOption := by
  have hread : (Program.ofSource sampleFront "main").toOption.isSome = true := by decide +kernel
  obtain ⟨p, hp⟩ := Option.isSome_iff_exists.mp hread
  refine compileSource_spaced rfl rfl (.inr ⟨_, p, rfl, toOption_eq_some.mp hp⟩) (.inl rfl) (.inr ?_) ?_ ?_
  · decide
  · decide
  · decide

def doubled : NegativeEnding := { sample with op := .minus }

/-- A variable that is the least number of 64 bits. -/
def least : NegativeEnding where
  defines := true
  name := "x"
  blanks := 1
  op := .assign
  digits := "9223372036854775808"
  isName := by decide
  isDigits := by decide

/-- Two minus signs in a row are no difference, and the least number is too large without its sign. -/
theorem compileSource_spaced_least_doubled :
    ((compileSource {} {} (least.letters true) "main").toOption ≠
        (compileSource {} {} (least.letters false) "main").toOption) ∧
      (compileSource {} {} (sampleFront ++ [.char '\n'] ++ doubled.letters true) "main").toOption ≠
        (compileSource {} {} (sampleFront ++ [.char '\n'] ++ doubled.letters false) "main").toOption := by
  have hdiffers : ∀ text text' : Source, (compileSource {} {} text "main").toOption.isSome = true →
      (Program.ofSource text' "main").toOption.isSome = false →
      (compileSource {} {} text "main").toOption ≠ (compileSource {} {} text' "main").toOption := by
    intro text text' haccepted hrefused hsame
    rw [hsame] at haccepted
    unfold compileSource at haccepted
    cases hread : Program.ofSource text' "main" with
    | ok p => rw [hread] at hrefused; cases hrefused
    | error e => rw [hread] at haccepted; cases haccepted
  refine ⟨hdiffers _ _ ?_ (by decide +kernel), hdiffers _ _ ?_ (by decide +kernel)⟩
  · rw [compileSource_named {} Registry.names_standard]
    decide +kernel
  · rw [compileSource_named {} Registry.names_standard]
    decide +kernel

end NegativeEnding

end Frontend
