import Frontend.Proofs.Parse.Balance
import Frontend.Proofs.Repl.Added

/-!
# Finished inputs

An input goes on in the next line as long as a bracket or a string is open in it. Brackets and strings
are found letter by letter there, without the scanner. Both agree on strings with their escapes, on
lexemes and on what stands between them; they do not agree on comments, whose letters count as well.
So an accepted text is a finished input, unless one of its comments looks unfinished.
-/

namespace Frontend

variable {m : OpenMarks} {c : Char} {src : Source} {s : String} {pieces : Pieces}
variable {file : String} {tail : Source} {made : List Token}

/-! ## Marks behind a text -/

namespace OpenMarks

/-- How many brackets of a kind are open. -/
def depth (m : OpenMarks) : Bracket → Int
  | .brace => m.braces
  | .paren => m.parens
  | .square => m.brackets

/-- The marks behind a text. -/
def after (m : OpenMarks) (src : Source) : OpenMarks := (src.map Letter.shown).foldl step m

/-- No string is open. -/
structure Calm (m : OpenMarks) : Prop where
  quote : m.quote = none
  escaped : m.escaped = false

/-- The marks behind a text with the marks `n`, when the brackets of `m` stand in front of it. -/
def plus (m n : OpenMarks) : OpenMarks :=
  { n with
    braces := m.braces + n.braces
    parens := m.parens + n.parens
    brackets := m.brackets + n.brackets }

theorem ofText_shown (src : Source) : ofText src.shown = after {} src := by
  rw [ofText, Source.shown, String.toList_ofList, after]

@[simp] theorem after_nil (m : OpenMarks) : m.after [] = m := rfl

@[simp] theorem after_cons (m : OpenMarks) (l : Letter) (src : Source) :
    m.after (l :: src) = (m.step l.shown).after src := rfl

theorem after_append (m : OpenMarks) (a b : Source) : m.after (a ++ b) = (m.after a).after b := by
  simp [after]

@[simp] theorem depth_plus (m n : OpenMarks) (b : Bracket) : (m.plus n).depth b = m.depth b + n.depth b := by
  cases b <;> rfl

theorem Calm.plus {n : OpenMarks} (h : n.Calm) : (m.plus n).Calm := ⟨h.quote, h.escaped⟩

theorem Calm.plus_start (h : m.Calm) : m.plus {} = m := by
  obtain ⟨braces, parens, brackets, quote, escaped⟩ := m
  obtain ⟨rfl, rfl⟩ := h
  simp [OpenMarks.plus]

/-- Brackets in front of a text do not change what the text does. -/
theorem step_plus (m n : OpenMarks) (c : Char) : (m.plus n).step c = m.plus (n.step c) := by
  obtain ⟨braces, parens, brackets, quote, escaped⟩ := n
  unfold step plus
  dsimp only
  split
  · rfl
  · split
    · split
      · rfl
      · split <;> rfl
    · split <;> simp [Int.add_assoc, Int.sub_eq_add_neg]

theorem after_plus (m n : OpenMarks) (src : Source) : (m.plus n).after src = m.plus (n.after src) := by
  induction src generalizing n with
  | nil => rfl
  | cons l src ih => rw [after_cons, after_cons, step_plus, ih]

/-- Behind a place where no string is open, a text does what it does on its own. -/
theorem Calm.after (h : m.Calm) (src : Source) : m.after src = m.plus (OpenMarks.after {} src) := by
  conv_lhs => rw [← h.plus_start, after_plus]

/-- Whether a character opens or closes something. -/
def isMark (c : Char) : Bool := "\x22\x27\x7b\x7d()[]".toList.contains c

theorem eq_of_isMark (h : isMark c = true) : c = '\x22' ∨ c = '\x27' ∨ c = '\x7b' ∨
    c = '\x7d' ∨ c = '(' ∨ c = ')' ∨ c = '[' ∨ c = ']' := by
  simpa [isMark] using h

theorem Calm.step_of_not_mark (h : m.Calm) (hc : isMark c = false) : m.step c = m := by
  unfold step
  rw [h.escaped, h.quote]
  simp only [Bool.false_eq_true, if_false]
  split <;> first | rfl | exact absurd hc (by decide)

/-- Without marks, a text changes nothing. -/
theorem Calm.after_of_not_mark (h : m.Calm) (hsrc : ∀ l ∈ src, isMark l.shown = false) : m.after src = m := by
  induction src with
  | nil => rfl
  | cons l src ih =>
    obtain ⟨hl, hrest⟩ := List.forall_mem_cons.mp hsrc
    rw [after_cons, h.step_of_not_mark hl, ih hrest]

theorem isUnfinished_eq_false : m.isUnfinished = false ↔ m.quote = none ∧ ∀ b, m.depth b ≤ 0 := by
  unfold isUnfinished
  simp only [Bool.or_eq_false_iff, decide_eq_false_iff_not, Int.not_lt, Option.isSome_eq_false_iff,
    Option.isNone_iff_eq_none]
  constructor
  · rintro ⟨⟨⟨hbraces, hparens⟩, hbrackets⟩, hquote⟩
    exact ⟨hquote, fun b => by cases b <;> assumption⟩
  · rintro ⟨hquote, hdepth⟩
    exact ⟨⟨⟨hdepth .brace, hdepth .paren⟩, hdepth .square⟩, hquote⟩

/-- A backslash is looked behind only inside of a string. -/
theorem calm_of_quote (h : (after {} src).quote = none) : (after {} src).Calm := by
  have keep : ∀ (src : Source) (m : OpenMarks), (m.escaped = true → m.quote.isSome = true) →
      (m.after src).escaped = true → (m.after src).quote.isSome = true := by
    intro src
    induction src with
    | nil => exact fun m hm => hm
    | cons l src ih =>
      intro m hm
      rw [after_cons]
      refine ih _ ?_
      unfold step
      split
      · exact nofun
      next hescaped =>
        split
        next q hq =>
          split
          · exact fun _ => by simp [hq]
          · split <;> intro hm' <;> exact absurd hm' hescaped
        next => split <;> intro hm' <;> exact absurd hm' hescaped
  refine ⟨h, ?_⟩
  have hsome := keep src {} (by simp)
  rw [h] at hsome
  simpa using hsome

end OpenMarks

/-! ## Marks behind a piece -/

namespace TokenKind

theorem isMark_of_lexemeChar (h : isNameChar c = true ∨ isOperatorChar c = true) : OpenMarks.isMark c = false := by
  refine Bool.eq_false_iff.mpr fun hmark => ?_
  obtain rfl | rfl | rfl | rfl | rfl | rfl | rfl | rfl := OpenMarks.eq_of_isMark hmark <;>
    exact absurd h (by decide)

/-- Of all lexemes only brackets open or close anything. -/
theorem turn_of_classify (hd : ofDelimiter? s = none) (b : Bracket) : (classify s).turn b = 0 := by
  have hwords : ∀ e ∈ words, e.2.turn .paren = 0 ∧ e.2.turn .square = 0 ∧ e.2.turn .brace = 0 := by decide
  have hkind := classifiedAs s
  generalize classify s = k at hkind ⊢
  cases hkind with
  | delimiter h => cases hd.symm.trans h
  | word h =>
    obtain ⟨hparen, hsquare, hbrace⟩ := hwords _ h
    cases b <;> assumption
  | _ => rfl

end TokenKind

/-- The text of a lexeme opens and closes what its token does. -/
theorem OpenMarks.after_lexeme {text : String} (h : TokenKind.classify text ≠ .illegal) :
    (after {} (.ofString text)).Calm ∧
      ∀ b, (after {} (.ofString text)).depth b = (TokenKind.classify text).turn b := by
  cases hd : TokenKind.ofDelimiter? text with
  | none =>
    have htext := TokenKind.lexemeChar_of_classify h hd
    have hstart : Calm {} := ⟨rfl, rfl⟩
    rw [hstart.after_of_not_mark fun l hl => ?_]
    · exact ⟨hstart, fun b => by rw [TokenKind.turn_of_classify hd]; cases b <;> rfl⟩
    · obtain ⟨c, hc, rfl⟩ := List.mem_map.mp hl
      exact TokenKind.isMark_of_lexemeChar (htext c hc)
  | some k =>
    rw [TokenKind.classify_of_delimiter hd]
    unfold TokenKind.ofDelimiter? at hd
    split at hd <;> cases hd <;> exact ⟨⟨by decide, by decide⟩, fun b => by cases b <;> decide⟩

/-- A string is closed where it ends. -/
theorem OpenMarks.Calm.after_quoted (h : m.Calm) {quote : Char} {body : Source} {value : List Char}
    (hquote : quote = '\x22' ∨ quote = '\x27') (hbody : Unescapes quote body value) :
    m.after (Letter.char quote :: body ++ [Letter.char quote]) = m := by
  have hopen : m.step quote = { m with quote := some quote } := by
    unfold step
    rw [h.escaped, h.quote]
    obtain rfl | rfl := hquote <;> rfl
  have hinside : OpenMarks.after { m with quote := some quote } body =
      { m with quote := some quote } := by
    have hslash : ('\\' == quote) = false := by obtain rfl | rfl := hquote <;> decide
    induction hbody with
    | nil => rfl
    | @letter l body value hne hback _ ih =>
      have hne' : (l.shown == quote) = false ∧ (l.shown == '\\') = false := by
        cases l with
        | char c => simpa [Letter.shown] using And.intro hne hback
        | stray b =>
          rw [Letter.shown]
          obtain rfl | rfl := hquote <;> decide
      have hsame : step { m with quote := some quote } l.shown = { m with quote := some quote } := by
        simp [step, h.escaped, hne']
      rw [after_cons, hsame, ih]
    | escape he _ ih =>
      have hsame : ∀ c, step (step { m with quote := some quote } '\\') c =
          { m with quote := some quote } := by
        intro c
        obtain ⟨braces, parens, brackets, quote', escaped⟩ := m
        obtain ⟨rfl, rfl⟩ := h
        simp [step]
      rw [after_cons, after_cons, Letter.shown, hsame, ih]
  have hclose : step { m with quote := some quote } quote = m := by
    obtain ⟨braces, parens, brackets, quote', escaped⟩ := m
    obtain ⟨rfl, rfl⟩ := h
    obtain rfl | rfl := hquote <;> rfl
  rw [List.cons_append, after_cons, Letter.shown, hopen, after_append, hinside, after_cons,
    Letter.shown, hclose, after_nil]

/-! ## Marks behind a text of pieces -/

namespace Piece

def comment? (p : Piece) : Option Source :=
  match p with
  | lineComment _ | blockComment _ => some p.source
  | _ => none

/-- What a piece changes in the number of open brackets, as its token tells. -/
def turn (p : Piece) (b : Bracket) : Int :=
  match p with
  | lexeme text => (TokenKind.classify text).turn b
  | _ => 0

theorem excess_broken (b : Bracket) (pos : Position) (made : List Token) :
    Token.excess b (broken pos made) = Token.excess b made := by
  cases made with
  | nil => rfl
  | cons t made =>
    unfold broken
    dsimp only
    split
    · rfl
    · rw [Token.excess_cons]
      exact Int.zero_add _

theorem excess_extend (p : Piece) (b : Bracket) (pos : Position) (made : List Token) :
    Token.excess b (p.extend pos made) = p.turn b + Token.excess b made := by
  cases p with
  | blank | blockComment => simp [extend, turn]
  | separator | lineComment => simp [extend, turn, excess_broken]
  | lexeme text => rw [extend, Token.excess_cons]; rfl
  | quoted quote body value => rw [extend, Token.excess_cons]; rfl

/-- The text of a piece that is no comment opens and closes what its token does. -/
theorem after_of_not_comment {p : Piece} (hp : p.WellFormed) (hc : p.comment? = none) :
    (OpenMarks.after {} p.source).Calm ∧ ∀ b, (OpenMarks.after {} p.source).depth b = p.turn b := by
  have hstart : OpenMarks.Calm {} := ⟨rfl, rfl⟩
  have hquiet : OpenMarks.after {} p.source = {} → (∀ b, p.turn b = 0) →
      (OpenMarks.after {} p.source).Calm ∧
        ∀ b, (OpenMarks.after {} p.source).depth b = p.turn b := by
    intro h hturn
    rw [h]
    exact ⟨hstart, fun b => by rw [hturn]; cases b <;> rfl⟩
  have hsingle : ∀ c, OpenMarks.isMark c = false → OpenMarks.after {} [.char c] = {} := by
    intro c hc
    exact hstart.after_of_not_mark fun l hl => by rwa [List.mem_singleton.mp hl]
  cases p with
  | blank c =>
    refine hquiet (hsingle c (Bool.eq_false_iff.mpr fun hmark => ?_)) fun _ => rfl
    obtain rfl | rfl | rfl | rfl | rfl | rfl | rfl | rfl := OpenMarks.eq_of_isMark hmark <;>
      exact absurd hp (by simp only [WellFormed]; decide)
  | separator c =>
    refine hquiet (hsingle c ?_) fun _ => rfl
    obtain rfl | rfl := hp <;> decide
  | lineComment | blockComment => cases hc
  | lexeme text => exact OpenMarks.after_lexeme hp.1
  | quoted quote body value => exact hquiet (hstart.after_quoted hp.1 hp.2) fun _ => rfl

end Piece

namespace Pieces

/-- The comments of a text of pieces, last first, and what stands behind its last piece. -/
def comments (pieces : Pieces) (tail : Source) : List Source :=
  tail :: pieces.filterMap Piece.comment?

/-- How far the comments among pieces open more brackets of a kind than they close. -/
def commentDepth (pieces : Pieces) (b : Bracket) : Int :=
  ((pieces.filterMap Piece.comment?).map fun c => (OpenMarks.after {} c).depth b).sum

theorem commentDepth_nonpos (h : ∀ c ∈ pieces.filterMap Piece.comment?, ∀ b, (OpenMarks.after {} c).depth b ≤ 0)
    (b : Bracket) : pieces.commentDepth b ≤ 0 := by
  unfold commentDepth
  generalize pieces.filterMap Piece.comment? = cs at h ⊢
  induction cs with
  | nil => exact Int.le_refl 0
  | cons c cs ih =>
    obtain ⟨hc, hcs⟩ := List.forall_mem_cons.mp h
    have hsum := ih hcs
    have hfirst := hc b
    rw [List.map_cons, List.sum_cons]
    omega

/-- As long as no comment leaves a string open, brackets are open behind pieces as far as tokens and
comments open them. -/
theorem after_source (file : String) (hwell : ∀ p ∈ pieces, p.WellFormed)
    (hcomments : ∀ c ∈ pieces.filterMap Piece.comment?, (OpenMarks.after {} c).quote = none) :
    (OpenMarks.after {} pieces.source).Calm ∧ ∀ b, (OpenMarks.after {} pieces.source).depth b =
      Token.excess b (pieces.tokens file) + pieces.commentDepth b := by
  induction pieces with
  | nil => exact ⟨⟨rfl, rfl⟩, fun b => by cases b <;> rfl⟩
  | cons p before ih =>
    obtain ⟨hp, hbefore⟩ := List.forall_mem_cons.mp hwell
    have hsource : source (p :: before) = source before ++ p.source := rfl
    have htokens : tokens file (p :: before) = p.extend (place file before) (tokens file before) := rfl
    cases hc : p.comment? with
    | none =>
      rw [List.filterMap_cons_none hc] at hcomments
      obtain ⟨hcalm, hdepth⟩ := ih hbefore hcomments
      obtain ⟨hpcalm, hpdepth⟩ := p.after_of_not_comment hp hc
      rw [hsource, OpenMarks.after_append, hcalm.after]
      refine ⟨hpcalm.plus, fun b => ?_⟩
      rw [OpenMarks.depth_plus, hdepth, hpdepth, htokens, Piece.excess_extend, commentDepth,
        commentDepth, List.filterMap_cons_none hc]
      omega
    | some c =>
      rw [List.filterMap_cons_some hc] at hcomments
      obtain ⟨hquote, hothers⟩ := List.forall_mem_cons.mp hcomments
      obtain ⟨hcalm, hdepth⟩ := ih hbefore hothers
      obtain ⟨rfl, hturn⟩ : c = p.source ∧ ∀ b, p.turn b = 0 := by
        cases p with
        | lineComment | blockComment => exact ⟨(Option.some.inj hc).symm, fun _ => rfl⟩
        | blank | separator | lexeme | quoted => cases hc
      rw [hsource, OpenMarks.after_append, hcalm.after]
      refine ⟨(OpenMarks.calm_of_quote hquote).plus, fun b => ?_⟩
      rw [OpenMarks.depth_plus, hdepth, htokens, Piece.excess_extend, hturn, commentDepth,
        commentDepth, List.filterMap_cons_some hc, List.map_cons, List.sum_cons]
      omega

theorem excess_tokens (h : MakeUp file src made pieces tail) (b : Bracket) :
    Token.excess b made = Token.excess b (pieces.tokens file) := by
  rw [h.tokens_eq, Token.excess_append, Token.excess_reverse, Piece.excess_broken, Token.excess_cons,
    Token.excess_nil]
  exact Int.add_zero _

/-- If as many brackets are closed as opened among its tokens, and none of its comments looks
unfinished, a text does not look unfinished. -/
theorem not_needsMore (h : MakeUp file src made pieces tail) (heven : ∀ b, Token.excess b made = 0)
    (hcomments : ∀ c ∈ pieces.comments tail, Repl.needsMore c.shown = false) :
    Repl.needsMore src.shown = false := by
  have hfinished : ∀ c ∈ pieces.comments tail, (OpenMarks.after {} c).quote = none ∧
      ∀ b, (OpenMarks.after {} c).depth b ≤ 0 := by
    intro c hc
    have hcomment := hcomments c hc
    rwa [Repl.needsMore, OpenMarks.ofText_shown, OpenMarks.isUnfinished_eq_false] at hcomment
  obtain ⟨⟨htail, htailDepth⟩, hinner⟩ := List.forall_mem_cons.mp hfinished
  obtain ⟨hcalm, hdepth⟩ := after_source file h.wellFormed fun c hc => (hinner c hc).1
  have hcommentDepth := commentDepth_nonpos fun c hc => (hinner c hc).2
  rw [Repl.needsMore, OpenMarks.ofText_shown, OpenMarks.isUnfinished_eq_false, ← h.source,
    OpenMarks.after_append, hcalm.after]
  refine ⟨htail, fun b => ?_⟩
  rw [OpenMarks.depth_plus, hdepth, ← excess_tokens h, heven]
  have := hcommentDepth b
  have := htailDepth b
  omega

end Pieces

/-! ## Accepted texts -/

namespace Dialogue

def gathered (d : Dialogue) (line : String) : String :=
  if d.pending.isEmpty then line else d.pending ++ "\n" ++ line

/-- The answer to an input that does not go on in the next line. -/
def submit (d : Dialogue) (files : FileTree) (input : String) : DialogueTurn :=
  let d := { d with pending := "" }
  if (Text.trim input).isEmpty then { next := d }
  else
    let (history, remembered) := remember d.history input
    let (next, output, _) := { d with history }.execute files input
    { next, output, remembered }

theorem takeLine_eq (d : Dialogue) (files : FileTree) (line : String) : d.takeLine files line =
      if Repl.needsMore (d.gathered line) then { next := { d with pending := d.gathered line } }
      else d.submit files (d.gathered line) := rfl

/-- An accepted text is cut into pieces, and if none of its comments looks unfinished, then it is
answered as soon as its last line is there. -/
theorem takeLine_of_accepted {src : Source} {file : String} {p : Program}
    (h : Program.ofSource src file = .ok p) :
    ∃ tokens, src.tokens file = .ok tokens ∧ (∃ pieces tail, Pieces.MakeUp file src tokens pieces tail) ∧
      ∀ pieces tail, Pieces.MakeUp file src tokens pieces tail →
        (∀ c ∈ pieces.comments tail, Repl.needsMore c.shown = false) →
        Repl.needsMore src.shown = false ∧
          ∀ (d : Dialogue) (files : FileTree) (line : String), d.gathered line = src.shown →
            d.takeLine files line = d.submit files src.shown := by
  obtain ⟨tokens, htokens, hclean, -⟩ := Program.ofSource_eq_ok.mp h
  refine ⟨tokens, htokens, Source.exists_makeUp htokens, fun pieces tail hmade hcomments => ?_⟩
  have hfinished := Pieces.not_needsMore hmade (Source.excess_of_accepted htokens hclean) hcomments
  refine ⟨hfinished, fun d files line hline => ?_⟩
  rw [takeLine_eq, hline, hfinished, if_neg Bool.false_ne_true]

/-- A string with a bracket and an escaped quote in it, and a comment with brackets. -/
def sampleText : String := "sout(\"[\\\"\") // (1)"

theorem takeLine_sampleText :
    (∃ p, Program.ofSource (.ofString sampleText) Repl.inputName = .ok p) ∧
      ∀ files : FileTree, ({} : Dialogue).takeLine files sampleText = ({} : Dialogue).submit files sampleText := by
  have haccepted : (Program.ofSource (.ofString sampleText) Repl.inputName).toOption.any
      (fun _ => true) = true := by
    decide +kernel
  obtain ⟨p, hp, -⟩ := exists_ok_of_any haccepted
  obtain ⟨tokens, htokens, -, hsubmits⟩ := takeLine_of_accepted hp
  let body : Source := [.char '[', .char '\\', .char '\x22']
  let pieces : Pieces := [.blank ' ', .lexeme ")", .quoted '\x22' body ['[', '\x22'], .lexeme "(",
    .lexeme "sout"]
  let tail : Source := .ofString "// (1)"
  have hmade : Pieces.MakeUp Repl.inputName (.ofString sampleText) tokens pieces tail := by
    refine ⟨?_, .inr ⟨.ofString " (1)", by decide, by decide⟩, by decide, ?_⟩
    · have hbody : Unescapes '\x22' body ['[', '\x22'] :=
        .letter (by decide) (by decide) (.escape (by decide) .nil)
      simp only [pieces, List.forall_mem_cons]
      exact ⟨.inl rfl, ⟨by decide, by decide⟩, ⟨.inl rfl, hbody⟩, ⟨by decide, by decide⟩,
        ⟨by decide, by decide⟩, nofun⟩
    · have hread : (Source.ofString sampleText).tokens Repl.inputName = .ok
          ((Piece.broken ((pieces.place Repl.inputName).behind tail)
            (pieces.tokens Repl.inputName)).reverse ++
            [Token.eof ((pieces.place Repl.inputName).behind tail)]) := by
        decide +kernel
      exact Except.ok.inj (htokens.symm.trans hread)
  obtain ⟨-, hline⟩ := hsubmits pieces tail hmade (by decide)
  exact ⟨⟨p, hp⟩, fun files => hline {} files sampleText (by decide)⟩

/-- A comment with an apostrophe behind a definition. -/
def apostropheText : String := "var x = 1 // it's"

/-- The text is accepted, but the apostrophe in the comment is taken for the beginning of a string: the
next line is asked for. -/
theorem takeLine_apostropheText :
    (∃ p, Program.ofSource (.ofString apostropheText) Repl.inputName = .ok p) ∧
      Repl.needsMore apostropheText = true ∧
      ∀ files : FileTree, ({} : Dialogue).takeLine files apostropheText =
        { next := { pending := apostropheText } } := by
  have hmore : Repl.needsMore apostropheText = true := by decide
  refine ⟨?_, hmore, fun files => ?_⟩
  · have haccepted : (Program.ofSource (.ofString apostropheText) Repl.inputName).toOption.any
        (fun _ => true) = true := by
      decide +kernel
    obtain ⟨p, hp, -⟩ := exists_ok_of_any haccepted
    exact ⟨p, hp⟩
  · have hgathered : ({} : Dialogue).gathered apostropheText = apostropheText := rfl
    rw [takeLine_eq, hgathered, hmore, if_pos rfl]

end Dialogue

end Frontend
