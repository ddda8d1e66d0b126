import Frontend.Proofs.Token.Join

/-!
# Cutting a source text

A source text is made up of pieces: blanks, separators, comments, lexemes and strings, and behind the
last piece there may be a comment that no newline ends. The tokens follow from the pieces alone: each
lexeme and each string is a token that stands where the piece begins, and a separator or the end of a
line comment breaks the line.

The scanner cuts every text that it accepts into pieces. At any time some pieces lie behind it, and
what it has read since then is the beginning of one more; each letter goes on with that piece, or ends
it. No letter is lost, and the tokens are those of the pieces.
-/

namespace Frontend

variable {p : Piece} {c : Char}

/-! ## The pieces of a source text -/

/-- What stands between the quotes of a string, and the text that the string denotes. No quote of the
string's kind stands in between, unless it is escaped. A byte that belongs to no character denotes the
replacement character. -/
inductive Unescapes (quote : Char) : Source → List Char → Prop where
  | nil : Unescapes quote [] []
  | letter {l : Letter} {body : Source} {value : List Char} (hquote : l ≠ .char quote)
      (hslash : l ≠ .char '\\') (h : Unescapes quote body value) :
      Unescapes quote (l :: body) (l.shown :: value)
  | escape {e : Letter} {c : Char} {body : Source} {value : List Char}
      (he : Scanner.unescape e.shown = some c) (h : Unescapes quote body value) :
      Unescapes quote (.char '\\' :: e :: body) (c :: value)

theorem Unescapes.append {quote : Char} {a b : Source} {v w : List Char} (h : Unescapes quote a v)
    (h' : Unescapes quote b w) : Unescapes quote (a ++ b) (v ++ w) := by
  induction h with
  | nil => exact h'
  | letter hquote hslash _ ih => exact .letter hquote hslash ih
  | escape he _ ih => exact .escape he ih

/-- A stretch of a source text that the scanner takes as a whole. -/
inductive Piece where
  | blank (c : Char)
  | separator (c : Char)
  /-- A comment up to the end of its line, and the newline. -/
  | lineComment (body : Source)
  | blockComment (body : Source)
  | lexeme (text : String)
  /-- A string: its quote, what stands between the quotes, and the text that it denotes. -/
  | quoted (quote : Char) (body : Source) (value : List Char)

/-- The beginning of a line comment. -/
def lineOpener : Source := [.char '/', .char '/']

/-- The beginning of a block comment. -/
def blockOpener : Source := [.char '/', .char '*']

/-- The end of a block comment. -/
def blockCloser : Source := [.char '*', .char '/']

namespace Piece

def source : Piece → Source
  | blank c | separator c => [.char c]
  | lineComment body => lineOpener ++ body ++ [Letter.char '\n']
  | blockComment body => blockOpener ++ body ++ blockCloser
  | lexeme text => .ofString text
  | quoted quote body _ => Letter.char quote :: body ++ [Letter.char quote]

/-- What the text of a piece may hold. -/
def WellFormed : Piece → Prop
  | blank c => c = ' ' ∨ (c.toNat < 0x20 ∧ c.toNat ≠ 0 ∧ c ≠ '\n')
  | separator c => c = '\n' ∨ c = ';'
  | lineComment body => .char '\n' ∉ body
  | blockComment body => ¬ blockCloser <:+: body
  | lexeme text => TokenKind.classify text ≠ .illegal ∧ TokenKind.classify text ≠ .newline
  | quoted quote body value => (quote = '\x22' ∨ quote = '\x27') ∧ Unescapes quote body value

def isWritten : Piece → Bool
  | lexeme _ | quoted .. => true
  | _ => false

def breaksLine : Piece → Bool
  | separator _ | lineComment _ => true
  | _ => false

/-- A line break behind the tokens made so far, last first. There is none at the beginning, and none
behind another one. -/
def broken (pos : Position) : List Token → List Token
  | [] => []
  | t :: made => if t.kind == .newline then t :: made else .newline pos :: t :: made

/-- The tokens behind a piece that stands at a position, given those in front of it. -/
def extend (p : Piece) (pos : Position) (made : List Token) : List Token :=
  match p with
  | blank _ | blockComment _ => made
  | separator _ => broken pos made
  | lineComment body => broken (pos.behind (lineOpener ++ body)) made
  | lexeme text => .ofText text pos :: made
  | quoted _ _ value => .ofString (String.ofList value) pos :: made

end Piece

/-- The pieces of a text, last first. -/
abbrev Pieces := List Piece

namespace Pieces

/-- The text that the pieces make up. -/
def source : Pieces → Source
  | [] => []
  | p :: before => source before ++ p.source

/-- The position behind the last piece. -/
def place (file : String) : Pieces → Position
  | [] => (Scanner.start file).place
  | p :: before => (place file before).behind p.source

/-- The tokens of the pieces, last first. -/
def tokens (file : String) : Pieces → List Token
  | [] => []
  | p :: before => p.extend (place file before) (tokens file before)

/-- What may stand behind the last piece: nothing, or a comment that no newline ends. -/
def Trailer (tail : Source) : Prop := tail = [] ∨ ∃ body, tail = lineOpener ++ body ∧ .char '\n' ∉ body

/-- Pieces and what stands behind the last one make up a whole text, and the tokens follow from them:
those of the pieces, a line break, and the end of input. -/
structure MakeUp (file : String) (text : Source) (tokens : List Token) (pieces : Pieces)
    (tail : Source) : Prop where
  wellFormed : ∀ p ∈ pieces, p.WellFormed
  trailer : Trailer tail
  source : pieces.source ++ tail = text
  tokens_eq : tokens = (Piece.broken ((pieces.place file).behind tail) (pieces.tokens file)).reverse ++
    [Token.eof ((pieces.place file).behind tail)]

end Pieces

theorem Position.behind_append (p : Position) (a b : Source) :
    p.behind (a ++ b) = (p.behind a).behind b := List.foldl_append

theorem Position.offset_behind (p : Position) (src : Source) : (p.behind src).offset = p.offset + src.byteSize := by
  induction src generalizing p with
  | nil => simp [behind]
  | cons l src ih =>
    have hstep : p.behind (l :: src) = (p.after l).behind src := rfl
    rw [hstep, ih, Source.byteSize_cons]
    unfold after
    split <;> simp only <;> omega

/-! ## Scanning piece by piece -/

namespace TokenKind

theorem classify_of_operator {s : String} {o : Operator} (h : Operator.ofText? s = some o) :
    classify s = .op o := by
  have hall : ∀ e ∈ Operator.table, classify e.1 = .op e.2 := by decide
  obtain ⟨front, back, htable, -⟩ := List.lookup_eq_some_iff.mp h
  exact hall (s, o) (by simp [htable])

theorem classify_of_delimiter {s : String} {k : TokenKind} (h : ofDelimiter? s = some k) : classify s = k := by
  have hne : s ≠ "" := by
    rintro rfl
    cases h
  have hempty : s.isEmpty = false := by simpa using hne
  unfold classify
  rw [hempty, h]
  rfl

theorem ofDelimiter?_ne {s : String} {k : TokenKind} (h : ofDelimiter? s = some k) (hs : s ≠ "\n") :
    k ≠ .illegal ∧ k ≠ .newline := by
  unfold ofDelimiter? at h
  split at h <;> cases h <;> first | exact absurd rfl hs | simp

/-- No lexeme breaks a line. -/
theorem ne_break_of_classify {text : String} (h : classify text ≠ .illegal) (hnewline : classify text ≠ .newline) :
    ∀ c ∈ text.toList, c ≠ '\n' ∧ c ≠ '\r' := by
  cases hd : ofDelimiter? text with
  | none =>
    intro c hc
    have hchar := lexemeChar_of_classify h hd c hc
    constructor
    all_goals
      rintro rfl
      exact absurd hchar (by decide)
  | some k =>
    unfold ofDelimiter? at hd
    split at hd
    all_goals first | exact absurd rfl hnewline | cases hd; done | decide

/-- Only the line break itself is classified as one. -/
theorem eq_of_classify {text : String} (h : classify text = .newline) : text = "\n" := by
  have hwords : ∀ e ∈ words, e.2 ≠ .newline := by decide
  have hkind := classifiedAs text
  rw [h] at hkind
  cases hkind with
  | delimiter hk =>
    unfold ofDelimiter? at hk
    split at hk <;> first | rfl | cases hk
  | word hk => exact absurd rfl (hwords _ hk)

end TokenKind

namespace Scanner

open TokenKind

variable {file : String} {text : Source} {s t : Scanner} {done : Pieces} {pending rest : Source}
  {l : Letter} {next : Option Letter} {r : Scanner × Bool}

theorem breakLine_eq_broken (s : Scanner) (pos : Position) :
    s.breakLine pos = { s with made := Piece.broken pos s.made } := by
  rcases s with ⟨place, mode, lineSoFar, gathered, lexemePos, sign, signPos, made⟩
  cases made with
  | nil => rfl
  | cons t made =>
    unfold Scanner.breakLine Piece.broken
    dsimp only
    split <;> rfl

/-- The scanner has read some pieces of a text, nothing is pending, and the rest of the text is still
to be read. -/
structure Stands (file : String) (text : Source) (s : Scanner) (done : Pieces) (rest : Source) :
    Prop where
  wellFormed : ∀ p ∈ done, p.WellFormed
  source : done.source ++ rest = text
  made : s.made = done.tokens file
  place : s.place = done.place file
  gathered : s.gathered = []
  sign : s.sign = ""

/-- What was read of a lexeme or an operator that begins at a position. Never are both pending at
once. -/
inductive Partial (s : Scanner) (start : Position) : Source → Prop where
  | nothing (hgathered : s.gathered = []) (hsign : s.sign = "") : Partial s start []
  | lexeme (hgathered : s.gathered ≠ []) (hline : '\n' ∉ s.gathered) (hsign : s.sign = "")
      (hpos : s.lexemePos = start) : Partial s start (.ofString s.lexeme)
  | sign (hgathered : s.gathered = []) (hsign : s.sign ≠ "") (hpos : s.signPos = start) :
      Partial s start (.ofString s.sign)

/-- What the scanner has read behind the last piece, given what is still to be read. -/
inductive Pending (s : Scanner) (start : Position) (rest : Source) : Source → Prop where
  | plain {pending : Source} (hmode : s.mode = .plain) (h : Partial s start pending) :
      Pending s start rest pending
  /-- The second slash of a line comment is read after the scanner knows of the comment. -/
  | lineComment {pending : Source} (hmode : s.mode = .lineComment) (hgathered : s.gathered = [])
      (hsign : s.sign = "") (hopen : lineOpener <+: pending ++ rest) (hne : pending ≠ [])
      (hline : .char '\n' ∉ pending) : Pending s start rest pending
  | blockComment {opened : Position} {body : Source} (hmode : s.mode = .blockComment opened)
      (hgathered : s.gathered = []) (hsign : s.sign = "")
      (hopen : ¬ blockCloser <:+: body ++ rest.head?.toList) :
      Pending s start rest (blockOpener ++ body)
  /-- Only at the end of the text may an escape be cut off. -/
  | quoted {quote : Char} {body : Source} (hmode : s.mode = .quoted quote start)
      (hquote : quote = '\x22' ∨ quote = '\x27') (hsign : s.sign = "")
      (hbody : Unescapes quote body s.gathered.reverse ∨ rest = []) :
      Pending s start rest (.char quote :: body)

theorem Pending.partial {start : Position} (h : Pending s start rest pending)
    (hmode : s.mode = .plain) : Partial s start pending := by
  cases h with
  | plain _ h => exact h
  | lineComment hcomment => exact absurd (hmode.symm.trans hcomment) (by simp)
  | blockComment hcomment => exact absurd (hmode.symm.trans hcomment) (by simp)
  | quoted hquoted => exact absurd (hmode.symm.trans hquoted) (by simp)

/-- The scanner has read some pieces of a text and something behind them. -/
structure HasRead (file : String) (text : Source) (s : Scanner) (done : Pieces)
    (pending rest : Source) : Prop where
  wellFormed : ∀ p ∈ done, p.WellFormed
  source : done.source ++ (pending ++ rest) = text
  made : s.made = done.tokens file
  place : s.place = (done.place file).behind pending
  pending : Pending s (done.place file) rest pending

theorem Stands.hasRead (h : Stands file text s done rest) (hmode : s.mode = .plain) :
    HasRead file text s done [] rest :=
  ⟨h.wellFormed, h.source, h.made, h.place, .plain hmode (.nothing h.gathered h.sign)⟩

theorem HasRead.stands (h : HasRead file text s done pending rest) (hmode : s.mode = .plain)
    (hgathered : s.gathered = []) (hsign : s.sign = "") : Stands file text s done rest := by
  have hpending := h.pending.partial hmode
  have hnone : pending = [] := by
    cases hpending with
    | nothing => rfl
    | lexeme hne => exact absurd hgathered hne
    | sign _ hne => exact absurd hsign hne
  subst hnone
  exact ⟨h.wellFormed, h.source, h.made, h.place, hgathered, hsign⟩

theorem stands_start (file : String) (text : Source) : Stands file text (start file) [] text :=
  ⟨fun _ h => absurd h List.not_mem_nil, rfl, rfl, rfl, rfl, rfl⟩

theorem wellFormed_cons (hp : p.WellFormed) (h : ∀ q ∈ done, q.WellFormed) : ∀ q ∈ p :: done, q.WellFormed := by
  intro q hq
  rcases List.mem_cons.mp hq with rfl | hq
  · exact hp
  · exact h q hq

/-- A piece of one letter is read. -/
theorem Stands.advance (h : Stands file text s done (l :: rest)) (hp : p.WellFormed) (hsource : p.source = [l]) :
    Stands file text ({ s with made := p.extend s.place s.made }.advance l) (p :: done) rest := by
  rw [advance_eq]
  refine ⟨wellFormed_cons hp h.wellFormed, ?_, ?_, ?_, h.gathered, h.sign⟩
  · rw [← h.source, Pieces.source, hsource, List.append_assoc]
    rfl
  · rw [h.made, h.place]
    rfl
  · rw [h.place, Pieces.place, hsource]
    rfl

/-! ## Ending what is pending -/

/-- What a flush does to what was read: no letter is lost, and the scanner does not move. -/
structure Flushes (file : String) (text : Source) (s t : Scanner) (rest : Source) : Prop where
  mode : t.mode = .plain
  place : t.place = s.place
  read : ∃ done pending, HasRead file text t done pending rest

theorem HasRead.flushes (h : HasRead file text s done pending rest) (hmode : s.mode = .plain) :
    Flushes file text s s rest := ⟨hmode, rfl, done, pending, h⟩

/-- A lexeme or an operator becomes a piece. -/
theorem HasRead.flushes_lexeme {word : String}
    (h : HasRead file text s done (.ofString word) rest) (hmode : s.mode = .plain)
    (hp : (Piece.lexeme word).WellFormed) : Flushes file text s { s with
      gathered := [], sign := "", made := .ofText word (done.place file) :: s.made } rest := by
  have stands : Stands file text { s with
      gathered := [], sign := "", made := .ofText word (done.place file) :: s.made }
      (.lexeme word :: done) rest := by
    refine ⟨wellFormed_cons hp h.wellFormed, ?_, ?_, h.place, rfl, rfl⟩
    · rw [← h.source, Pieces.source, List.append_assoc]
      rfl
    · rw [h.made]
      rfl
  exact ⟨hmode, rfl, .lexeme word :: done, [], stands.hasRead hmode⟩

section
variable (h : HasRead file text s done pending rest) (hmode : s.mode = .plain)
include h hmode

theorem HasRead.flushLexeme (ht : s.flushLexeme = .ok t) : Flushes file text s t rest := by
  have hpending := h.pending.partial hmode
  unfold Scanner.flushLexeme at ht
  cases hpending with
  | nothing hgathered hsign =>
    rw [if_pos (by simpa using hgathered)] at ht
    cases ht
    exact h.flushes hmode
  | sign hgathered hsign hpos =>
    rw [if_pos (by simpa using hgathered)] at ht
    cases ht
    exact h.flushes hmode
  | lexeme hgathered hline hsign hpos =>
    rw [if_neg (by simpa using hgathered)] at ht
    rcases ite_eq_iff.mp ht with ⟨-, ht⟩ | ⟨hlegal, ht⟩
    · cases ht
    have hkind : classify s.lexeme ≠ .illegal := fun he => hlegal (beq_iff_eq.mpr he)
    have hnewline : classify s.lexeme ≠ .newline := by
      intro hk
      have htext := congrArg String.toList (eq_of_classify hk)
      rw [lexeme, String.toList_ofList] at htext
      exact hline (List.mem_reverse.mp (htext ▸ List.mem_singleton_self _))
    have flushes := h.flushes_lexeme hmode ⟨hkind, hnewline⟩
    rw [← hpos, ← hsign] at flushes
    cases ht
    exact flushes

theorem HasRead.flushSign (ht : s.flushSign = .ok t) : Flushes file text s t rest := by
  have hpending := h.pending.partial hmode
  unfold Scanner.flushSign at ht
  cases hpending with
  | nothing hgathered hsign =>
    rw [if_pos (by simpa using hsign)] at ht
    cases ht
    exact h.flushes hmode
  | lexeme hgathered hline hsign hpos =>
    rw [if_pos (by simpa using hsign)] at ht
    cases ht
    exact h.flushes hmode
  | sign hgathered hsign hpos =>
    rw [if_neg (by simpa using hsign)] at ht
    rcases ite_eq_iff.mp ht with ⟨-, ht⟩ | ⟨hsome, ht⟩
    · cases ht
    obtain ⟨o, ho⟩ : ∃ o, Operator.ofText? s.sign = some o := by
      cases ho : Operator.ofText? s.sign with
      | none => exact absurd (by rw [ho]; rfl) hsome
      | some o => exact ⟨o, rfl⟩
    have hkind := classify_of_operator ho
    have flushes := h.flushes_lexeme hmode ⟨by simp [hkind], by simp [hkind]⟩
    rw [← hpos, ← hgathered] at flushes
    cases ht
    exact flushes

/-- Behind a flush everything that was read is in pieces. -/
theorem HasRead.flush (ht : s.flush = .ok t) :
    t.mode = .plain ∧ t.place = s.place ∧ ∃ done', Stands file text t done' rest := by
  obtain ⟨-, hgathered, hsign⟩ := stays_flush ht
  obtain ⟨u, hu, ht⟩ := bind_ok ht
  obtain ⟨hmode₁, hplace₁, done₁, pending₁, h₁⟩ := h.flushLexeme hmode hu
  obtain ⟨hmode₂, hplace₂, done₂, pending₂, h₂⟩ := h₁.flushSign hmode₁ ht
  exact ⟨hmode₂, hplace₂.trans hplace₁, done₂, h₂.stands hmode₂ hgathered hsign⟩

end

/-! ## One letter -/

/-- Whatever comes of a step, no letter is lost. -/
def Reads (file : String) (text rest : Source) (r : Scanner × Bool) : Prop :=
  ∃ done pending, HasRead file text r.1 done pending (if r.2 then rest.tail else rest)

/-- Nothing but a comment or a string takes in a stray byte. -/
theorem stepPlain_stray (s : Scanner) (b : UInt8) (next : Option Letter) :
    s.stepPlain (.stray b) next = .error (s.fail (.illegalChar replacementChar) s.place) := by
  have hshown : (Letter.stray b).shown = replacementChar := rfl
  have hslash : (replacementChar == '/') = false := by decide
  have hquote : (replacementChar == '\x22' || replacementChar == '\x27') = false := by decide
  have hbreak : (replacementChar == '\n' || replacementChar == ';') = false := by decide
  have hblank : (replacementChar == ' ' ||
    (decide (replacementChar.toNat < 0x20) && decide (replacementChar.toNat ≠ 0))) = false := by decide
  have hdelimiter : (ofDelimiter? replacementChar.toString).isSome = false := by decide
  have hpoint : (replacementChar == '.') = false := by decide
  have hminus : (replacementChar == '-') = false := by decide
  have hsign : isOperatorChar replacementChar = false := by decide
  have hname : isNameChar replacementChar = false := by decide
  unfold stepPlain
  simp only [hshown, hslash, hquote, hbreak, hblank, hdelimiter, hpoint, hminus, hsign, hname,
    Bool.false_and, Bool.false_eq_true, if_false]
  rfl

theorem ofString_lexeme (s : Scanner) : Source.ofString s.lexeme = s.gathered.reverse.map .char := by
  rw [Source.ofString, lexeme, String.toList_ofList]

theorem Pending.lexeme {start : Position} (hmode : s.mode = .plain) (hgathered : s.gathered ≠ [])
    (hline : '\n' ∉ s.gathered) (hsign : s.sign = "") (hpos : s.lexemePos = start)
    (hpending : pending = s.gathered.reverse.map .char) : Pending s start rest pending := by
  rw [hpending, ← ofString_lexeme]
  exact .plain hmode (.lexeme hgathered hline hsign hpos)

/-- A letter goes on with the pending lexeme, or begins one. -/
theorem HasRead.gather (h : HasRead file text s done pending (.char c :: rest)) (hmode : s.mode = .plain)
    (hsign : s.sign = "") (hc : c ≠ '\n') : Reads file text rest ((s.gather c).advance (.char c), false) := by
  have hpending := h.pending.partial hmode
  unfold Scanner.gather
  cases hpending with
  | sign _ hne => exact absurd hsign hne
  | nothing hgathered _ =>
    rw [if_pos (by simpa using hgathered), advance_eq]
    refine ⟨done, [.char c], h.wellFormed, h.source, h.made, ?_, ?_⟩
    · rw [h.place]
      rfl
    · exact .lexeme hmode (by simp) (by simpa using hc.symm) hsign h.place rfl
  | lexeme hgathered hline _ hpos =>
    rw [if_neg (by simpa using hgathered), advance_eq]
    refine ⟨done, Source.ofString s.lexeme ++ [Letter.char c], h.wellFormed, ?_, h.made, ?_, ?_⟩
    · rw [← h.source, List.append_assoc]
      rfl
    · rw [Position.behind_append, ← h.place]
      rfl
    · refine .lexeme hmode (by simp) ?_ hsign hpos (by simp [ofString_lexeme])
      simpa using ⟨hc.symm, hline⟩

/-- A letter begins an operator. -/
theorem Stands.beginSign (h : Stands file text s done (.char c :: rest)) (hmode : s.mode = .plain) :
    Reads file text rest ({ s with sign := c.toString, signPos := s.place }.advance (.char c), false) := by
  have hsource : Source.ofString c.toString = [.char c] := by simp [Source.ofString]
  rw [advance_eq]
  refine ⟨done, .ofString c.toString, h.wellFormed, ?_, h.made, ?_, ?_⟩
  · rw [hsource]
    exact h.source
  · rw [hsource, h.place]
    rfl
  · exact .plain hmode (.sign h.gathered (by simp) h.place)

/-- A letter goes on with the pending operator, or begins one. -/
theorem HasRead.pushSign (h : HasRead file text s done pending (.char c :: rest)) (hmode : s.mode = .plain)
    (hgathered : s.gathered = []) (ht : s.pushSign c = .ok t) :
    Reads file text rest (t.advance (.char c), false) := by
  have hpending := h.pending.partial hmode
  unfold Scanner.pushSign at ht
  cases hpending with
  | lexeme hne => exact absurd hgathered hne
  | nothing _ hsign =>
    rw [if_pos (by simpa using hsign)] at ht
    cases ht
    exact (h.stands hmode hgathered hsign).beginSign hmode
  | sign _ hsign hpos =>
    rw [if_neg (by simpa using hsign)] at ht
    rcases ite_eq_iff.mp ht with ⟨-, ht⟩ | ⟨-, ht⟩
    · cases ht
      have hsource : Source.ofString (s.sign ++ c.toString) = Source.ofString s.sign ++ [Letter.char c] := by
        simp [Source.ofString]
      rw [advance_eq]
      refine ⟨done, .ofString (s.sign ++ c.toString), h.wellFormed, ?_, h.made, ?_, ?_⟩
      · rw [← h.source, hsource, List.append_assoc]
        rfl
      · rw [hsource, Position.behind_append, ← h.place]
        rfl
      · exact .plain hmode (.sign hgathered (by simp) hpos)
    · obtain ⟨u, hu, ht⟩ := bind_ok ht
      obtain ⟨hplain, hplace, done', pending', h'⟩ := h.flushSign hmode hu
      obtain ⟨-, hsign', hsame⟩ := stays_flushSign hu
      cases ht
      rw [← hplace]
      exact (h'.stands hplain (hsame.trans hgathered) hsign').beginSign hplain

theorem HasRead.stepPlain (h : HasRead file text s done pending (l :: rest))
    (hmode : s.mode = .plain) (hr : s.stepPlain l rest.head? = .ok r) : Reads file text rest r := by
  cases l with
  | stray b =>
    rw [stepPlain_stray] at hr
    cases hr
  | char c =>
  have flushed : ∀ {f : Scanner → Except ScanError (Scanner × Bool)}, (s.flush >>= f) = .ok r →
      ∃ u done, u.mode = .plain ∧ u.place = s.place ∧ Stands file text u done (.char c :: rest) ∧
        f u = .ok r := by
    intro f hf
    obtain ⟨u, hu, hf⟩ := bind_ok hf
    obtain ⟨hplain, hplace, done', stands⟩ := h.flush hmode hu
    exact ⟨u, done', hplain, hplace, stands, hf⟩
  unfold Scanner.stepPlain at hr
  simp only [Letter.shown] at hr
  rcases ite_eq_iff.mp hr with ⟨hcomment, hr⟩ | ⟨-, hr⟩
  · obtain ⟨u, done', hplain, hplace, stands, ⟨⟩⟩ := flushed hr
    obtain ⟨rfl, hnext⟩ : c = '/' ∧ rest.head? = some (.char '/') := by simpa using hcomment
    obtain ⟨more, rfl⟩ := List.head?_eq_some_iff.mp hnext
    rw [advance_eq]
    refine ⟨done', [.char '/'], stands.wellFormed, stands.source, stands.made, ?_, ?_⟩
    · rw [stands.place]
      rfl
    · exact .lineComment rfl stands.gathered stands.sign ⟨more, rfl⟩ (by simp) (by simp)
  rcases ite_eq_iff.mp hr with ⟨hcomment, hr⟩ | ⟨-, hr⟩
  · obtain ⟨u, done', hplain, hplace, stands, ⟨⟩⟩ := flushed hr
    obtain ⟨rfl, hnext⟩ : c = '/' ∧ rest.head? = some (.char '*') := by simpa using hcomment
    obtain ⟨more, rfl⟩ := List.head?_eq_some_iff.mp hnext
    rw [advance_eq, advance_eq { u with mode := .blockComment s.place }]
    refine ⟨done', blockOpener ++ [], stands.wellFormed, stands.source, stands.made, ?_, ?_⟩
    · rw [stands.place]
      rfl
    · refine .blockComment rfl stands.gathered stands.sign fun hpart => ?_
      have hlength := hpart.length_le
      cases more <;> simp [blockCloser] at hlength
  rcases ite_eq_iff.mp hr with ⟨hquote, hr⟩ | ⟨-, hr⟩
  · obtain ⟨u, done', hplain, hplace, stands, ⟨⟩⟩ := flushed hr
    rw [advance_eq]
    refine ⟨done', [.char c], stands.wellFormed, stands.source, stands.made, ?_, ?_⟩
    · rw [stands.place]
      rfl
    · refine .quoted ?_ (by simpa using hquote) stands.sign (.inl ?_)
      · rw [← hplace, stands.place]
      · rw [stands.gathered]
        exact .nil
  rcases ite_eq_iff.mp hr with ⟨hbreak, hr⟩ | ⟨hbreak, hr⟩
  · obtain ⟨u, done', hplain, hplace, stands, ⟨⟩⟩ := flushed hr
    rw [breakLine_eq_broken, ← hplace]
    have hp : (Piece.separator c).WellFormed := by simpa [Piece.WellFormed] using hbreak
    exact ⟨_, [], (stands.advance hp rfl).hasRead (by rw [advance_eq]; exact hplain)⟩
  rcases ite_eq_iff.mp hr with ⟨hblank, hr⟩ | ⟨-, hr⟩
  · obtain ⟨u, done', hplain, hplace, stands, ⟨⟩⟩ := flushed hr
    have hp : (Piece.blank c).WellFormed := by
      simp only [Bool.or_eq_true, beq_iff_eq, not_or] at hbreak
      rcases Bool.or_eq_true_iff.mp hblank with hspace | hcontrol
      · exact .inl (beq_iff_eq.mp hspace)
      · obtain ⟨hlow, hne⟩ := Bool.and_eq_true_iff.mp hcontrol
        exact .inr ⟨of_decide_eq_true hlow, of_decide_eq_true hne, hbreak.1⟩
    exact ⟨_, [], (stands.advance hp rfl).hasRead (by rw [advance_eq]; exact hplain)⟩
  rcases ite_eq_iff.mp hr with ⟨hdelimiter, hr⟩ | ⟨-, hr⟩
  · obtain ⟨u, done', hplain, hplace, stands, ⟨⟩⟩ := flushed hr
    have hp : (Piece.lexeme c.toString).WellFormed := by
      obtain ⟨k, hk⟩ := Option.isSome_iff_exists.mp hdelimiter
      rw [Piece.WellFormed, classify_of_delimiter hk]
      refine ofDelimiter?_ne hk fun he => hbreak ?_
      rw [show c = '\n' by simpa using congrArg String.toList he]
      rfl
    rw [← hplace]
    exact ⟨_, [], (stands.advance hp (by simp [Piece.source, Source.ofString])).hasRead
      (by rw [advance_eq]; exact hplain)⟩
  rcases ite_eq_iff.mp hr with ⟨hpoint, hr⟩ | ⟨-, hr⟩
  · cases hr
    simp only [Bool.and_eq_true, beq_iff_eq] at hpoint
    have hgathered : s.gathered ≠ [] := by
      intro he
      have hnumber := (Bool.and_eq_true_iff.mp hpoint.1.2).1
      rw [lexeme, he] at hnumber
      exact absurd hnumber (by decide)
    refine h.gather hmode ?_ (by rw [hpoint.1.1]; decide)
    cases h.pending.partial hmode with
    | nothing he => exact absurd he hgathered
    | lexeme _ _ hsign => exact hsign
    | sign he => exact absurd he hgathered
  rcases ite_eq_iff.mp hr with ⟨hminus, hr⟩ | ⟨-, hr⟩
  · cases hr
    simp only [Bool.and_eq_true, beq_iff_eq] at hminus
    exact h.gather hmode (by simpa using hminus.1.2) (by rw [hminus.1.1.1]; decide)
  rcases ite_eq_iff.mp hr with ⟨-, hr⟩ | ⟨-, hr⟩
  · obtain ⟨u, hu, hr⟩ := bind_ok hr
    obtain ⟨v, hv, ⟨⟩⟩ := bind_ok hr
    obtain ⟨hplain, -, done', pending', h'⟩ := h.flushLexeme hmode hu
    exact h'.pushSign hplain (stays_flushLexeme hu).2 hv
  rcases ite_eq_iff.mp hr with ⟨hname, hr⟩ | ⟨-, hr⟩
  · obtain ⟨u, hu, ⟨⟩⟩ := bind_ok hr
    obtain ⟨hplain, -, done', pending', h'⟩ := h.flushSign hmode hu
    refine h'.gather hplain (stays_flushSign hu).2.1 ?_
    rintro rfl
    exact absurd hname (by decide)
  · cases hr

section
variable (letters : Source) (h : HasRead file text s done pending (letters ++ rest))
include letters h

/-- Letters go on with what is pending. -/
theorem HasRead.past (hmade : t.made = s.made) (hplace : t.place = s.place.behind letters)
    (hpending : Pending t (done.place file) rest (pending ++ letters)) :
    HasRead file text t done (pending ++ letters) rest := by
  refine ⟨h.wellFormed, ?_, hmade.trans h.made, ?_, hpending⟩
  · rw [← h.source, List.append_assoc]
  · rw [hplace, h.place, Position.behind_append]

/-- Letters end a piece. -/
theorem HasRead.close (hp : p.WellFormed) (hsource : p.source = pending ++ letters)
    (hmade : t.made = p.extend (done.place file) s.made) (hplace : t.place = s.place.behind letters)
    (hgathered : t.gathered = []) (hsign : t.sign = "") : Stands file text t (p :: done) rest := by
  refine ⟨wellFormed_cons hp h.wellFormed, ?_, ?_, ?_, hgathered, hsign⟩
  · rw [← h.source, Pieces.source, hsource]
    simp
  · rw [hmade, h.made]
    rfl
  · rw [Pieces.place, hsource, Position.behind_append, ← h.place, hplace]

end

theorem HasRead.stepQuoted {quote : Char} {opened : Position}
    (h : HasRead file text s done pending (l :: rest)) (hmode : s.mode = .quoted quote opened)
    (hr : s.stepQuoted quote opened l rest.head? = .ok r) : Reads file text rest r := by
  obtain ⟨body, rfl, rfl, hquote, hsign, hbody⟩ : ∃ body, pending = .char quote :: body ∧
      opened = done.place file ∧ (quote = '\x22' ∨ quote = '\x27') ∧ s.sign = "" ∧
      Unescapes quote body s.gathered.reverse := by
    cases h.pending with
    | plain hplain => exact absurd (hmode.symm.trans hplain) (by simp)
    | lineComment hcomment => exact absurd (hmode.symm.trans hcomment) (by simp)
    | blockComment hcomment => exact absurd (hmode.symm.trans hcomment) (by simp)
    | @quoted quote' body hquoted hquote hsign hbody =>
      cases hmode.symm.trans hquoted
      exact ⟨body, rfl, rfl, hquote, hsign, hbody.resolve_right (by simp)⟩
  unfold Scanner.stepQuoted at hr
  rcases ite_eq_iff.mp hr with ⟨hclose, hr⟩ | ⟨hclose, hr⟩
  · cases hr
    obtain rfl : l = .char quote := by simpa [Letter.is] using hclose
    have hp : (Piece.quoted quote body s.gathered.reverse).WellFormed := ⟨hquote, hbody⟩
    rw [advance_eq]
    refine ⟨.quoted quote body s.gathered.reverse :: done, [], Stands.hasRead ?_ rfl⟩
    exact h.close [.char quote] hp rfl rfl rfl rfl hsign
  have hopen : l ≠ .char quote := by simpa [Letter.is] using hclose
  rcases ite_eq_iff.mp hr with ⟨hslash, hr⟩ | ⟨hslash, hr⟩
  · obtain rfl : l = .char '\\' := by simpa [Letter.is] using hslash
    cases rest with
    | nil =>
      cases hr
      rw [advance_eq]
      exact ⟨done, _, h.past [.char '\\'] rfl rfl (.quoted hmode hquote hsign (.inr rfl))⟩
    | cons e more =>
      cases he : unescape e.shown with
      | none =>
        simp only [List.head?_cons, he] at hr
        cases hr
      | some c =>
        simp only [List.head?_cons, he] at hr
        cases hr
        rw [advance_eq, advance_eq { s with gathered := c :: s.gathered }]
        refine ⟨done, _, h.past [.char '\\', e] rfl rfl (.quoted hmode hquote hsign (.inl ?_))⟩
        rw [List.reverse_cons]
        exact hbody.append (.escape he .nil)
  · cases hr
    have hletter : l ≠ .char '\\' := by simpa [Letter.is] using hslash
    rw [advance_eq]
    refine ⟨done, _, h.past [l] rfl rfl (.quoted hmode hquote hsign (.inl ?_))⟩
    rw [List.reverse_cons]
    exact hbody.append (.letter hopen hletter .nil)

/-- What was read of a line comment in front of a newline has both slashes. -/
theorem exists_body (hopen : lineOpener <+: pending ++ Letter.char '\n' :: rest) (hne : pending ≠ []) :
    ∃ body, pending = lineOpener ++ body := by
  cases pending with
  | nil => exact absurd rfl hne
  | cons a pending =>
    cases pending with
    | nil => simp [lineOpener] at hopen
    | cons b body =>
      obtain ⟨rfl, rfl⟩ : .char '/' = a ∧ .char '/' = b := by simpa [lineOpener] using hopen
      exact ⟨body, rfl⟩

/-- A pair of letters that ends a text is its end, or stands in front of it. -/
theorem pair_concat {a b x y : Letter} {body : Source} (h : [a, b] <:+: body ++ [x] ++ [y]) :
    (a = x ∧ b = y) ∨ [a, b] <:+: body ++ [x] := by
  rcases List.infix_concat_iff.mp h with ⟨front, hend⟩ | hpart
  · left
    have hpair : front ++ [a, b] = body ++ [x, y] := by simpa using hend
    simpa using List.append_inj_right' hpair rfl
  · exact .inr hpart

/-- What is pending in a line comment. -/
theorem HasRead.in_lineComment (h : HasRead file text s done pending rest) (hmode : s.mode = .lineComment) :
    s.gathered = [] ∧ s.sign = "" ∧ lineOpener <+: pending ++ rest ∧ pending ≠ [] ∧ .char '\n' ∉ pending := by
  cases h.pending with
  | plain hplain => exact absurd (hmode.symm.trans hplain) (by simp)
  | lineComment _ hgathered hsign hopen hne hline => exact ⟨hgathered, hsign, hopen, hne, hline⟩
  | blockComment hcomment => exact absurd (hmode.symm.trans hcomment) (by simp)
  | quoted hquoted => exact absurd (hmode.symm.trans hquoted) (by simp)

/-- One letter is read. -/
theorem HasRead.step (h : HasRead file text s done pending (l :: rest))
    (hr : s.step l rest.head? = .ok r) : Reads file text rest r := by
  unfold Scanner.step at hr
  split at hr
  next hmode =>
    obtain ⟨hgathered, hsign, hopen, hne, hline⟩ := h.in_lineComment hmode
    rcases ite_eq_iff.mp hr with ⟨hend, hr⟩ | ⟨hend, hr⟩
    · cases hr
      obtain rfl : l = .char '\n' := by simpa [Letter.is] using hend
      obtain ⟨body, rfl⟩ := exists_body hopen hne
      have hp : (Piece.lineComment body).WellFormed := fun hmem => hline (List.mem_append_right _ hmem)
      rw [breakLine_eq_broken, advance_eq]
      refine ⟨.lineComment body :: done, [], Stands.hasRead ?_ rfl⟩
      exact h.close [.char '\n'] hp rfl (by rw [h.place]; rfl) rfl hgathered hsign
    · cases hr
      have hletter : l ≠ .char '\n' := by simpa [Letter.is] using hend
      rw [advance_eq]
      refine ⟨done, _, h.past [l] rfl rfl (.lineComment hmode hgathered hsign ?_ (by simp) ?_)⟩
      · rw [List.append_assoc]
        exact hopen
      · simpa using ⟨hline, hletter.symm⟩
  next opened hmode =>
    obtain ⟨body, rfl, hgathered, hsign, hopen⟩ : ∃ body, pending = blockOpener ++ body ∧
        s.gathered = [] ∧ s.sign = "" ∧ ¬ blockCloser <:+: body ++ [l] := by
      cases h.pending with
      | plain hplain => exact absurd (hmode.symm.trans hplain) (by simp)
      | lineComment hcomment => exact absurd (hmode.symm.trans hcomment) (by simp)
      | blockComment _ hgathered hsign hopen => exact ⟨_, rfl, hgathered, hsign, hopen⟩
      | quoted hquoted => exact absurd (hmode.symm.trans hquoted) (by simp)
    rcases ite_eq_iff.mp hr with ⟨hend, hr⟩ | ⟨hend, hr⟩
    · cases hr
      obtain ⟨rfl, hnext⟩ : l = .char '*' ∧ rest.head? = some (.char '/') := by
        simpa [Letter.is] using hend
      obtain ⟨more, rfl⟩ := List.head?_eq_some_iff.mp hnext
      have hp : (Piece.blockComment body).WellFormed :=
        fun hpart => hopen (hpart.trans (List.prefix_append _ _).isInfix)
      rw [advance_eq, advance_eq { s with mode := .plain }]
      refine ⟨.blockComment body :: done, [], Stands.hasRead ?_ rfl⟩
      exact h.close blockCloser hp rfl rfl rfl hgathered hsign
    · cases hr
      rw [advance_eq]
      refine ⟨done, _, h.past [l] rfl rfl ?_⟩
      rw [List.append_assoc]
      refine .blockComment hmode hgathered hsign fun hpart => ?_
      cases rest with
      | nil => exact hopen (by simpa using hpart)
      | cons n more =>
        rcases pair_concat hpart with ⟨rfl, rfl⟩ | hpart
        · exact hend (by simp [Letter.is])
        · exact hopen hpart
  next hmode => exact h.stepQuoted hmode hr
  next hmode => exact h.stepPlain hmode hr

/-! ## The whole text -/

theorem flush_eq_self (hgathered : s.gathered = []) (hsign : s.sign = "") : s.flush = .ok s := by
  unfold Scanner.flush Scanner.flushLexeme Scanner.flushSign
  rw [if_pos (by simpa using hgathered)]
  exact if_pos (by simpa using hsign)

theorem HasRead.finish {tokens : List Token} (h : HasRead file text s done pending [])
    (ht : s.finish = .ok tokens) : ∃ done tail, Pieces.MakeUp file text tokens done tail := by
  obtain ⟨hmode, u, hu, rfl⟩ := finish_eq_ok.mp ht
  rcases hmode with hmode | hmode
  · obtain ⟨-, -, done', stands⟩ := h.flush hmode hu
    refine ⟨done', [], stands.wellFormed, .inl rfl, stands.source, ?_⟩
    rw [breakLine_eq_broken, stands.made, stands.place]
    exact List.reverse_cons
  · obtain ⟨hgathered, hsign, hopen, hne, hline⟩ := h.in_lineComment hmode
    obtain ⟨body, hbody⟩ := hopen
    rw [List.append_nil] at hbody
    rw [flush_eq_self hgathered hsign] at hu
    cases hu
    refine ⟨done, pending, h.wellFormed, .inr ⟨body, hbody.symm, fun hmem => hline ?_⟩, ?_, ?_⟩
    · rw [← hbody]
      exact List.mem_append_right _ hmem
    · rw [← h.source, List.append_nil]
    · rw [breakLine_eq_broken, h.made, h.place]
      exact List.reverse_cons

theorem HasRead.run {src : Source} {tokens : List Token} (h : HasRead file text s done pending src)
    (ht : s.run src = .ok tokens) : ∃ done tail, Pieces.MakeUp file text tokens done tail := by
  fun_induction Scanner.run s src generalizing done pending with
  | case1 s => exact h.finish ht
  | case2 s l rest e he => cases ht
  | case3 s l rest s' hstep ih =>
    obtain ⟨done', pending', h'⟩ := h.step hstep
    exact ih h' ht
  | case4 s l s' hstep ih =>
    obtain ⟨done', pending', h'⟩ := h.step hstep
    exact ih h' ht
  | case5 s l s' m more hstep ih =>
    obtain ⟨done', pending', h'⟩ := h.step hstep
    exact ih h' ht

end Scanner

/-- A text that is accepted is made up of pieces, and the tokens are theirs. -/
theorem Source.exists_makeUp {src : Source} {file : String} {tokens : List Token}
    (h : src.tokens file = .ok tokens) : ∃ done tail, Pieces.MakeUp file src tokens done tail :=
  ((Scanner.stands_start file src).hasRead rfl).run h

end Frontend
