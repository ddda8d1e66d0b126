import Frontend.Proofs.List
import Frontend.Proofs.Word.Spelling
import Frontend.Token.Scan

/-!
# What one letter does

A step of the scanner moves past one letter or two, and every token it makes is made from its text by
classification, from the value of a string, or is a line break. So whatever a source text holds, the
tokens that are names are plain words: only names are classified as names.
-/

namespace Frontend

variable {tokens : List Token} {src : Source} {file : String}

/-- A token that is a plain word if it is a name. -/
def Token.Spelled (t : Token) : Prop := t.kind = .ident → Word.Plain t.literal

namespace TokenKind

/-- The ways a text can be classified. -/
inductive ClassifiedAs (s : String) : TokenKind → Prop where
  | delimiter {k : TokenKind} (h : ofDelimiter? s = some k) : ClassifiedAs s k
  | operator (o : Operator) : ClassifiedAs s (.op o)
  | word {k : TokenKind} (h : (s, k) ∈ words) : ClassifiedAs s k
  | int (h : isNumber s = true) : ClassifiedAs s .int
  | float (h : isNumber s = true) : ClassifiedAs s .float
  | name (h : isName s = true) : ClassifiedAs s .ident
  | illegal : ClassifiedAs s .illegal

theorem classifiedAs (s : String) : ClassifiedAs s (classify s) := by
  unfold classify
  split
  · exact .illegal
  split
  next h => exact .delimiter h
  split
  · exact .operator _
  split
  next h =>
    obtain ⟨l₁, l₂, hl, -⟩ := List.lookup_eq_some_iff.mp h
    exact .word (hl ▸ by simp)
  split
  next h =>
    split
    · exact .float h
    · exact .int h
  split
  next h => exact .name h
  · exact .illegal

/-- Any other lexeme than a delimiter is made of letters of names and of operators. -/
theorem lexemeChar_of_classify {s : String} (h : classify s ≠ .illegal) (hd : ofDelimiter? s = none) :
    ∀ c ∈ s.toList, isNameChar c = true ∨ isOperatorChar c = true := by
  have tabled {α : Type} {table : List (String × α)} {a : α} (htable : table.all (fun e =>
      e.1.toList.all fun c => isNameChar c || isOperatorChar c) = true) (ha : table.lookup s = some a) :
      ∀ c ∈ s.toList, isNameChar c = true ∨ isOperatorChar c = true := by
    obtain ⟨front, back, rfl, -⟩ := List.lookup_eq_some_iff.mp ha
    have he := List.all_eq_true.mp htable (s, a) (by simp)
    exact fun c hc => Bool.or_eq_true_iff.mp (List.all_eq_true.mp he c hc)
  have digits {cs : List Char} (hcs : isUnsigned cs = true) :
      ∀ c ∈ cs, isNameChar c = true ∨ isOperatorChar c = true := by
    intro c hc
    unfold isUnsigned at hcs
    split at hcs
    · cases hcs
    · simp only [Bool.and_eq_true, List.all_eq_true, Bool.or_eq_true, beq_iff_eq] at hcs
      rcases hcs.1.1.2 c hc with hdigit | rfl
      · exact .inl (by simp [isNameChar, hdigit])
      · exact .inr (by decide)
  unfold classify at h
  split at h
  · exact absurd rfl h
  simp only [hd] at h
  split at h
  next o ho => exact tabled (by decide) ho
  split at h
  next k hk => exact tabled (by decide) hk
  split at h
  next hnumber =>
    unfold isNumber at hnumber
    split at hnumber
    next rest hs =>
      rw [hs]
      exact List.forall_mem_cons.mpr ⟨.inr (by decide), digits hnumber⟩
    next => exact digits hnumber
  split at h
  next hname =>
    unfold isName at hname
    split at hname
    · cases hname
    next first rest hs =>
      obtain ⟨hfirst, hrest⟩ := Bool.and_eq_true_iff.mp hname
      rw [hs]
      exact List.forall_mem_cons.mpr ⟨.inl (by simp [isNameChar, hfirst]),
        fun c hc => .inl (List.all_eq_true.mp hrest c hc)⟩
  · exact absurd rfl h

/-- Only names are classified as names. -/
theorem isName_of_classify {s : String} (h : classify s = .ident) : isName s = true := by
  have hwords : ∀ e ∈ words, e.2 ≠ .ident := by decide
  have hkind := classifiedAs s
  rw [h] at hkind
  cases hkind with
  | delimiter hk =>
    unfold ofDelimiter? at hk
    split at hk <;> cases hk
  | word hk => exact absurd rfl (hwords _ hk)
  | name hname => exact hname

/-- No text stands for the end of input, and none for a string. -/
theorem classify_ne (s : String) : classify s ≠ .eof ∧ classify s ≠ .str := by
  have hwords : ∀ e ∈ words, e.2 ≠ .eof ∧ e.2 ≠ .str := by decide
  have hkind := classifiedAs s
  generalize classify s = k at hkind
  cases hkind with
  | delimiter hk =>
    unfold ofDelimiter? at hk
    split at hk <;> cases hk <;> simp
  | word hk => exact hwords _ hk
  | _ => simp

theorem classify_ne_eof (s : String) : classify s ≠ .eof := (classify_ne s).1

end TokenKind

namespace Token

theorem spelled_ofText (literal : String) (pos : Position) : (ofText literal pos).Spelled :=
  fun h => (Word.name_of_isName (TokenKind.isName_of_classify h)).plain

theorem spelled_of_kind_ne {t : Token} (h : t.kind ≠ .ident) : t.Spelled := fun he => absurd he h

/-- A token as the scanner makes them in front of the end of input. -/
inductive Made : Token → Prop where
  | ofText (text : String) (pos : Position) : Made (.ofText text pos)
  | ofString (value : String) (pos : Position) : Made (.ofString value pos)
  | newline (pos : Position) : Made (.newline pos)

theorem Made.spelled {t : Token} (h : t.Made) : t.Spelled := by
  cases h with
  | ofText text pos => exact spelled_ofText text pos
  | ofString value pos => exact spelled_of_kind_ne (by simp [Token.ofString])
  | newline pos => exact spelled_of_kind_ne (by simp [Token.newline])

theorem Made.kind_ne_eof {t : Token} (h : t.Made) : t.kind ≠ .eof := by
  cases h with
  | ofText text pos => exact TokenKind.classify_ne_eof text
  | ofString value pos => simp [Token.ofString]
  | newline pos => simp [Token.newline]

end Token

/-- Tokens of which the last one, if there is one, is a line break. -/
def EndsLine (tokens : List Token) : Prop := ∀ t ∈ tokens.getLast?, t.kind = .newline

/-- The place behind a letter. -/
def Position.after (p : Position) (l : Letter) : Position :=
  if l.is '\n' then { p with line := p.line + 1, column := 1, offset := p.offset + l.width }
  else { p with column := p.column + 1, offset := p.offset + l.width }

namespace Scanner

variable {s t u : Scanner} {l : Letter} {next : Option Letter} {r : Scanner × Bool}

/-- Moving past a letter changes the place only. -/
theorem advance_eq (s : Scanner) (l : Letter) : s.advance l =
    { s with place := s.place.after l, lineSoFar := (s.advance l).lineSoFar } := by
  unfold advance Position.after
  split <;> rfl

/-- A scanner that has made more tokens, and has not moved. -/
structure Stays (s t : Scanner) : Prop where
  place : t.place = s.place
  mode : t.mode = s.mode

theorem Stays.refl (s : Scanner) : Stays s s := ⟨rfl, rfl⟩

theorem Stays.trans (h : Stays s t) (h' : Stays t u) : Stays s u :=
  ⟨h'.place.trans h.place, h'.mode.trans h.mode⟩

theorem Stays.push (h : Stays s t) (token : Token) : Stays s (t.push token) := ⟨h.place, h.mode⟩

theorem Stays.breakLine (h : Stays s t) (pos : Position) : Stays s (t.breakLine pos) := by
  unfold Scanner.breakLine
  split
  · exact h
  · split
    · exact h
    · exact h.push _

theorem Stays.gather (h : Stays s t) (c : Char) : Stays s (t.gather c) := by
  unfold Scanner.gather
  split
  · exact ⟨h.place, h.mode⟩
  · exact ⟨h.place, h.mode⟩

theorem stays_flushLexeme (ht : s.flushLexeme = .ok t) : Stays s t ∧ t.gathered = [] := by
  unfold Scanner.flushLexeme at ht
  split at ht
  next hempty =>
    cases ht
    exact ⟨Stays.refl s, List.isEmpty_iff.mp hempty⟩
  next =>
    dsimp only at ht
    split at ht
    · cases ht
    · cases ht
      exact ⟨⟨rfl, rfl⟩, rfl⟩

theorem stays_flushSign (ht : s.flushSign = .ok t) : Stays s t ∧ t.sign = "" ∧ t.gathered = s.gathered := by
  unfold Scanner.flushSign at ht
  split at ht
  next hempty =>
    cases ht
    exact ⟨Stays.refl s, String.isEmpty_iff.mp hempty, rfl⟩
  next =>
    split at ht
    · cases ht
    · cases ht
      exact ⟨⟨rfl, rfl⟩, rfl, rfl⟩

/-- Behind a flush nothing is pending. -/
theorem stays_flush (ht : s.flush = .ok t) : Stays s t ∧ t.gathered = [] ∧ t.sign = "" := by
  obtain ⟨u, hu, ht⟩ := bind_ok ht
  obtain ⟨hstays, hgathered⟩ := stays_flushLexeme hu
  obtain ⟨hstays', hsign, hsame⟩ := stays_flushSign ht
  exact ⟨hstays.trans hstays', hsame.trans hgathered, hsign⟩

theorem stays_pushSign {c : Char} (ht : s.pushSign c = .ok t) : Stays s t := by
  unfold Scanner.pushSign at ht
  dsimp only at ht
  split at ht
  · cases ht
    exact ⟨rfl, rfl⟩
  · split at ht
    · cases ht
      exact ⟨rfl, rfl⟩
    · obtain ⟨u, hu, ⟨⟩⟩ := bind_ok ht
      have hstays := (stays_flushSign hu).1
      exact ⟨hstays.place, hstays.mode⟩

/-- What a step does to a scanner: it moves past its letter, or past the one behind it as well; and when it
gets into a line comment, nothing is pending. -/
structure Steps (s : Scanner) (l : Letter) (next : Option Letter) (r : Scanner × Bool) : Prop where
  place : r.2 = false ∧ r.1.place = s.place.after l ∨
    ∃ m, next = some m ∧ r.2 = true ∧ r.1.place = (s.place.after l).after m
  settled : r.1.mode = .lineComment → s.mode ≠ .lineComment → r.1.gathered = [] ∧ r.1.sign = ""

/-- A step past one letter. -/
theorem steps_advance (hplace : t.place = s.place)
    (hsettled : t.mode = .lineComment → s.mode ≠ .lineComment → t.gathered = [] ∧ t.sign = "") :
    Steps s l next (t.advance l, false) := by
  rw [advance_eq]
  exact ⟨.inl ⟨rfl, by rw [← hplace]⟩, hsettled⟩

/-- A step past two letters. -/
theorem steps_advance_two {m : Letter} (hnext : next = some m) (hplace : t.place = s.place)
    (hmode : t.mode ≠ .lineComment) : Steps s l next ((t.advance l).advance m, true) := by
  rw [advance_eq (t.advance l), advance_eq t]
  refine ⟨.inr ⟨m, hnext, rfl, ?_⟩, fun h => absurd h hmode⟩
  rw [← hplace]

/-- A step past one letter that stays in its mode. -/
theorem Stays.steps (h : Stays s t) : Steps s l next (t.advance l, false) :=
  steps_advance h.place fun hmode hne => absurd (h.mode.symm.trans hmode) hne

theorem steps_stepQuoted {quote : Char} {opened : Position} (hmode : s.mode = .quoted quote opened)
    (hr : s.stepQuoted quote opened l next = .ok r) : Steps s l next r := by
  have quoted : s.mode ≠ .lineComment := by rw [hmode]; exact nofun
  unfold Scanner.stepQuoted at hr
  split at hr
  · cases hr
    exact steps_advance rfl nofun
  · split at hr
    · split at hr
      · cases hr
        exact (Stays.refl s).steps
      · split at hr
        · cases hr
        · cases hr
          exact steps_advance_two rfl rfl quoted
    · cases hr
      exact steps_advance rfl fun h => absurd h quoted

theorem steps_stepPlain (hr : s.stepPlain l next = .ok r) : Steps s l next r := by
  have flushed : ∀ {f : Scanner → Except ScanError (Scanner × Bool)}, (s.flush >>= f) = .ok r →
      ∃ u, Stays s u ∧ u.gathered = [] ∧ u.sign = "" ∧ f u = .ok r := by
    intro f hf
    obtain ⟨u, hu, hf⟩ := bind_ok hf
    obtain ⟨hstays, hgathered, hsign⟩ := stays_flush hu
    exact ⟨u, hstays, hgathered, hsign, hf⟩
  unfold Scanner.stepPlain at hr
  simp only at hr
  rcases ite_eq_iff.mp hr with ⟨-, hr⟩ | ⟨-, hr⟩
  · obtain ⟨u, hu, hgathered, hsign, ⟨⟩⟩ := flushed hr
    exact steps_advance hu.place fun _ _ => ⟨hgathered, hsign⟩
  rcases ite_eq_iff.mp hr with ⟨hstar, hr⟩ | ⟨-, hr⟩
  · obtain ⟨u, hu, -, -, ⟨⟩⟩ := flushed hr
    have hnext : next = some (.char '*') := by simpa using (Bool.and_eq_true_iff.mp hstar).2
    exact steps_advance_two hnext hu.place nofun
  rcases ite_eq_iff.mp hr with ⟨-, hr⟩ | ⟨-, hr⟩
  · obtain ⟨u, hu, -, -, ⟨⟩⟩ := flushed hr
    exact steps_advance hu.place nofun
  rcases ite_eq_iff.mp hr with ⟨-, hr⟩ | ⟨-, hr⟩
  · obtain ⟨u, hu, -, -, ⟨⟩⟩ := flushed hr
    exact (hu.breakLine _).steps
  rcases ite_eq_iff.mp hr with ⟨-, hr⟩ | ⟨-, hr⟩
  · obtain ⟨u, hu, -, -, ⟨⟩⟩ := flushed hr
    exact hu.steps
  rcases ite_eq_iff.mp hr with ⟨-, hr⟩ | ⟨-, hr⟩
  · obtain ⟨u, hu, -, -, ⟨⟩⟩ := flushed hr
    exact (hu.push _).steps
  rcases ite_eq_iff.mp hr with ⟨-, hr⟩ | ⟨-, hr⟩
  · cases hr
    exact ((Stays.refl s).gather _).steps
  rcases ite_eq_iff.mp hr with ⟨-, hr⟩ | ⟨-, hr⟩
  · cases hr
    exact ((Stays.refl s).gather _).steps
  rcases ite_eq_iff.mp hr with ⟨-, hr⟩ | ⟨-, hr⟩
  · obtain ⟨u, hu, hr⟩ := bind_ok hr
    obtain ⟨v, hv, ⟨⟩⟩ := bind_ok hr
    exact ((stays_flushLexeme hu).1.trans (stays_pushSign hv)).steps
  rcases ite_eq_iff.mp hr with ⟨-, hr⟩ | ⟨-, hr⟩
  · obtain ⟨u, hu, ⟨⟩⟩ := bind_ok hr
    exact ((stays_flushSign hu).1.gather _).steps
  · cases hr

theorem steps_step (hr : s.step l next = .ok r) : Steps s l next r := by
  unfold Scanner.step at hr
  split at hr
  next hmode =>
    split at hr
    · cases hr
      have broken := (Stays.refl { s with mode := .plain }).breakLine s.place
      exact steps_advance broken.place fun h => nomatch broken.mode.symm.trans h
    · cases hr
      exact (Stays.refl s).steps
  next hmode =>
    split at hr
    next hslash =>
      cases hr
      have hnext : next = some (.char '/') := by simpa using (Bool.and_eq_true_iff.mp hslash).2
      exact steps_advance_two hnext rfl nofun
    · cases hr
      exact (Stays.refl s).steps
  next hmode => exact steps_stepQuoted hmode hr
  next => exact steps_stepPlain hr

/-- Nothing is left open at the end of a text that is accepted. -/
theorem finish_eq_ok : s.finish = .ok tokens ↔ (s.mode = .plain ∨ s.mode = .lineComment) ∧ ∃ u, s.flush = .ok u ∧
      tokens = ((u.breakLine u.place).push (.eof (u.breakLine u.place).place)).made.reverse := by
  have flushed : (do
      let s ← s.flush
      let s := s.breakLine s.place
      return (s.push (.eof s.place)).made.reverse : Except ScanError (List Token)) = .ok tokens ↔
      ∃ u, s.flush = .ok u ∧
        tokens = ((u.breakLine u.place).push (.eof (u.breakLine u.place).place)).made.reverse := by
    cases s.flush with
    | error e => simp [bind, Except.bind]
    | ok u => simp [bind, Except.bind, pure, Except.pure, eq_comm]
  unfold Scanner.finish
  cases hmode : s.mode with
  | quoted quote opened => simp
  | blockComment opened => simp
  | plain => simpa using flushed
  | lineComment => simpa using flushed

theorem endsLine_breakLine (s : Scanner) (pos : Position) : EndsLine (s.breakLine pos).made.reverse := by
  unfold Scanner.breakLine EndsLine
  rw [List.getLast?_reverse]
  split
  next hmade => simp [hmade]
  next token made hmade =>
    split
    next hk => simpa [hmade] using hk
    · simp [Scanner.push, Token.newline]

end Scanner

theorem Source.scan_eq_ok : src.scan file = .ok tokens ↔ src.tokens file = .ok tokens := by
  unfold Source.scan
  cases src.tokens file with
  | error e => simp [Except.mapError]
  | ok made => simp [Except.mapError]

/-! ## Negative numbers

A negative number is taken apart where its minus subtracts. What is left behind the minus is a number
again, and not a negative one. -/

namespace TokenKind

def isNumeric (k : TokenKind) : Bool := k == .int || k == .float

theorem lookup_eq_none {β : Type} {table : List (String × β)} {s : String}
    (h : ∀ e ∈ table, e.1 ≠ s) : table.lookup s = none :=
  List.lookup_eq_none_iff.mpr fun e he => bne_iff_ne.mpr (h e he).symm

/-- A text that stands for a number reads as one. -/
theorem isNumber_of_classify {s : String} (h : (classify s).isNumeric = true) : isNumber s = true := by
  have hwords : ∀ e ∈ words, e.2.isNumeric = false := by decide
  have hkind := classifiedAs s
  generalize classify s = k at h hkind
  cases hkind with
  | delimiter hk =>
    unfold ofDelimiter? at hk
    split at hk <;> cases hk <;> cases h
  | word hk =>
    rw [hwords _ hk] at h
    cases h
  | int hnumber => exact hnumber
  | float hnumber => exact hnumber
  | operator o => cases h
  | name => cases h
  | illegal => cases h

/-- A text that reads as a number stands for one. -/
theorem classify_of_isNumber {s : String} (h : isNumber s = true) :
    classify s = if s.toList.contains '.' then .float else .int := by
  have hne : ∀ t : String, isNumber t = false → t ≠ s := by
    intro t ht he
    rw [he, h] at ht
    cases ht
  have hempty : ¬ s.isEmpty = true := by
    rw [String.isEmpty_iff]
    exact fun he => hne "" rfl he.symm
  have hdelimiter : ofDelimiter? s = none := by
    unfold ofDelimiter?
    split <;> first | rfl | cases h
  have hoperator : Operator.ofText? s = none := by
    have all : ∀ e ∈ Operator.table, isNumber e.1 = false := by decide
    exact lookup_eq_none fun e he => hne e.1 (all e he)
  have hword : words.lookup s = none := by
    have all : ∀ e ∈ words, isNumber e.1 = false := by decide
    exact lookup_eq_none fun e he => hne e.1 (all e he)
  unfold classify
  rw [if_neg hempty, hdelimiter, hoperator, hword, if_pos h]

/-- Digits stand for a number. -/
theorem classify_of_isUnsigned {s : String} (h : isUnsigned s.toList = true) : (classify s).isNumeric = true := by
  have hnumber : isNumber s = true := by
    unfold isNumber
    split
    next rest hs =>
      rw [hs] at h
      cases h
    · exact h
  rw [classify_of_isNumber hnumber]
  split <;> rfl

end TokenKind

namespace Token

/-- A number is of the kind that its text stands for. -/
def Classified (t : Token) : Prop :=
  t.isNegativeNumber = true → t.kind = TokenKind.classify t.literal

theorem Made.classified {t : Token} (h : t.Made) : t.Classified := by
  cases h with
  | ofText text pos => exact fun _ => rfl
  | ofString value pos => exact fun h => nomatch h
  | newline pos => exact fun h => nomatch h

theorem isNumeric_of_isNegativeNumber {t : Token} (h : t.isNegativeNumber = true) :
    t.kind.isNumeric = true ∧ ∃ rest, t.literal.toList = '-' :: rest := by
  unfold isNegativeNumber at h
  have hminus : ∀ cs : List Char, List.isPrefixOf ['-'] cs = true → ∃ rest, cs = '-' :: rest := by
    intro cs hcs
    cases cs with
    | nil => cases hcs
    | cons c rest =>
      have hc : '-' = c := by simpa using hcs
      exact ⟨rest, hc ▸ rfl⟩
  split at h
  next hk => exact ⟨hk ▸ rfl, hminus _ h⟩
  next hk => exact ⟨hk ▸ rfl, hminus _ h⟩
  · cases h

theorem kind_minus (t : Token) : t.splitNegative.1.kind = .op .minus := by
  have hminus : TokenKind.classify "-" = .op .minus := by decide
  exact hminus

/-- Behind the minus of a negative number there is a number without a minus. -/
theorem isNumeric_unsigned {t : Token} (hc : t.Classified) (h : t.isNegativeNumber = true) :
    t.splitNegative.2.kind.isNumeric = true ∧ t.splitNegative.2.isNegativeNumber = false := by
  obtain ⟨hk, rest, hliteral⟩ := isNumeric_of_isNegativeNumber h
  have hnumber : TokenKind.isNumber t.literal = true :=
    TokenKind.isNumber_of_classify (hc h ▸ hk)
  have hunsigned : TokenKind.isUnsigned rest = true := by
    unfold TokenKind.isNumber at hnumber
    rwa [hliteral] at hnumber
  have htext : (String.ofList (t.literal.toList.drop 1)).toList = rest := by
    rw [String.toList_ofList, hliteral, List.drop_one, List.tail_cons]
  refine ⟨TokenKind.classify_of_isUnsigned (htext.symm ▸ hunsigned), ?_⟩
  cases hnegative : t.splitNegative.2.isNegativeNumber with
  | false => rfl
  | true =>
    obtain ⟨-, more, hmore⟩ := isNumeric_of_isNegativeNumber hnegative
    rw [htext.symm.trans hmore] at hunsigned
    cases hunsigned

/-- Taking a negative number apart leaves as many parts as it was counted for. -/
theorem parts_splitNegative {t : Token} (h : t.isNegativeNumber = true) :
    t.parts = t.splitNegative.1.parts + t.splitNegative.2.parts := by
  have hminus : t.splitNegative.1.parts = 1 := by simp [parts, isNegativeNumber, kind_minus]
  rw [hminus, parts, if_pos h]
  cases hnumber : t.splitNegative.2.isNegativeNumber with
  | false => simp [parts, hnumber]
  | true =>
    have hmade : t.splitNegative.2.Made := Made.ofText _ _
    have hunsigned := (isNumeric_unsigned hmade.classified hnumber).2
    rw [parts, if_pos hnumber, hunsigned]
    rfl

end Token

end Frontend
