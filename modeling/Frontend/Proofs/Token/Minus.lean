import Frontend.Proofs.Token.Cut
import Frontend.Proofs.Token.Written

/-!
# A minus between an operator and digits

Directly behind an operator a minus is a token of its own, also in front of a digit; behind a space the same
minus belongs to the number. So the letters `x =-5` and `x = -5` are one token apart. The operator ends what
is pending in front of it, and so does the first digit.
-/

namespace Frontend

/-- Any operator but the minus and the point can be told from a minus behind it. -/
theorem Operator.minus_behind {o : Operator} (hminus : o ≠ .minus) (hdot : o ≠ .dot) :
    ofText? o.text = some o ∧ ofText? (o.text ++ "-") = none ∧
      ∃ c cs, o.text.toList = c :: cs ∧ isOperatorChar c = true ∧ c ≠ '.' ∧
        (c = '-' → ∃ d ds, cs = d :: ds ∧ Text.isDigit d = false) := by
  cases o with
  | minus => exact absurd rfl hminus
  | dot => exact absurd rfl hdot
  | minusAssign | decrement | arrow =>
    exact ⟨by decide, by decide, _, _, rfl, by decide, by decide, fun _ => ⟨_, _, rfl, by decide⟩⟩
  | _ =>
    exact ⟨by decide, by decide, _, _, rfl, by decide, by decide, fun hc => absurd hc (by decide)⟩

namespace Scanner

variable {s t : Scanner} {done : List (TokenKind × String)} {gathered : List Char} {text : String} {o : Operator}
  {c : Char} {next : Option Letter} {r : Source}

/-- Without an operator that is pending, only a lexeme is flushed. -/
theorem flushLexeme_of_flush (hsign : s.sign = "") (h : s.flush = .ok t) : s.flushLexeme = .ok t := by
  obtain ⟨u, hu, hlast⟩ := bind_ok h
  have hnone : u.sign = "" := by
    unfold Scanner.flushLexeme at hu
    dsimp only at hu
    split at hu
    · cases hu
      exact hsign
    · split at hu
      · cases hu
      · cases hu
        exact hsign
  have hsame : u.flushSign = .ok u := by simp [Scanner.flushSign, hnone]
  rw [hu, ← hlast, hsame]

/-- A letter of an operator ends what is pending in front of it. -/
theorem step_flushed (hmode : s.mode = .plain) (hsign : s.sign = "") (hflush : s.flush = .ok t)
    (ht : Holds t [] "" done) (hc : isOperatorChar c = true) (hpoint : c ≠ '.')
    (hminus : c = '-' → digitAhead next = false) : s.step (.char c) next = t.step (.char c) next := by
  obtain ⟨double, single, newline, semicolon, space, codes, delimiter⟩ := isOperatorChar_ne hc
  have number : ∀ p q : Prop, ¬ (((c = '-' ∧ p) ∧ q) ∧ digitAhead next = true) := by
    rintro p q ⟨⟨⟨rfl, -⟩, -⟩, hdigit⟩
    rw [hminus rfl] at hdigit
    cases hdigit
  have hlexeme := flushLexeme_of_flush hsign hflush
  have hplace : t.place = s.place := (stays_flush hflush).1.place
  rw [Scanner.step, hmode, Scanner.step, ht.mode]
  dsimp only
  unfold Scanner.stepPlain
  rw [hflush, ht.flush, hlexeme, flushLexeme_of_flush ht.sign ht.flush, hplace]
  simp [Letter.shown, double, single, newline, semicolon, space, Nat.not_lt.mpr codes, delimiter, hpoint, hc]
  rw [if_neg (number _ _), if_neg (number _ _)]

/-- Spaces or nothing at all may stand in front of an operator, which ends what is pending there. -/
theorem Completes.blanks (h : Completes s done) (hsign : s.sign = "") (hminus : o ≠ .minus) (hdot : o ≠ .dot)
    (blanks : Nat) : ∃ t, s.run (List.replicate blanks (Letter.char ' ') ++ (o.text.toList.map .char ++ r)) =
      t.run (o.text.toList.map .char ++ r) ∧ Holds t [] "" done := by
  induction blanks generalizing s with
  | zero =>
    obtain ⟨hmode, t, hflush, ht⟩ := h
    obtain ⟨-, -, c, cs, htext, hc, hpoint, hnext⟩ := Operator.minus_behind hminus hdot
    refine ⟨t, ?_, ht⟩
    rw [List.replicate_zero, List.nil_append, htext, List.map_cons, List.cons_append, run_cons, run_cons]
    rw [step_flushed hmode hsign hflush ht hc hpoint]
    intro hm
    obtain ⟨d, ds, rfl, hd⟩ := hnext hm
    exact hd
  | succ blanks ih =>
    obtain ⟨t, hrun, ht⟩ := h.space (r := List.replicate blanks (.char ' ') ++ (o.text.toList.map .char ++ r))
    obtain ⟨u, hrun', hu⟩ := ih ht.completes ht.sign
    exact ⟨u, hrun.trans hrun', hu⟩

section
variable (h : Holds s [] text done) (ho : Operator.ofText? text = some o)
include h ho

/-- An operator that no minus extends is a token in front of one, which is pending in its place. -/
theorem Holds.minus_behind (hjoin : Operator.ofText? (text ++ "-") = none) :
    ∃ t, s.run (.char '-' :: r) = t.run r ∧ Holds t [] "-" ((TokenKind.classify text, text) :: done) := by
  have hne : text ≠ "" := by
    rintro rfl
    exact absurd (Option.isSome_of_mem ho) (by decide)
  obtain ⟨-, t, hflush, ht⟩ := h.completes_sign ho
  have hsign : s.flushSign = .ok t := by
    have hlexeme : s.flushLexeme = .ok s := by simp [Scanner.flushLexeme, h.gathered]
    rw [Scanner.flush, hlexeme] at hflush
    exact hflush
  have hpushed : s.pushSign '-' = .ok { t with sign := "-", signPos := s.place } := by
    unfold Scanner.pushSign
    rw [h.sign, hsign]
    simp [hne, hjoin]
    rfl
  have hstep : s.step (.char '-') r.head? = (s.pushSign '-').map fun t => (t.advance (.char '-'), false) :=
    h.step_sign (by decide) (fun hc => absurd hc (by decide)) fun _ => .inr hne
  rw [hpushed] at hstep
  have hheld : Holds { t with sign := "-", signPos := s.place } [] "-"
      ((TokenKind.classify text, text) :: done) := ⟨ht.mode, ht.gathered, rfl, ht.made⟩
  exact ⟨_, run_past hstep, hheld.advance _⟩

/-- Digits behind an operator end it, and are gathered. -/
theorem Holds.digits_behind {digits : List Char} (hne : digits ≠ []) (hdigits : ∀ c ∈ digits, Text.isDigit c = true) :
    ∃ t, s.run (digits.map .char ++ r) = t.run r ∧
      Holds t digits.reverse "" ((TokenKind.classify text, text) :: done) := by
  obtain ⟨-, t, hflush, ht⟩ := h.completes_sign ho
  have hlexeme : s.flushLexeme = .ok s := by simp [Scanner.flushLexeme, h.gathered]
  rw [Scanner.flush, hlexeme] at hflush
  cases digits with
  | nil => exact absurd rfl hne
  | cons c cs =>
    rw [List.forall_mem_cons] at hdigits
    obtain ⟨u, hrun, hu⟩ := ht.nameChar_behind (r := cs.map .char ++ r) h.mode hflush
      (isNameChar_of_isDigit hdigits.1)
    obtain ⟨v, hrun', hv⟩ := hu.nameChars (r := r) fun d hd => isNameChar_of_isDigit (hdigits.2 d hd)
    refine ⟨v, ?_, by simpa using hv⟩
    rw [List.map_cons, List.cons_append, hrun, hrun']

end

end Scanner

/-- A statement that ends in a minus and digits: a name, which it may define, an operator and the number. -/
structure NegativeEnding where
  /-- Whether the statement defines the name. -/
  defines : Bool
  name : String
  /-- How many spaces stand behind the name. -/
  blanks : Nat
  op : Operator
  digits : String
  isName : TokenKind.classify name = .ident
  isDigits : ∀ c ∈ digits.toList, Text.isDigit c = true

namespace NegativeEnding

open Scanner

variable {e : NegativeEnding} {s : Scanner} {done : List (TokenKind × String)}

/-- The letters of the minus and the number behind the operator, perhaps with a space in front. -/
def tail (e : NegativeEnding) (spaced : Bool) : Source :=
  (if spaced then [Letter.char ' '] else []) ++ Letter.char '-' :: e.digits.toList.map .char

/-- The letters of the statement, with a space in front of the minus or without. -/
def letters (e : NegativeEnding) (spaced : Bool) : Source :=
  (if e.defines then "var ".toList.map .char else []) ++ (e.name.toList.map .char ++
    (List.replicate e.blanks (Letter.char ' ') ++ (e.op.text.toList.map .char ++ e.tail spaced)))

/-- What is seen of the tokens up to the operator. -/
def lead (e : NegativeEnding) : List (TokenKind × String) :=
  (if e.defines then [(TokenKind.keyword .varDef, "var")] else []) ++
    [(TokenKind.ident, e.name), (TokenKind.op e.op, e.op.text)]

/-- What is seen of the tokens behind the operator. -/
def number (e : NegativeEnding) (spaced : Bool) : List (TokenKind × String) :=
  if e.digits = "" then [(.op .minus, "-")]
  else if spaced then [(.int, "-" ++ e.digits)]
  else [(.op .minus, "-"), (.int, e.digits)]

/-- The digits, perhaps with the minus, stand for a whole number. -/
theorem classify_digits (hdigits : e.digits ≠ "") :
    TokenKind.isNumber ("-" ++ e.digits) = true ∧ TokenKind.classify ("-" ++ e.digits) = .int ∧
      TokenKind.classify e.digits = .int := by
  have hpoint : '.' ∉ e.digits.toList := fun hp => absurd (e.isDigits _ hp) (by decide)
  obtain ⟨d, ds, hlist⟩ : ∃ d ds, e.digits.toList = d :: ds :=
    List.exists_cons_of_ne_nil fun he => hdigits (String.toList_injective he)
  have hall : ∀ c ∈ d :: ds, Text.isDigit c = true := hlist ▸ e.isDigits
  have hplain : TokenKind.isNumber e.digits = true := by
    have h := isNumber_of_digits hall false
    rwa [← hlist, if_neg (by decide), List.nil_append, String.ofList_toList] at h
  have hsigned : TokenKind.isNumber ("-" ++ e.digits) = true := by
    have h := isNumber_of_digits hall true
    have htext : String.ofList ((if true then ['-'] else []) ++ e.digits.toList) = "-" ++ e.digits :=
      String.toList_injective (by simp)
    rwa [← hlist, htext] at h
  refine ⟨hsigned, ?_, ?_⟩
  · rw [TokenKind.classify_of_isNumber hsigned, if_neg]
    simpa using hpoint
  · rw [TokenKind.classify_of_isNumber hplain, if_neg]
    simpa using hpoint

/-- Behind the operator both texts come to the end, each with its own tokens. -/
theorem exists_completes (hminus : e.op ≠ .minus) (hdot : e.op ≠ .dot) (h : Holds s [] e.op.text done)
    (spaced : Bool) : ∃ t last front, s.run (e.tail spaced) = t.run [] ∧ Lexeme.WellFormed last ∧ last ≠ .newline ∧
      e.number spaced = front ++ [last.view] ∧
      Completes t (last.view :: (front.reverse ++ (.op e.op, e.op.text) :: done)) := by
  obtain ⟨ho, hjoin, -⟩ := Operator.minus_behind hminus hdot
  have hop : TokenKind.classify e.op.text = .op e.op := TokenKind.classify_of_operator ho
  have hsign : Operator.ofText? "-" = some .minus := by decide
  have hkind : TokenKind.classify "-" = .op .minus := by decide
  have hsole : (Lexeme.text "-").WellFormed := ⟨by decide, by decide⟩
  unfold tail number
  cases spaced with
  | true =>
    obtain ⟨t, hspace, ht⟩ := (h.completes_sign ho).space (r := .char '-' :: e.digits.toList.map .char)
    rw [hop] at ht
    by_cases hdigits : e.digits = ""
    · obtain ⟨u, hrun, hu⟩ := ht.operator (r := []) hsign (.inl rfl)
      rw [hkind] at hu
      refine ⟨u, .text "-", [], ?_, hsole, by simp, by rw [if_pos hdigits]; rfl, hu⟩
      rw [hdigits] at hspace ⊢
      exact hspace.trans hrun
    · obtain ⟨hnumber, hint, -⟩ := classify_digits hdigits
      obtain ⟨u, hrun, hu⟩ := ht.text (r := []) (.inr hnumber)
      have hdone := hu.completes_text (by rw [hint]; simp) (by simp)
      rw [hint] at hdone
      refine ⟨u, .text ("-" ++ e.digits), [], ?_, ⟨by rw [hint]; simp, by rw [hint]; simp⟩, by simp, ?_, ?_⟩
      · rw [← hrun, if_pos rfl]
        simpa using hspace
      · rw [if_neg hdigits, if_pos rfl, Lexeme.view, hint]
        rfl
      · rw [Lexeme.view, hint]
        exact hdone
  | false =>
    obtain ⟨t, hrun, ht⟩ := h.minus_behind (r := e.digits.toList.map .char) ho hjoin
    rw [hop] at ht
    by_cases hdigits : e.digits = ""
    · have hdone := ht.completes_sign hsign
      rw [hkind] at hdone
      refine ⟨t, .text "-", [], ?_, hsole, by simp, by rw [if_pos hdigits]; rfl, hdone⟩
      rw [hdigits] at hrun ⊢
      exact hrun
    · obtain ⟨-, -, hint⟩ := classify_digits hdigits
      obtain ⟨u, hrun', hu⟩ := ht.digits_behind (r := []) hsign
        (fun he => hdigits (String.toList_injective he)) e.isDigits
      have hdone := hu.completes_text (by rw [hint]; simp) hdigits
      rw [hint, hkind] at hdone
      refine ⟨u, .text e.digits, [(.op .minus, "-")], ?_, ⟨by rw [hint]; simp, by rw [hint]; simp⟩, by simp,
        ?_, ?_⟩
      · rw [← hrun', List.append_nil]
        exact hrun
      · rw [if_neg hdigits, if_neg (by decide), Lexeme.view, hint]
        rfl
      · rw [Lexeme.view, hint]
        exact hdone

/-- The tokens of the statement, with a space in front of the minus and without. -/
theorem tokens_letters (hminus : e.op ≠ .minus) (hdot : e.op ≠ .dot) (spaced : Bool) (file : String) :
    ∃ tokens, (e.letters spaced).tokens file = .ok tokens ∧
      tokens.map Token.view = e.lead ++ e.number spaced ++ [(TokenKind.newline, "\n"), (TokenKind.eof, "")] := by
  have hstart : Holds (Scanner.start file) [] "" [] := ⟨rfl, rfl, rfl, rfl⟩
  have hident := e.isName
  -- the word that defines the name is a token of its own
  obtain ⟨s, word, hword, hrun, hs⟩ : ∃ s word, word = (if e.defines then [(.keyword .varDef, "var")] else []) ∧
      (Scanner.start file).run (e.letters spaced) = s.run (e.name.toList.map .char ++
        (List.replicate e.blanks (Letter.char ' ') ++ (e.op.text.toList.map .char ++ e.tail spaced))) ∧
      Holds s [] "" word := by
    unfold letters
    cases e.defines with
    | false => exact ⟨_, [], rfl, rfl, hstart⟩
    | true =>
      have hword : (Lexeme.text "var").WellFormed := ⟨by decide, by decide⟩
      obtain ⟨t, hvar, ht⟩ := hstart.classified (r := Letter.char ' ' :: (e.name.toList.map .char ++
        (List.replicate e.blanks (Letter.char ' ') ++ (e.op.text.toList.map .char ++ e.tail spaced)))) hword (.inr ⟨_, rfl⟩)
      obtain ⟨u, hspace, hu⟩ := ht.space
      exact ⟨u, _, rfl, hvar.trans hspace, hu⟩
  obtain ⟨t, hname, ht⟩ := hs.text
    (r := List.replicate e.blanks (.char ' ') ++ (e.op.text.toList.map .char ++ e.tail spaced))
    (.inl (isNameChar_of_isName (TokenKind.isName_of_classify hident)))
  have hnamed := ht.completes_text (by rw [hident]; simp) (by rintro he; rw [he] at hident; cases hident)
  rw [hident] at hnamed
  obtain ⟨u, hblanks, hu⟩ := hnamed.blanks ht.sign hminus hdot e.blanks
  have hparts : Parts (e.tail spaced) := by
    unfold Parts tail
    cases spaced <;> exact ⟨by simp, by simp, rfl⟩
  obtain ⟨v, hop, hv⟩ := hu.pending (Operator.minus_behind hminus hdot).1 hparts
  obtain ⟨w, last, front, htail, hlast, hnewline, hnumber, hw⟩ := exists_completes hminus hdot hv spaced
  obtain ⟨tokens, hfinish, hview⟩ := hw.finish hlast
  refine ⟨tokens, ?_, ?_⟩
  · unfold Source.tokens
    rw [hrun, hname, hblanks, hop, htail]
    exact hfinish
  · rw [hview, hnumber, Lexeme.ending_some hnewline, hword]
    unfold lead
    cases e.defines <;> simp

end NegativeEnding

end Frontend
