import Frontend.Proofs.Token.Scan

/-!
# Written tokens

Any sequence of tokens can be written down, with a space between each two, and is read back as it was:
the same kinds with the same texts, whatever strings hold and whatever stands beside what. The proof
goes from one token to the next. In front of each token nothing is pending in the scanner; behind its
letters what is pending becomes that token as soon as it is flushed, by the space or by the end.
-/

namespace Frontend

variable {l : Lexeme} {c d : Char} {cs value : List Char} {o : Operator}
variable {last : Lexeme}

/-- What a reader sees of a token: its kind and its text. -/
def Token.view (t : Token) : TokenKind × String := (t.kind, t.literal)

/-- A token that is to be written: a name, word, sign or number, a string, or a line break. -/
inductive Lexeme where
  | text (s : String)
  | string (value : String)
  | newline
  deriving DecidableEq, Repr

namespace Lexeme

/-- A text must be the text of a token on one line; any string will do. -/
def WellFormed : Lexeme → Prop
  | text s => TokenKind.classify s ≠ .illegal ∧ TokenKind.classify s ≠ .newline
  | _ => True

def view : Lexeme → TokenKind × String
  | text s => (TokenKind.classify s, s)
  | string value => (.str, value)
  | newline => (.newline, "\n")

/-- A character as it is written inside of a string. -/
def escape : Char → List Char
  | '\\' => ['\\', '\\']
  | '\x22' => ['\\', '\x22']
  | '\n' => ['\\', 'n']
  | '\t' => ['\\', 't']
  | '\r' => ['\\', 'r']
  | '\x00' => ['\\', '0']
  | c => [c]

def written : Lexeme → List Char
  | text s => s.toList
  | string value => '\x22' :: (value.toList.flatMap escape ++ ['\x22'])
  | newline => ['\n']

/-- Tokens as they are written, with a space between each two. -/
def writtenAll : List Lexeme → List Char
  | [] => []
  | [l] => l.written
  | l :: ls => l.written ++ ' ' :: writtenAll ls

/-- No line break stands at the beginning or behind another one. -/
def Normal (ls : List Lexeme) : Prop :=
  (Lexeme.newline :: ls).IsChain fun l m => l = .newline → m ≠ .newline

theorem WellFormed.kind_eq_newline (h : l.WellFormed) : (l.view.1 == .newline) = decide (l = .newline) := by
  cases l with
  | text s => simpa [view] using h.2
  | string value => rfl
  | newline => rfl

/-- What comes behind tokens of which this is the last: a line break, unless it is one or there is no
token at all, and the end of input. -/
def ending : Option Lexeme → List (TokenKind × String)
  | none | some .newline => [(.eof, "")]
  | some _ => [(.newline, "\n"), (.eof, "")]

theorem ending_some (h : last ≠ .newline) : ending (some last) = [(.newline, "\n"), (.eof, "")] := by
  cases last with
  | newline => exact absurd rfl h
  | text _ | string _ => rfl

end Lexeme

namespace Scanner

variable {s t : Scanner} {done : List (TokenKind × String)} {gathered : List Char} {sign : String}
  {r : Source}

/-- A scanner outside of strings and comments, with what it has gathered, the sign that is pending and
what is seen of the tokens made so far, last first. -/
structure Holds (s : Scanner) (gathered : List Char) (sign : String)
    (done : List (TokenKind × String)) : Prop where
  mode : s.mode = .plain
  gathered : s.gathered = gathered
  sign : s.sign = sign
  made : s.made.map Token.view = done

/-- A scanner in which whatever is pending becomes a token as soon as it is flushed. -/
def Completes (s : Scanner) (done : List (TokenKind × String)) : Prop :=
  s.mode = .plain ∧ ∃ t, s.flush = .ok t ∧ Holds t [] "" done

/-- A text behind a token: nothing at all, or a space and more. -/
def Separate (r : Source) : Prop := r = [] ∨ ∃ more, r = .char ' ' :: more

theorem Holds.advance (h : Holds s gathered sign done) (l : Letter) : Holds (s.advance l) gathered sign done := by
  rw [advance_eq]
  exact ⟨h.mode, h.gathered, h.sign, h.made⟩

section
variable (h : Holds s [] "" done)
include h

theorem Holds.flush : s.flush = .ok s := by
  have lexeme : s.flushLexeme = .ok s := by simp [Scanner.flushLexeme, h.gathered]
  have sign : s.flushSign = .ok s := by simp [Scanner.flushSign, h.sign]
  rw [Scanner.flush, lexeme]
  exact sign

theorem Holds.completes : Completes s done := ⟨h.mode, s, h.flush, h⟩

omit h

theorem Holds.step_eq (h : Holds s gathered sign done) (l : Letter) (next : Option Letter) :
    s.step l next = s.stepPlain l next := by
  rw [Scanner.step, h.mode]

/-- Going past one letter. -/
theorem run_past {l : Letter} (h : s.step l r.head? = .ok (t, false)) : s.run (l :: r) = t.run r := by
  rw [Scanner.run, h]

/-- Going past two letters at once. -/
theorem run_past_two {l m : Letter} (h : s.step l (some m) = .ok (t, true)) : s.run (l :: m :: r) = t.run r := by
  rw [Scanner.run, List.head?_cons, h]

/-! ## Between tokens -/

/-- A space flushes what is pending. -/
theorem Completes.space (h : Completes s done) : ∃ t, s.run (.char ' ' :: r) = t.run r ∧ Holds t [] "" done := by
  obtain ⟨hmode, t, hflush, ht⟩ := h
  have hstep : s.step (.char ' ') r.head? = .ok (t.advance (.char ' '), false) := by
    rw [Scanner.step, hmode]
    dsimp only
    unfold Scanner.stepPlain
    simp only [Letter.shown, hflush]
    rfl
  exact ⟨_, run_past hstep, ht.advance _⟩

/-- The end of the text flushes what is pending and ends the line. -/
theorem Completes.finish (hlast : last.WellFormed) (h : Completes s (last.view :: done)) :
    ∃ tokens, s.run [] = .ok tokens ∧
      tokens.map Token.view = (last.view :: done).reverse ++ Lexeme.ending (some last) := by
  obtain ⟨hmode, t, hflush, ht⟩ := h
  refine ⟨_, finish_eq_ok.mpr ⟨.inl hmode, t, hflush, rfl⟩, ?_⟩
  obtain ⟨token, made, hmade⟩ : ∃ token made, t.made = token :: made := by
    cases hm : t.made with
    | nil => exact absurd ht.made (by simp [hm])
    | cons token made => exact ⟨token, made, rfl⟩
  have hview : token.view = last.view ∧ made.map Token.view = done := by
    simpa [hmade] using ht.made
  have hkind : (token.kind == .newline) = decide (last = .newline) := by
    rw [show token.kind = last.view.1 from congrArg Prod.fst hview.1, hlast.kind_eq_newline]
  unfold Scanner.breakLine
  rw [hmade]
  dsimp only
  rw [hkind, ← hview.1, ← hview.2]
  by_cases hn : last = .newline
  · simp [hn, Lexeme.ending, Scanner.push, hmade, Token.view, Token.eof]
  · simp [hn, Lexeme.ending_some, Scanner.push, hmade, Token.view, Token.eof, Token.newline]

/-! ## Names, words and numbers -/

/-- What is gathered becomes a token when it is the text of one. -/
theorem Holds.completes_text {text : String} (h : Holds s text.toList.reverse "" done)
    (hlegal : TokenKind.classify text ≠ .illegal) (hne : text ≠ "") :
    Completes s ((TokenKind.classify text, text) :: done) := by
  have hempty : s.gathered.isEmpty = false := by
    rw [h.gathered]
    simpa using hne
  have hlexeme : s.lexeme = text := by
    rw [lexeme, h.gathered, List.reverse_reverse, String.ofList_toList]
  have hflush : s.flushLexeme =
      .ok { s with gathered := [], made := Token.ofText text s.lexemePos :: s.made } := by
    unfold Scanner.flushLexeme
    have hkind : ((Token.ofText text s.lexemePos).kind == .illegal) = false := by
      simpa [Token.ofText] using hlegal
    rw [hempty, hlexeme]
    simp only [Bool.false_eq_true, if_false, hkind]
  refine ⟨h.mode, { s with gathered := [], made := Token.ofText text s.lexemePos :: s.made }, ?_,
    ⟨h.mode, rfl, h.sign, ?_⟩⟩
  · rw [Scanner.flush, hflush]
    change Scanner.flushSign _ = _
    simp [Scanner.flushSign, h.sign]
  · simp [Token.view, Token.ofText, h.made]

/-- A letter of a name is no blank, quote, delimiter or part of an operator. -/
theorem isNameChar_cases (h : TokenKind.isNameChar c = true) :
    c ≠ '/' ∧ c ≠ '\x22' ∧ c ≠ '\x27' ∧ c ≠ '\n' ∧ c ≠ ';' ∧ c ≠ '.' ∧ c ≠ '-' ∧
      c ≠ ' ' ∧ 0x20 ≤ c.toNat ∧ isOperatorChar c = false ∧ TokenKind.ofDelimiter? (String.singleton c) = none := by
  have other : ∀ d : Char, TokenKind.isNameChar d = false → c ≠ d := by
    rintro d hd rfl
    exact absurd h (by simp [hd])
  have codes : 0x20 ≤ c.toNat := by
    by_contra hlt
    have all : ∀ n < 0x20, TokenKind.isNameChar (Char.ofNat n) = false := by decide
    exact other _ (all c.toNat (by omega)) (Char.ofNat_toNat c).symm
  have operator : isOperatorChar c = false := by
    have all : ∀ d ∈ "+-*/%=!<>&|.:".toList, TokenKind.isNameChar d = false := by decide
    by_contra hop
    simp only [isOperatorChar, Bool.not_eq_false, List.contains_iff_mem] at hop
    exact other c (all c hop) rfl
  have delimiter : TokenKind.ofDelimiter? (String.singleton c) = none := by
    have single : ∀ d : Char, String.singleton c = String.singleton d → c = d := fun d hd => by
      simpa using congrArg String.toList hd
    unfold TokenKind.ofDelimiter?
    split
    next hd => exact absurd (single ',' hd) (other _ (by decide))
    next hd => exact absurd (single '\n' hd) (other _ (by decide))
    next hd => exact absurd (single '(' hd) (other _ (by decide))
    next hd => exact absurd (single ')' hd) (other _ (by decide))
    next hd => exact absurd (single '[' hd) (other _ (by decide))
    next hd => exact absurd (single ']' hd) (other _ (by decide))
    next hd => exact absurd (single '\x7b' hd) (other _ (by decide))
    next hd => exact absurd (single '\x7d' hd) (other _ (by decide))
    next => rfl
  exact ⟨other _ (by decide), other _ (by decide), other _ (by decide), other _ (by decide),
    other _ (by decide), other _ (by decide), other _ (by decide), other _ (by decide), codes, operator, delimiter⟩

theorem Holds.gather (h : Holds s gathered sign done) (c : Char) :
    Holds (s.gather c) (c :: gathered) sign done := by
  unfold Scanner.gather
  split
  next hempty =>
    rw [h.gathered, List.isEmpty_iff] at hempty
    exact ⟨h.mode, by rw [hempty], h.sign, h.made⟩
  next => exact ⟨h.mode, by rw [← h.gathered], h.sign, h.made⟩

/-- A letter of a name ends an operator in front of it, and is gathered. -/
theorem Holds.nameChar_behind (h : Holds t gathered "" done) (hmode : s.mode = .plain)
    (hflush : s.flushSign = .ok t) (hc : TokenKind.isNameChar c = true) :
    ∃ u, s.run (.char c :: r) = u.run r ∧ Holds u (c :: gathered) "" done := by
  obtain ⟨slash, double, single, newline, semicolon, point, minus, space, codes, operator,
    delimiter⟩ := isNameChar_cases hc
  have hstep : s.step (.char c) r.head? = .ok ((t.gather c).advance (.char c), false) := by
    rw [Scanner.step, hmode]
    unfold Scanner.stepPlain
    simp [Letter.shown, slash, double, single, newline, semicolon, point, minus, space,
      Nat.not_lt.mpr codes, operator, delimiter, hc, hflush]
  exact ⟨_, run_past hstep, (h.gather c).advance _⟩

/-- A letter of a name is gathered. -/
theorem Holds.nameChar (h : Holds s gathered "" done) (hc : TokenKind.isNameChar c = true) :
    ∃ t, s.run (.char c :: r) = t.run r ∧ Holds t (c :: gathered) "" done :=
  h.nameChar_behind h.mode (by simp [Scanner.flushSign, h.sign]) hc

/-- Letters of names are gathered one after another. -/
theorem Holds.nameChars (h : Holds s gathered "" done) (hcs : ∀ c ∈ cs, TokenKind.isNameChar c = true) :
    ∃ t, s.run (cs.map .char ++ r) = t.run r ∧ Holds t (cs.reverse ++ gathered) "" done := by
  induction cs generalizing s gathered with
  | nil => exact ⟨s, rfl, h⟩
  | cons c cs ih =>
    obtain ⟨t, hrun, ht⟩ := h.nameChar (r := cs.map .char ++ r) (hcs c List.mem_cons_self)
    obtain ⟨u, hrun', hu⟩ := ih ht fun d hd => hcs d (List.mem_cons_of_mem c hd)
    refine ⟨u, ?_, by simpa using hu⟩
    rw [List.map_cons, List.cons_append, hrun, hrun']

theorem isNameChar_of_isName {text : String} (h : TokenKind.isName text = true) :
    ∀ c ∈ text.toList, TokenKind.isNameChar c = true := by
  unfold TokenKind.isName at h
  split at h
  · cases h
  next c cs heq =>
    rw [Bool.and_eq_true, List.all_eq_true] at h
    rw [heq, List.forall_mem_cons]
    exact ⟨by simp [TokenKind.isNameChar, h.1], h.2⟩

theorem isNameChar_of_isDigit (h : Text.isDigit c = true) : TokenKind.isNameChar c = true := by
  simp [TokenKind.isNameChar, h]

include h

/-- A minus in front of a digit is gathered. -/
theorem Holds.minus (hd : Text.isDigit d = true) : ∃ t, s.run (.char '-' :: .char d :: r) = t.run (.char d :: r) ∧
      Holds t ['-'] "" done := by
  have hstep : s.step (.char '-') (some (.char d)) =
      .ok ((s.gather '-').advance (.char '-'), false) := by
    rw [h.step_eq]
    unfold Scanner.stepPlain
    simp [Letter.shown, h.gathered, h.sign, digitAhead, hd, TokenKind.ofDelimiter?]
    rfl
  exact ⟨_, run_past (r := .char d :: r) hstep, (h.gather '-').advance _⟩

omit h

/-- A point behind a whole number and in front of a digit is gathered. -/
theorem Holds.point (h : Holds s gathered "" done)
    (hint : TokenKind.isNumber (String.ofList gathered.reverse) = true) (hpoint : '.' ∉ gathered)
    (hd : Text.isDigit d = true) : ∃ t, s.run (.char '.' :: .char d :: r) = t.run (.char d :: r) ∧
      Holds t ('.' :: gathered) "" done := by
  have holds : s.holdsInteger = true := by
    simp [holdsInteger, lexeme, h.gathered, hint, hpoint]
  have hstep : s.step (.char '.') (some (.char d)) =
      .ok ((s.gather '.').advance (.char '.'), false) := by
    rw [h.step_eq]
    unfold Scanner.stepPlain
    simp [Letter.shown, holds, digitAhead, hd, TokenKind.ofDelimiter?]
    rfl
  exact ⟨_, run_past (r := .char d :: r) hstep, (h.gather '.').advance _⟩

/-- A number without a sign: digits, perhaps with a point and more digits. -/
theorem isUnsigned_cases (h : TokenKind.isUnsigned cs = true) : ∃ d ds, (∀ c ∈ d :: ds, Text.isDigit c = true) ∧
      (cs = d :: ds ∨ ∃ e es, (∀ c ∈ e :: es, Text.isDigit c = true) ∧ cs = d :: ds ++ '.' :: e :: es) := by
  cases cs with
  | nil => cases h
  | cons d cs =>
    simp only [TokenKind.isUnsigned, Bool.and_eq_true, List.all_eq_true, Bool.or_eq_true,
      beq_iff_eq, decide_eq_true_eq, bne_iff_ne, ne_eq] at h
    obtain ⟨⟨⟨hd, hall⟩, hcount⟩, hlast⟩ := h
    -- all letters but the point are digits, so what lies on both sides of it is
    have digits : ∀ part : List Char, (∀ c ∈ part, c ∈ d :: cs) → '.' ∉ part →
        ∀ c ∈ part, Text.isDigit c = true := by
      intro part hpart hpoint c hc
      rcases hall c (hpart c hc) with hdigit | rfl
      · exact hdigit
      · exact absurd hc hpoint
    have hdpoint : d ≠ '.' := by
      rintro rfl
      exact absurd hd (by decide)
    by_cases hpoint : '.' ∈ cs
    · obtain ⟨ds, more, rfl⟩ := List.append_of_mem hpoint
      have hcounts : ds.count '.' = 0 ∧ more.count '.' = 0 := by
        simp only [List.count_cons, List.count_append, beq_iff_eq, hdpoint, if_false, if_true] at hcount
        omega
      have hds : '.' ∉ d :: ds := by
        simpa [hdpoint.symm] using List.count_eq_zero.mp hcounts.1
      cases more with
      | nil => exact absurd (by rw [← List.cons_append, List.getLast?_concat]) hlast
      | cons e es =>
        refine ⟨d, ds, digits _ (fun c hc => ?_) hds, .inr ⟨e, es, digits _ (fun c hc => ?_) ?_, rfl⟩⟩
        · rw [← List.cons_append]
          exact List.mem_append_left _ hc
        · exact List.mem_cons_of_mem d (List.mem_append_right ds (List.mem_cons_of_mem '.' hc))
        · exact List.count_eq_zero.mp hcounts.2
    · exact ⟨d, cs, digits _ (fun _ hc => hc) (by simpa [hdpoint.symm] using hpoint), .inl rfl⟩

theorem isNumber_of_digits {ds : List Char} (h : ∀ c ∈ d :: ds, Text.isDigit c = true) (negative : Bool) :
    TokenKind.isNumber (String.ofList ((if negative then ['-'] else []) ++ d :: ds)) = true := by
  have hpoint : '.' ∉ d :: ds := fun hp => absurd (h _ hp) (by decide)
  have unsigned : TokenKind.isUnsigned (d :: ds) = true := by
    simp only [TokenKind.isUnsigned, Bool.and_eq_true, List.all_eq_true, Bool.or_eq_true,
      decide_eq_true_eq, bne_iff_ne, ne_eq]
    refine ⟨⟨⟨h d List.mem_cons_self, fun c hc => .inl (h c hc)⟩, ?_⟩, ?_⟩
    · rw [List.count_eq_zero.mpr hpoint]
      exact Nat.zero_le 1
    · exact fun hlast => hpoint (List.mem_of_getLast? hlast)
  unfold TokenKind.isNumber
  rw [String.toList_ofList]
  cases negative with
  | true => exact unsigned
  | false =>
    simp only [Bool.false_eq_true, if_false, List.nil_append]
    split
    next heq =>
      cases heq
      exact absurd (h '-' List.mem_cons_self) (by decide)
    next => exact unsigned

/-- The digits of a number without a sign, with a point in between, are gathered. -/
theorem Holds.unsigned (negative : Bool) (h : Holds s (if negative then ['-'] else []) "" done)
    (hcs : TokenKind.isUnsigned cs = true) : ∃ t, s.run (cs.map .char ++ r) = t.run r ∧
      Holds t (cs.reverse ++ if negative then ['-'] else []) "" done := by
  obtain ⟨d, ds, hds, rfl | ⟨e, es, hes, rfl⟩⟩ := isUnsigned_cases hcs
  · exact h.nameChars fun c hc => isNameChar_of_isDigit (hds c hc)
  · obtain ⟨t, hrun, ht⟩ := h.nameChars (r := ('.' :: e :: es).map .char ++ r)
      fun c hc => isNameChar_of_isDigit (hds c hc)
    have hint : TokenKind.isNumber
        (String.ofList ((d :: ds).reverse ++ if negative then ['-'] else []).reverse) = true := by
      have := isNumber_of_digits hds negative
      cases negative <;> simpa using this
    have hpoint : '.' ∉ (d :: ds).reverse ++ if negative then ['-'] else [] := by
      have hp : '.' ∉ d :: ds := fun hp => absurd (hds _ hp) (by decide)
      cases negative <;> simpa [and_comm] using hp
    obtain ⟨u, hrun', hu⟩ := ht.point (r := es.map .char ++ r) hint hpoint
      (hes e List.mem_cons_self)
    obtain ⟨v, hrun'', hv⟩ := hu.nameChars (r := r) fun c hc => isNameChar_of_isDigit (hes c hc)
    refine ⟨v, ?_, by simpa using hv⟩
    rw [List.map_append, List.append_assoc, hrun, ← hrun'']
    exact hrun'

include h

/-- The letters of a name, a word or a number are gathered. -/
theorem Holds.text {text : String}
    (htext : (∀ c ∈ text.toList, TokenKind.isNameChar c = true) ∨ TokenKind.isNumber text = true) :
    ∃ t, s.run (text.toList.map .char ++ r) = t.run r ∧ Holds t text.toList.reverse "" done := by
  rcases htext with hname | hnumber
  · simpa using h.nameChars (r := r) hname
  · unfold TokenKind.isNumber at hnumber
    split at hnumber
    next digits heq =>
      obtain ⟨d, ds, hds, hcs⟩ := isUnsigned_cases hnumber
      obtain ⟨more, hdigits⟩ : ∃ more, digits = d :: more := by
        rcases hcs with rfl | ⟨e, es, -, rfl⟩
        · exact ⟨ds, rfl⟩
        · exact ⟨_, rfl⟩
      obtain ⟨t, hrun, ht⟩ := h.minus (r := more.map .char ++ r) (hds d List.mem_cons_self)
      obtain ⟨u, hrun', hu⟩ := Holds.unsigned (r := r) true ht hnumber
      refine ⟨u, ?_, by simpa [heq] using hu⟩
      rw [heq, ← hrun', hdigits]
      exact hrun
    next => simpa using Holds.unsigned (r := r) false h hnumber

omit h

/-! ## Signs -/

/-- Behind a token there is neither a digit nor the second letter of a comment sign. -/
theorem Separate.head? (h : Separate r) : r.head? = none ∨ r.head? = some (.char ' ') := by
  rcases h with rfl | ⟨more, rfl⟩
  · exact .inl rfl
  · exact .inr rfl

include h

/-- A delimiter is a token at once. -/
theorem Holds.delimiter {b : String} {k : TokenKind} (hb : TokenKind.ofDelimiter? b = some k) (hk : k ≠ .newline) :
    ∃ t, s.run (b.toList.map .char ++ r) = t.run r ∧ Completes t ((TokenKind.classify b, b) :: done) := by
  obtain ⟨c, hc, rfl⟩ : ∃ c ∈ ",()[]\x7b\x7d".toList, b = String.singleton c := by
    unfold TokenKind.ofDelimiter? at hb
    split at hb
    · exact ⟨',', by decide, rfl⟩
    · exact absurd (Option.some.inj hb).symm hk
    · exact ⟨'(', by decide, rfl⟩
    · exact ⟨')', by decide, rfl⟩
    · exact ⟨'[', by decide, rfl⟩
    · exact ⟨']', by decide, rfl⟩
    · exact ⟨'\x7b', by decide, rfl⟩
    · exact ⟨'\x7d', by decide, rfl⟩
    · cases hb
  have others : ∀ c ∈ ",()[]\x7b\x7d".toList, c ≠ '/' ∧ c ≠ '\x22' ∧ c ≠ '\x27' ∧ c ≠ '\n' ∧ c ≠ ';' ∧
      c ≠ ' ' ∧ 0x20 ≤ c.toNat := by decide
  obtain ⟨slash, double, single, newline, semicolon, space, codes⟩ := others c hc
  have hstep : s.step (.char c) r.head? =
      .ok ((s.push (.ofText (String.singleton c) s.place)).advance (.char c), false) := by
    rw [h.step_eq]
    unfold Scanner.stepPlain
    simp [Letter.shown, slash, double, single, newline, semicolon, space, Nat.not_lt.mpr codes, hb, h.flush]
  have pushed : Holds (s.push (.ofText (String.singleton c) s.place)) [] ""
      ((TokenKind.classify (String.singleton c), String.singleton c) :: done) :=
    ⟨h.mode, h.gathered, h.sign, by simp [Scanner.push, Token.view, Token.ofText, h.made]⟩
  exact ⟨_, by simpa using run_past hstep, (pushed.advance _).completes⟩

omit h

/-- A letter of an operator has no other use. -/
theorem isOperatorChar_ne (hc : isOperatorChar c = true) : c ≠ '\x22' ∧ c ≠ '\x27' ∧ c ≠ '\n' ∧ c ≠ ';' ∧
    c ≠ ' ' ∧ 0x20 ≤ c.toNat ∧ TokenKind.ofDelimiter? (String.singleton c) = none := by
  have others : ∀ c ∈ "+-*/%=!<>&|.:".toList, c ≠ '\x22' ∧ c ≠ '\x27' ∧ c ≠ '\n' ∧ c ≠ ';' ∧
      c ≠ ' ' ∧ 0x20 ≤ c.toNat ∧ TokenKind.ofDelimiter? (String.singleton c) = none := by decide
  exact others c (List.contains_iff_mem.mp hc)

/-- A letter of an operator joins the pending sign, unless it opens a comment or is the minus of a
number. Behind a sign there is no such minus. -/
theorem Holds.step_sign (h : Holds s [] sign done) {next : Option Letter} (hc : isOperatorChar c = true)
    (hcomment : c = '/' → next ≠ some (.char '/') ∧ next ≠ some (.char '*'))
    (hminus : c = '-' → digitAhead next = false ∨ sign ≠ "") :
    s.step (.char c) next = (s.pushSign c).map fun t => (t.advance (.char c), false) := by
  obtain ⟨double, single, newline, semicolon, space, codes, delimiter⟩ := isOperatorChar_ne hc
  have line : (c == '/' && next == some (.char '/')) = false := by
    by_cases hslash : c = '/'
    · simp [(hcomment hslash).1]
    · simp [hslash]
  have block : (c == '/' && next == some (.char '*')) = false := by
    by_cases hslash : c = '/'
    · simp [(hcomment hslash).2]
    · simp [hslash]
  have number : (c == '-' && s.gathered.isEmpty && s.sign.isEmpty && digitAhead next) = false := by
    by_cases hm : c = '-'
    · rcases hminus hm with hdigit | hsign
      · simp [hdigit]
      · simp [h.sign, hsign]
    · simp [hm]
  have whole : s.holdsInteger = false := by
    simp [holdsInteger, lexeme, h.gathered, TokenKind.isNumber, TokenKind.isUnsigned]
  have lexeme : s.flushLexeme = .ok s := by simp [Scanner.flushLexeme, h.gathered]
  rw [h.step_eq]
  unfold Scanner.stepPlain
  simp only [Letter.shown, line, block, number, whole, lexeme, hc]
  simp [double, single, newline, semicolon, space, Nat.not_lt.mpr codes, delimiter]
  change ((s.pushSign c).map _) = _
  rfl

/-- A pending operator becomes a token when it is flushed. -/
theorem Holds.completes_sign {text : String} (h : Holds s [] text done) (ho : Operator.ofText? text = some o) :
    Completes s ((TokenKind.classify text, text) :: done) := by
  have hne : text.isEmpty = false := by
    by_contra hempty
    rw [Bool.not_eq_false, String.isEmpty_iff] at hempty
    rw [hempty] at ho
    exact absurd (Option.isSome_of_mem ho) (by decide)
  have lexeme : s.flushLexeme = .ok s := by simp [Scanner.flushLexeme, h.gathered]
  have sign : s.flushSign =
      .ok { s with sign := "", made := Token.ofText text s.signPos :: s.made } := by
    simp [Scanner.flushSign, h.sign, hne, ho]
  refine ⟨h.mode, { s with sign := "", made := Token.ofText text s.signPos :: s.made }, ?_,
    ⟨h.mode, h.gathered, rfl, by simp [Token.view, Token.ofText, h.made]⟩⟩
  rw [Scanner.flush, lexeme]
  exact sign

/-- Operators have one or two letters, of which none makes a comment or a number with the next. -/
def spellsOperator : List Char → Bool
  | [c] => isOperatorChar c
  | [c, d] =>
    isOperatorChar c && isOperatorChar d && (c != '/' || (d != '/' && d != '*')) && !Text.isDigit d
  | _ => false

/-- Behind an operator there is neither a digit nor the second letter of a comment sign. -/
def Parts (r : Source) : Prop :=
  r.head? ≠ some (.char '/') ∧ r.head? ≠ some (.char '*') ∧ digitAhead r.head? = false

theorem Separate.parts (h : Separate r) : Parts r := by
  unfold Parts
  rcases h.head? with hr | hr <;> rw [hr] <;> simp [digitAhead, Text.isDigit]

include h

/-- An operator is pending behind its letters. -/
theorem Holds.pending {text : String} (ho : Operator.ofText? text = some o)
    (hrest : Parts r) : ∃ t, s.run (text.toList.map .char ++ r) = t.run r ∧ Holds t [] text done := by
  have all : ∀ e ∈ Operator.table, spellsOperator e.1.toList = true := by decide
  have spelled : spellsOperator text.toList = true := by
    obtain ⟨l₁, l₂, hl, -⟩ := List.lookup_eq_some_iff.mp ho
    exact all (text, o) (hl ▸ by simp)
  have first : ∀ c : Char, s.pushSign c = .ok { s with sign := c.toString, signPos := s.place } := by
    intro c
    simp [Scanner.pushSign, h.sign]
  have holds : ∀ c : Char, Holds { s with sign := c.toString, signPos := s.place } [] c.toString done :=
    fun c => ⟨h.mode, h.gathered, rfl, h.made⟩
  unfold spellsOperator at spelled
  split at spelled
  next c heq =>
    obtain rfl : c.toString = text := by
      rw [← String.ofList_toList (s := text), heq]
      rfl
    have hstep := h.step_sign spelled (fun _ => ⟨hrest.1, hrest.2.1⟩) fun _ => .inl hrest.2.2
    rw [first] at hstep
    exact ⟨_, by simpa using run_past hstep, (holds c).advance (.char c)⟩
  next c d heq =>
    simp only [Bool.and_eq_true, Bool.or_eq_true, bne_iff_ne, ne_eq, Bool.not_eq_true'] at spelled
    obtain ⟨⟨⟨hc, hd⟩, hcomment⟩, hdigit⟩ := spelled
    have htext : c.toString ++ d.toString = text := String.toList_injective (by simp [heq])
    have hnext : c = '/' → some (Letter.char d) ≠ some (.char '/') ∧ some (Letter.char d) ≠ some (.char '*') := by
      intro hslash
      simpa using hcomment.resolve_left (not_not_intro hslash)
    have hstep := h.step_sign hc hnext fun _ => .inl hdigit
    rw [first] at hstep
    have second : Holds ({ s with sign := c.toString, signPos := s.place }.advance (.char c)) []
        c.toString done := (holds c).advance _
    have hstep' := second.step_sign hd (fun _ => ⟨hrest.1, hrest.2.1⟩) fun _ => .inl hrest.2.2
    have joined : ∀ {u : Scanner}, Holds u [] c.toString done →
        u.pushSign d = .ok { u with sign := text } := by
      intro u hu
      simp only [Scanner.pushSign, hu.sign, htext, ho]
      simp
    rw [joined second] at hstep'
    have both : Holds { ({ s with sign := c.toString, signPos := s.place }.advance (.char c)) with
        sign := text } [] text done := ⟨second.mode, second.gathered, rfl, second.made⟩
    refine ⟨_, ?_, both.advance (.char d)⟩
    rw [heq]
    change s.run (.char c :: .char d :: r) = _
    rw [run_past (r := .char d :: r) hstep, run_past hstep']
  · cases spelled

theorem Holds.operator {text : String} (ho : Operator.ofText? text = some o) (hrest : Separate r) :
    ∃ t, s.run (text.toList.map .char ++ r) = t.run r ∧ Completes t ((TokenKind.classify text, text) :: done) := by
  obtain ⟨t, hrun, ht⟩ := h.pending ho hrest.parts
  exact ⟨t, hrun, ht.completes_sign ho⟩

omit h

/-! ## Strings and line breaks -/

/-- A scanner inside of a string, with the letters of the string so far, last first. -/
structure Quotes (s : Scanner) (value : List Char) (done : List (TokenKind × String)) : Prop where
  mode : ∃ opened, s.mode = .quoted '\x22' opened
  gathered : s.gathered = value
  sign : s.sign = ""
  made : s.made.map Token.view = done

theorem Quotes.advance (h : Quotes s value done) (l : Letter) : Quotes (s.advance l) value done := by
  rw [advance_eq]
  exact ⟨h.mode, h.gathered, h.sign, h.made⟩

/-- The letters that a character is written with are read as that character. -/
theorem Quotes.escape (h : Quotes s value done) (c : Char) :
    ∃ t, s.run ((Lexeme.escape c).map .char ++ r) = t.run r ∧ Quotes t (c :: value) done := by
  obtain ⟨opened, hmode⟩ := h.mode
  have taken : Quotes { s with gathered := c :: s.gathered } (c :: value) done :=
    ⟨⟨opened, hmode⟩, by rw [h.gathered], h.sign, h.made⟩
  have escaped : ∀ e : Char, Scanner.unescape e = some c →
      ∃ t, s.run (.char '\\' :: .char e :: r) = t.run r ∧ Quotes t (c :: value) done := by
    intro e he
    refine ⟨_, run_past_two (t := ({ s with gathered := c :: s.gathered }.advance (.char '\\')).advance
      (.char e)) ?_, (taken.advance _).advance _⟩
    rw [Scanner.step, hmode]
    simp [Scanner.stepQuoted, Letter.is, Letter.shown, he, hmode]
  unfold Lexeme.escape
  split
  · exact escaped '\\' rfl
  · exact escaped '\x22' rfl
  · exact escaped 'n' rfl
  · exact escaped 't' rfl
  · exact escaped 'r' rfl
  · exact escaped '0' rfl
  next _ hslash hquote _ _ _ _ =>
    have hslash : c ≠ '\\' := hslash
    have hquote : c ≠ '\x22' := hquote
    refine ⟨_, run_past (t := { s with gathered := c :: s.gathered }.advance (.char c)) ?_, taken.advance _⟩
    rw [Scanner.step, hmode]
    simp [Scanner.stepQuoted, Letter.is, Letter.shown, hslash, hquote, hmode]

theorem Quotes.escapes (h : Quotes s value done) (cs : List Char) :
    ∃ t, s.run ((cs.flatMap Lexeme.escape).map .char ++ r) = t.run r ∧ Quotes t (cs.reverse ++ value) done := by
  induction cs generalizing s value with
  | nil => exact ⟨s, rfl, h⟩
  | cons c cs ih =>
    obtain ⟨t, hrun, ht⟩ := h.escape (r := (cs.flatMap Lexeme.escape).map .char ++ r) c
    obtain ⟨u, hrun', hu⟩ := ih ht
    refine ⟨u, ?_, by simpa using hu⟩
    rw [List.flatMap_cons, List.map_append, List.append_assoc, hrun, hrun']

include h

/-- A string is a token as soon as it is closed, with the value that was written. -/
theorem Holds.string (value : String) : ∃ t, s.run ((Lexeme.string value).written.map .char ++ r) = t.run r ∧
      Completes t ((.str, value) :: done) := by
  have opening : ∀ next, s.step (.char '\x22') next =
      .ok ({ s with mode := .quoted '\x22' s.place }.advance (.char '\x22'), false) := by
    intro next
    rw [h.step_eq]
    unfold Scanner.stepPlain
    simp [Letter.shown, h.flush]
  have opened : Quotes { s with mode := .quoted '\x22' s.place } [] done :=
    ⟨⟨_, rfl⟩, h.gathered, h.sign, h.made⟩
  obtain ⟨t, hrun, ht⟩ := (opened.advance (.char '\x22')).escapes
    (r := .char '\x22' :: r) value.toList
  obtain ⟨pos, hmode⟩ := ht.mode
  have closing : t.step (.char '\x22') r.head? =
      .ok ({ t with
        gathered := [], mode := .plain, made := .ofString t.lexeme pos :: t.made }.advance
        (.char '\x22'), false) := by
    rw [Scanner.step, hmode]
    simp [Scanner.stepQuoted, Letter.is]
  have closed : Holds { t with
      gathered := [], mode := .plain, made := .ofString t.lexeme pos :: t.made } [] ""
      ((.str, value) :: done) :=
    ⟨rfl, rfl, ht.sign, by simp [Token.view, Token.ofString, lexeme, ht.gathered, ht.made]⟩
  refine ⟨_, ?_, (closed.advance (.char '\x22')).completes⟩
  rw [← run_past closing, ← hrun]
  rw [Lexeme.written, List.map_cons, List.cons_append, run_past (opening _)]
  simp

omit h

/-- A line break is a token behind any other token. -/
theorem Holds.newline {kind : TokenKind} {literal : String} (h : Holds s [] "" ((kind, literal) :: done))
    (hkind : kind ≠ .newline) : ∃ t, s.run (.char '\n' :: r) = t.run r ∧
      Completes t ((.newline, "\n") :: (kind, literal) :: done) := by
  have broken : s.breakLine s.place = s.push (.newline s.place) := by
    unfold Scanner.breakLine
    cases hmade : s.made with
    | nil => exact absurd h.made (by simp [hmade])
    | cons token made =>
      have hview : token.view = (kind, literal) := by
        have := h.made
        rw [hmade, List.map_cons, List.cons.injEq] at this
        exact this.1
      have htoken : (token.kind == .newline) = false := by
        rw [show token.kind = kind from congrArg Prod.fst hview]
        simpa using hkind
      simp [htoken]
  have hstep : s.step (.char '\n') r.head? =
      .ok ((s.push (.newline s.place)).advance (.char '\n'), false) := by
    rw [h.step_eq, ← broken]
    unfold Scanner.stepPlain
    simp [Letter.shown, h.flush]
  have pushed : Holds (s.push (.newline s.place)) [] "" ((.newline, "\n") :: (kind, literal) :: done) :=
    ⟨h.mode, h.gathered, h.sign, by simp [Scanner.push, Token.view, Token.newline, h.made]⟩
  exact ⟨_, run_past hstep, (pushed.advance _).completes⟩

include h

/-! ## Sequences of tokens -/

/-- A text that is classified as something is a delimiter, an operator, or made of letters or digits. -/
theorem Holds.classified {text : String} (hl : (Lexeme.text text).WellFormed) (hrest : Separate r) :
    ∃ t, s.run (text.toList.map .char ++ r) = t.run r ∧ Completes t ((TokenKind.classify text, text) :: done) := by
  have gathers : ((∀ c ∈ text.toList, TokenKind.isNameChar c = true) ∨
      TokenKind.isNumber text = true) → ∃ t, s.run (text.toList.map .char ++ r) = t.run r ∧
        Completes t ((TokenKind.classify text, text) :: done) := by
    intro htext
    obtain ⟨t, hrun, ht⟩ := h.text (r := r) htext
    refine ⟨t, hrun, ht.completes_text hl.1 ?_⟩
    rintro rfl
    exact hl.1 rfl
  have kinds := hl
  simp only [Lexeme.WellFormed, TokenKind.classify] at kinds
  split at kinds
  · exact absurd rfl kinds.1
  split at kinds
  next k hd => exact h.delimiter hd kinds.2
  split at kinds
  next o ho => exact h.operator ho hrest
  split at kinds
  next k hk =>
    have all : ∀ e ∈ TokenKind.words, e.1.toList.all TokenKind.isNameChar = true := by decide
    obtain ⟨l₁, l₂, hl, -⟩ := List.lookup_eq_some_iff.mp hk
    exact gathers (.inl (List.all_eq_true.mp (all (text, k) (hl ▸ by simp))))
  split at kinds
  next hnumber => exact gathers (.inr hnumber)
  split at kinds
  next hname => exact gathers (.inl (isNameChar_of_isName hname))
  · exact absurd rfl kinds.1

/-- Any token that may stand here is completed by its letters. -/
theorem Holds.lexeme (hl : l.WellFormed)
    (hline : l = .newline → ∃ kind literal more, done = (kind, literal) :: more ∧ kind ≠ .newline)
    (hrest : Separate r) : ∃ t, s.run (l.written.map .char ++ r) = t.run r ∧ Completes t (l.view :: done) := by
  cases l with
  | text text => exact h.classified hl hrest
  | string value => exact h.string value
  | newline =>
    obtain ⟨kind, literal, more, rfl, hkind⟩ := hline rfl
    exact h.newline hkind

/-- From any place between two tokens, the tokens that are written behind it are read. -/
theorem Holds.writtenAll {ls : List Lexeme} (hls : ∀ m ∈ l :: ls, m.WellFormed)
    (hchain : (l :: ls).IsChain fun l m => l = .newline → m ≠ .newline)
    (hline : l = .newline → ∃ kind literal more, done = (kind, literal) :: more ∧ kind ≠ .newline) :
    ∃ tokens, s.run ((Lexeme.writtenAll (l :: ls)).map .char) = .ok tokens ∧
      tokens.map Token.view = done.reverse ++ (l :: ls).map Lexeme.view ++ Lexeme.ending (l :: ls).getLast? := by
  have hl : l.WellFormed := hls l List.mem_cons_self
  induction ls generalizing s done l with
  | nil =>
    obtain ⟨t, hrun, ht⟩ := h.lexeme (r := []) hl hline (.inl rfl)
    obtain ⟨tokens, hfinish, hview⟩ := ht.finish hl
    refine ⟨tokens, ?_, by simpa using hview⟩
    rw [← hfinish, ← hrun, List.append_nil]
    rfl
  | cons m ls ih =>
    obtain ⟨t, hrun, ht⟩ := h.lexeme (r := .char ' ' :: (Lexeme.writtenAll (m :: ls)).map .char) hl hline
      (.inr ⟨_, rfl⟩)
    obtain ⟨u, hrun', hu⟩ := ht.space (r := (Lexeme.writtenAll (m :: ls)).map .char)
    rw [List.isChain_cons_cons] at hchain
    have hnext : m = .newline →
        ∃ kind literal more, l.view :: done = (kind, literal) :: more ∧ kind ≠ .newline := by
      intro hm
      have hne : l ≠ .newline := fun hl => hchain.1 hl hm
      refine ⟨l.view.1, l.view.2, done, rfl, ?_⟩
      have hkind := hl.kind_eq_newline
      rw [decide_eq_false hne] at hkind
      exact beq_eq_false_iff_ne.mp hkind
    obtain ⟨tokens, hrest, hview⟩ := ih hu (fun n hn => hls n (List.mem_cons_of_mem l hn)) hchain.2 hnext
      (hls m (List.mem_cons_of_mem l List.mem_cons_self))
    refine ⟨tokens, ?_, by simpa using hview⟩
    rw [← hrest, ← hrun', ← hrun, Lexeme.writtenAll, List.map_append, List.map_cons]
    exact List.cons_ne_nil m ls

end

end Scanner

namespace Lexeme

/-- Tokens that are written with a space between each two are read back, each with its kind and its text.
Behind them come the end of the last line, if there is a token, and the end of input. -/
theorem tokens_writtenAll (file : String) {ls : List Lexeme} (hls : ∀ l ∈ ls, l.WellFormed)
    (hnormal : Normal ls) :
    ∃ tokens, Source.tokens ((writtenAll ls).map .char) file = .ok tokens ∧
      tokens.map Token.view = ls.map view ++ ending ls.getLast? := by
  cases ls with
  | nil => exact ⟨_, rfl, rfl⟩
  | cons l ls =>
    unfold Normal at hnormal
    rw [List.isChain_cons_cons] at hnormal
    have start : Scanner.Holds (Scanner.start file) [] "" [] := ⟨rfl, rfl, rfl, rfl⟩
    simpa [Source.tokens] using
      start.writtenAll hls hnormal.2 fun hl => absurd hl (hnormal.1 rfl)

/-- Signs beside signs, a negative number behind an operator, and a string with a quote, a line break
and a letter outside of ASCII. -/
def sample : List Lexeme :=
  [.text "a", .text "-", .text "-1.5", .text "/", .text "/", .newline, .string "é\x22\n\\", .text "**",
    .text "=", .text "while", .text "3", .text ".", .text "5"]

theorem tokens_sample :
    (sample.map view).map Prod.snd =
        ["a", "-", "-1.5", "/", "/", "\n", "é\x22\n\\", "**", "=", "while", "3", ".", "5"] ∧
      ∃ tokens, Source.tokens ((writtenAll sample).map .char) "main.kite" = .ok tokens ∧
        tokens.map Token.view = sample.map view ++ [(.newline, "\n"), (.eof, "")] :=
  ⟨by decide, tokens_writtenAll "main.kite" (by simp [sample, WellFormed]; decide)
    (by simp [sample, Normal])⟩

/-- A text without tokens has no line to end. -/
theorem tokens_empty :
    ¬ ∃ tokens, Source.tokens ((writtenAll []).map .char) "main.kite" = .ok tokens ∧
      tokens.map Token.view = ([] : List Lexeme).map view ++ [(.newline, "\n"), (.eof, "")] := by
  rintro ⟨tokens, ⟨⟩, hview⟩
  exact absurd hview (by decide)

end Lexeme

end Frontend
