import Frontend.Diagnostic.Layout
import Frontend.Proofs.Token.Faithful

/-!
# Carets under tokens

A diagnostic at a token shows the token's line with its tabs replaced, and a caret under it. The lexer counts the
column while it reads, and the layout cuts the lines and replaces the tabs on its own; the caret stands under the
first letter of the token all the same.
-/

namespace Frontend

variable {src : Source} {file : String} {tokens : List Token} {t : Token}
variable {line : String} {before after : List Char}

/-! ## The line of a position -/

namespace Text

variable {α : Type} {stop : α → Bool}

/-- The last part of a text is what stands behind its last separator. -/
theorem exists_splitAt (stop : α → Bool) (xs : List α) : ∃ init, init.length = xs.countP stop ∧
    splitAt stop xs = init ++ [(xs.reverse.takeWhile (!stop ·)).reverse] := by
  induction xs using List.reverseRecOn with
  | nil => exact ⟨[], rfl, rfl⟩
  | append_singleton xs x ih =>
    obtain ⟨init, hlength, hsplit⟩ := ih
    rw [List.reverse_append, List.reverse_singleton, List.singleton_append]
    cases hx : stop x with
    | true =>
      have hlast : splitAt stop [x] = [] :: [[]] := by rw [splitAt_cons, if_pos hx]; rfl
      refine ⟨init ++ [(xs.reverse.takeWhile (!stop ·)).reverse], by simp [hlength, hx], ?_⟩
      rw [splitAt_append hsplit hlast, List.takeWhile_cons_of_neg (by simp [hx])]
      simp
    | false =>
      have hlast : splitAt stop [x] = [[x]] := by rw [splitAt_cons, hx]; rfl
      refine ⟨init, by simp [hlength, hx], ?_⟩
      rw [splitAt_append hsplit hlast, List.takeWhile_cons_of_pos (by simp [hx])]
      simp

/-- The part that an element stands in. -/
theorem getElem?_splitAt (front rest : List α) {x : α} (hx : stop x = false) : ∃ part,
    (splitAt stop (front ++ x :: rest))[front.countP stop]? =
      some ((front.reverse.takeWhile (!stop ·)).reverse ++ x :: part) := by
  obtain ⟨init, hlength, hfront⟩ := exists_splitAt stop front
  obtain ⟨part, more, hrest⟩ : ∃ part more, splitAt stop (x :: rest) = (x :: part) :: more := by
    rw [splitAt_cons, hx]
    cases hs : splitAt stop rest with
    | nil => exact absurd hs (splitAt_ne_nil stop rest)
    | cons part more => exact ⟨part, more, rfl⟩
  exact ⟨part, by rw [splitAt_append hfront hrest, ← hlength]; simp⟩

end Text

theorem Source.dropReturns_append (front rest : Source) {l : Letter} (hl : l.is '\r' = false) :
    dropReturns (front ++ l :: rest) = front ++ l :: dropReturns rest := by
  unfold dropReturns
  rw [List.reverse_append, List.reverse_cons, List.append_assoc, List.dropWhile_append]
  split
  next hempty =>
    rw [List.isEmpty_iff.mp hempty, List.singleton_append, List.dropWhile_cons_of_neg (by simp [hl])]
    simp
  next => simp

/-- A position counts the lines and the letters in front of it, so that its line holds these letters. -/
theorem Source.lineAt_behind (file : String) (front rest : Source) {l : Letter} (hnewline : l.is '\n' = false)
    (hreturn : l.is '\r' = false) : ∃ before after,
    (lineAt (front ++ l :: rest) ((Scanner.start file).place.behind front).line).toList =
      before ++ l.shown :: after ∧ ((Scanner.start file).place.behind front).column = before.length + 1 := by
  obtain ⟨part, hpart⟩ := @Text.getElem?_splitAt Letter (·.is '\n') front rest l hnewline
  have hline : ((Scanner.start file).place.behind front).line = 1 + front.countP (·.is '\n') :=
    Position.line_behind _ front
  have hcolumn := Position.column_behind (p := (Scanner.start file).place) rfl front
  have hindex (n : Nat) : (1 + (n : Int)).toNat - 1 = n := by omega
  have hsame : (fun x : Letter => decide (x ≠ .char '\n')) = fun x => !x.is '\n' := funext fun x => decide_not
  refine ⟨((front.reverse.takeWhile (!·.is '\n')).reverse).map Letter.shown, (dropReturns part).map Letter.shown, ?_, ?_⟩
  · rw [lineAt, if_neg (by omega), hline, hindex, lines, hpart]
    simp [shown, dropReturns_append _ _ hreturn]
  · rw [hcolumn, hsame]
    simp [Int.add_comm]

/-! ## The first letter of a token -/

/-- What the text of a token begins with: with its literal, or with a quote. -/
def Token.BeginsWith (t : Token) (c : Char) : Prop :=
  t.literal.toList.head? = some c ∨ t.kind = .str ∧ (c = '\x22' ∨ c = '\x27')

theorem Piece.exists_head {p : Piece} {pos : Position} {made : List Token} (hp : p.WellFormed)
    (hwritten : p.isWritten = true) (h : p.extend pos made = t :: made) : ∃ c rest, p.source = .char c :: rest ∧
      t.pos = pos ∧ t.BeginsWith c ∧ c ≠ '\n' ∧ c ≠ '\r' := by
  cases p with
  | lexeme text =>
    obtain ⟨rfl, -⟩ := List.cons.inj h
    cases htext : text.toList with
    | nil => exact absurd (by rw [String.toList_eq_nil_iff.mp htext]; rfl) hp.1
    | cons c cs =>
      refine ⟨c, cs.map .char, by rw [source, Source.ofString, htext]; rfl, rfl, .inl ?_, ?_⟩
      · exact congrArg List.head? htext
      · exact TokenKind.ne_break_of_classify hp.1 hp.2 c (htext ▸ List.mem_cons_self)
  | quoted quote body value =>
    obtain ⟨rfl, -⟩ := List.cons.inj h
    refine ⟨quote, _, rfl, rfl, .inr ⟨rfl, hp.1⟩, ?_⟩
    obtain rfl | rfl := hp.1 <;> decide
  | _ => cases hwritten

/-- A token that was written stands where its first letter does. -/
theorem Source.exists_first (h : src.tokens file = .ok tokens) (ht : t ∈ tokens) (hwritten : t.isWritten = true) :
    ∃ front c rest, src = front ++ Letter.char c :: rest ∧ t.pos = (Scanner.start file).place.behind front ∧
      t.BeginsWith c ∧ c ≠ '\n' ∧ c ≠ '\r' := by
  obtain ⟨done, tail, hmakeUp⟩ := exists_makeUp h
  obtain ⟨extra, hextra, hother⟩ := hmakeUp.exists_extra
  have hmem := hextra ▸ List.mem_reverse.mpr ht
  have hdone : t ∈ done.tokens file :=
    (List.mem_append.mp hmem).resolve_left fun he => by simp [hother t he] at hwritten
  obtain ⟨newer, older, hdone⟩ := List.append_of_mem hdone
  obtain ⟨later, p, before, rfl, hp, hextend, holder⟩ :=
    Pieces.exists_piece_of_token hmakeUp.wellFormed hwritten hdone
  rw [holder] at hextend
  obtain ⟨c, rest, hsource, hpos, hbegins, hc⟩ :=
    Piece.exists_head (hmakeUp.wellFormed p (by simp)) hp hextend
  refine ⟨Pieces.source before, c, rest ++ Pieces.source later ++ tail, ?_, by rw [hpos, Pieces.place_eq], hbegins, hc⟩
  rw [← hmakeUp.source, Pieces.source_append, Pieces.source, hsource]
  simp

namespace Layout

variable (l : Layout)

theorem length_expandTabs (s : String) : (l.expandTabs s).length = Number.total (s.toList.map l.charWidth) := by
  unfold expandTabs Text.replaceChar
  induction s.toList with
  | nil => rfl
  | cons c cs ih =>
    rw [List.map_cons, List.map_cons, Number.total_cons, ← ih, String.join_cons, String.length_append, charWidth]
    split <;> simp [Text.run]

/-- The line of a diagnostic in its gutter, and a caret behind the width of the text `before`. -/
def caretLines (line before : String) (number : Int) : String :=
  let width := (Text.ofInt number).length
  let gutter := l.paint blue (Text.run ' ' width ++ " |")
  gutter ++ "\n" ++ l.paint blue (Text.padLeft width (Text.ofInt number) ++ " |") ++ " " ++ l.expandTabs line ++ "\n" ++
    gutter ++ " " ++ Text.run ' ' (l.expandTabs before).length ++ l.paint red "^" ++ "\n"

theorem shownColumn_eq (htext : line.toList = before ++ after) :
    l.shownColumn line (before.length + 1) = 1 + (l.expandTabs (String.ofList before)).length := by
  have htake : (line.toList).take before.length = before := by rw [htext, List.take_left]
  rw [shownColumn, if_neg (by omega), length_expandTabs, String.toList_ofList]
  simp [htake]

theorem sourceLines_eq (htext : line.toList = before ++ after) (number : Int) :
    l.sourceLines line number (before.length + 1) 0 (Text.ofInt number).length =
      l.caretLines line (String.ofList before) number := by
  have hlength : (if (0 : Int) - (before.length + 1) < 1 then (1 : Int) else 0 - (before.length + 1)).toNat = 1 := by
    rw [if_pos (by omega)]
    rfl
  have hblanks (n : Nat) : ((1 + n : Int) - 1).toNat = n := by omega
  have hcaret : Text.run '^' 1 = "^" := rfl
  unfold sourceLines caretLines
  dsimp only
  rw [if_neg (by omega), hlength, l.shownColumn_eq htext, hblanks, hcaret]

/-- What is shown of a diagnostic in front of its source line. -/
def opening (lang : Language) (d : Diagnostic) : String :=
  l.paint magenta ("--- " ++ d.category.title.render lang ++ " ---") ++ "\n" ++ l.headLine lang d ++ l.placeLine d

/-- A diagnostic without further lines ends with its source line and the caret. -/
theorem format_eq {d : Diagnostic} {c : Char} (hshow : l.showSource = true) (lang : Language) (lines : List String)
    (htext : d.sourceLine.toList = before ++ c :: after) (hcolumn : d.column = before.length + 1)
    (hfinish : d.endColumn = 0) (hinfos : d.infos = []) (hhints : d.hints = []) :
    l.format lang d lines = l.opening lang d ++ l.caretLines d.sourceLine (String.ofList before) d.line := by
  have hempty : d.sourceLine.isEmpty = false := by
    rw [String.isEmpty_eq_false_iff]
    intro he
    simp [he] at htext
  have hshown : shownLine d lines = d.sourceLine := by rw [shownLine, hempty]; rfl
  have hjoin : String.join [] = "" := rfl
  unfold format opening
  simp only [hshown, hshow, hempty, hcolumn, hfinish, hinfos, hhints, l.sourceLines_eq htext, Bool.not_false,
    Bool.and_self, if_true, List.map_nil, ite_self, hjoin, String.append_empty]

/-- A diagnostic at a token shows the line of the token with its tabs replaced, and under it a caret behind as many
blanks as the text in front of the token takes up. The letter of the line at the column of the token is the first
letter of the token. -/
theorem caret_under_token (h : src.tokens file = .ok tokens) (ht : t ∈ tokens) (hwritten : t.isWritten = true)
    (hshow : l.showSource = true) (lang : Language) (category : Category) (code : String) (message : Phrase)
    (lines : List String) : ∃ front c rest before after, src = front ++ .char c :: rest ∧
      t.pos.offset = Source.byteSize front ∧ t.BeginsWith c ∧
      (src.lineAt t.pos.line).toList = before ++ c :: after ∧ t.pos.column = before.length + 1 ∧
      l.format lang ((Diagnostic.mkAt category code t.pos message).withSource src) lines =
        l.opening lang ((Diagnostic.mkAt category code t.pos message).withSource src) ++
          l.caretLines (src.lineAt t.pos.line) (String.ofList before) t.pos.line := by
  obtain ⟨front, c, rest, rfl, hpos, hbegins, hnewline, hreturn⟩ := Source.exists_first h ht hwritten
  obtain ⟨before, after, hline, hcolumn⟩ := Source.lineAt_behind file front rest (l := .char c)
    (by simp [Letter.is, hnewline]) (by simp [Letter.is, hreturn])
  rw [← hpos] at hline hcolumn
  refine ⟨front, c, rest, before, after, rfl, ?_, hbegins, hline, hcolumn,
    l.format_eq hshow lang lines hline hcolumn rfl rfl rfl⟩
  rw [hpos, Position.offset_behind]
  exact Int.zero_add _

/-- A string behind a tab: the caret stands under its quote. -/
theorem caret_under_quote :
    (Source.ofString "s\t= 'x'").tokens "" = .ok [⟨.ident, "s", ⟨"", 1, 1, 0⟩⟩, ⟨.op .assign, "=", ⟨"", 1, 3, 2⟩⟩,
      ⟨.str, "x", ⟨"", 1, 5, 4⟩⟩, .newline ⟨"", 1, 8, 7⟩, .eof ⟨"", 1, 8, 7⟩] ∧
    ∃ c before after, Token.BeginsWith ⟨.str, "x", ⟨"", 1, 5, 4⟩⟩ c ∧
      ((Source.ofString "s\t= 'x'").lineAt 1).toList = before ++ c :: after ∧ (5 : Int) = before.length + 1 := by
  have htokens : (Source.ofString "s\t= 'x'").tokens "" =
      .ok [⟨.ident, "s", ⟨"", 1, 1, 0⟩⟩, ⟨.op .assign, "=", ⟨"", 1, 3, 2⟩⟩, ⟨.str, "x", ⟨"", 1, 5, 4⟩⟩,
        .newline ⟨"", 1, 8, 7⟩, .eof ⟨"", 1, 8, 7⟩] := by
    decide +kernel
  obtain ⟨-, c, -, before, after, -, -, hbegins, hline, hcolumn, -⟩ := caret_under_token {} htokens
    (t := ⟨.str, "x", ⟨"", 1, 5, 4⟩⟩) (by decide) rfl rfl default .typeMismatch "" (.text "") []
  exact ⟨htokens, c, before, after, hbegins, hline, hcolumn⟩

end Layout

end Frontend
