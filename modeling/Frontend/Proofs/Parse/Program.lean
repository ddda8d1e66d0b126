import Frontend.Proofs.Parse.Climb
import Frontend.Proofs.Parse.Join

/-!
# Programs are read as they are written

When every item of a program is read as it is written, so is the whole program. In particular an
expression tree is read back from the tokens that it is written with.
-/

namespace Frontend

namespace Parse

variable {s : ParseState} {items : List LaidItem} {breaks : List Token}

/-- Behind an item of a program stands the next one, on a new line, or nothing but line breaks. -/
theorem endsItem_program (hs : s.Sound)
    (hlines : ∀ i ∈ items, LineEnd i.breaks ∧ i.breaks ≠ []) (hitems : ∀ i ∈ items, Begins i.tokens)
    (hbreaks : LineEnd breaks) : (s.before (lineTokens items ++ breaks)).EndsItem ∧
      ((s.before (lineTokens items ++ breaks)).next.kind = .newline ∨
        (s.before (lineTokens items ++ breaks)).next.kind = .eof) := by
  cases items with
  | nil =>
    have hnext : (s.before breaks).next.kind = .newline ∨ (s.before breaks).next.kind = .eof := by
      cases breaks with
      | nil => exact .inr hs.eof
      | cons t breaks => exact .inl (hbreaks t List.mem_cons_self)
    refine ⟨⟨hnext.imp_right .inl, ?_⟩, hnext⟩
    · intro k hk
      rw [ParseState.rest_before, lineTokens, List.flatMap_nil, List.nil_append, pastNewlines_lineEnd hbreaks] at hk
      cases hs.eof.symm.trans hk
  | cons i items =>
    obtain ⟨t, more, htokens, ht⟩ := hitems i List.mem_cons_self
    obtain ⟨hline, hne⟩ := hlines i List.mem_cons_self
    obtain ⟨hnewline, -, -, hchain⟩ := TokenKind.begins_ne ht
    have hrest : lineTokens (i :: items) ++ breaks =
        i.breaks ++ t :: (more ++ (lineTokens items ++ breaks)) := by simp [lineTokens, htokens]
    rw [hrest]
    refine ⟨endsItem_append hline (.inl hne) hnewline hchain, .inl ?_⟩
    cases hi : i.breaks with
    | nil => exact absurd hi hne
    | cons u others => exact hline u (hi ▸ List.mem_cons_self)

/-- A program is read item by item as it is written. -/
theorem readsItems_lines (hs : s.Sound)
    (hlines : OnLines items) (hitems : ∀ i ∈ items, ReadsItem (nested maxExpressionDepth) i.node i.tokens)
    (hbreaks : LineEnd breaks) :
    ReadsItems (s.before (lineTokens items ++ breaks)) (items.map LaidItem.node) (s.before []) := by
  induction items with
  | nil =>
    have hpast : pastNewlines breaks = [] := pastNewlines_lineEnd hbreaks
    have hended := ReadsItems.ended (s := s.before breaks) (by simp [ParseState.ended, hpast])
    rwa [ParseState.rest_before, hpast] at hended
  | cons i items ih =>
    have hi := hitems i List.mem_cons_self
    obtain ⟨hends, hnext⟩ := endsItem_program hs
      (fun j hj => ⟨hlines.tail.breaks j hj, hlines.apart j hj⟩)
      (fun j hj => (hitems j (List.mem_cons_of_mem i hj)).begins) hbreaks
    have htokens : lineTokens (i :: items) ++ breaks = i.breaks ++ (i.tokens ++ (lineTokens items ++ breaks)) := by
      simp [lineTokens]
    have hpast : pastNewlines (i.breaks ++ (i.tokens ++ (lineTokens items ++ breaks))) =
        i.tokens ++ (lineTokens items ++ breaks) := by
      rw [pastNewlines_append (hlines.breaks i List.mem_cons_self)]
      exact (hi.begins.append _).pastNewlines
    have hitem : item (s.before (i.breaks ++ (i.tokens ++ (lineTokens items ++ breaks)))).atItem =
        (some [i.node], s.before (lineTokens items ++ breaks)) := by
      have hat : (s.before (i.breaks ++ (i.tokens ++ (lineTokens items ++ breaks)))).atItem =
          s.before (i.tokens ++ (lineTokens items ++ breaks)) := by
        rw [ParseState.atItem, ParseState.rest_before, hpast]
        exact (hs.before _).calm
      unfold item
      rw [hat, attempt_bind, show expression maxExpressionDepth Binding.lowest _ = _ from hi.reads hs hends]
      dsimp only
      rw [peek_bind, if_neg (by simpa using Or.resolve_left hnext)]
      rfl
    rw [htokens]
    refine .item ?_ hitem ?_ (ih hlines.tail fun j hj => hitems j (List.mem_cons_of_mem i hj))
    · rw [ParseState.ended, ParseState.rest_before, hpast]
      simp [hi.begins.ne_nil, ParseState.before, hs.stopped]
    · rw [← List.append_assoc]
      exact ParseState.weight_before_lt s _ (List.append_ne_nil_of_right_ne_nil _ hi.begins.ne_nil)

/-! ## Lists of tokens -/

theorem ofTokens_before {tokens : List Token} (h : NoEof tokens) {eof : Token} (heof : eof.kind = .eof) :
    ParseState.ofTokens (tokens ++ [eof]) = ParseState.before { rest := [], last := eof } tokens := by
  have hne : ∀ t ∈ tokens, (t.kind != .eof) = true := fun t ht => bne_iff_ne.mpr (h t ht)
  have hnone : tokens.find? (·.kind == .eof) = none :=
    List.find?_eq_none.mpr fun t ht => by simpa using h t ht
  unfold ParseState.ofTokens ParseState.before
  rw [List.takeWhile_append_of_pos hne, List.find?_append, hnone]
  simp [heof]

/-- A program whose items are read as they are written is read without errors. -/
theorem ofTokens_lines (hlines : OnLines items)
    (hitems : ∀ i ∈ items, ReadsItem (nested maxExpressionDepth) i.node i.tokens)
    (hnoEof : ∀ i ∈ items, NoEof i.tokens) (hbreaks : LineEnd breaks) {eof : Token} (heof : eof.kind = .eof) :
    (Program.ofTokens (lineTokens items ++ breaks ++ [eof])).errors = [] ∧
      (Program.ofTokens (lineTokens items ++ breaks ++ [eof])).program.body = items.map LaidItem.node := by
  have hbreak : ∀ {breaks : List Token}, LineEnd breaks → NoEof breaks :=
    fun h t ht => by simp [h t ht]
  have hall : NoEof (lineTokens items ++ breaks) := by
    refine NoEof.append (fun t ht => ?_) (hbreak hbreaks)
    obtain ⟨i, hi, ht⟩ := List.mem_flatMap.mp ht
    exact (NoEof.append (hbreak (hlines.breaks i hi)) (hnoEof i hi)) t ht
  have hsound : ParseState.Sound { rest := [], last := eof } := ⟨rfl, rfl, rfl, heof⟩
  have hreads := readsItems_lines hsound hlines hitems hbreaks
  rw [← ofTokens_before hall heof] at hreads
  obtain ⟨hbody, herrors⟩ := parsed_of_reads hreads
  exact ⟨herrors, hbody⟩

end Parse

namespace Program

open Parse

variable {n : Node} {tokens : List Token} {newline eof : Token}

/-- An expression tree is read back from its tokens, a line break and the end of input: there is no error,
and the program is that tree. -/
theorem ofTokens_written (h : n.Written maxExpressionDepth tokens) (hnewline : newline.kind = .newline)
    (heof : eof.kind = .eof) :
    (ofTokens (tokens ++ [newline, eof])).errors = [] ∧
      (ofTokens (tokens ++ [newline, eof])).program.body = [n] := by
  have hitem : ReadsItem (nested maxExpressionDepth) n tokens :=
    Climbs.readsItem (climbs_written h) h
  have hline : OnLines [⟨[], n, tokens⟩] := ⟨by simp [LineEnd], by simp⟩
  have hbreak : LineEnd [newline] := List.forall_mem_singleton.mpr hnewline
  have hread := ofTokens_lines hline (List.forall_mem_singleton.mpr hitem)
    (List.forall_mem_singleton.mpr h.noEof) hbreak heof
  simpa [lineTokens] using hread

/-- A token of a sample, at no place. -/
def sampleToken (text : String) : Token := .ofText text {}

def sampleIdent (text : String) : Node := .ident { token := sampleToken text }

/-- The tree of `f(1, b)`. -/
def sampleCall : Node :=
  .call (sampleIdent "f") (sampleToken "(") (sampleToken ")") [.int (sampleToken "1") 1, sampleIdent "b"]

/-- The tree of `x = -a * f(1, b)[i].size`. -/
def sampleTree : Node :=
  .assign (sampleIdent "x") (sampleToken "=")
    (.binary (.unary (sampleToken "-") (sampleIdent "a")) (sampleToken "*")
      (.member (.index sampleCall (sampleToken "[") (sampleIdent "i")) (sampleToken ".")
        { token := sampleToken "size" }))

/-- The tokens of `x = -a * f(1, b)[i].size`. -/
def sampleTreeTokens : List Token :=
  ["x", "=", "-", "a", "*", "f", "(", "1", ",", "b", ")", "[", "i", "]", ".", "size"].map sampleToken

theorem written_sampleIdent (depth : Nat) {text : String} (h : (sampleToken text).kind = .ident) :
    (sampleIdent text).Written (depth + 1) [sampleToken text] :=
  .ident (.plain h)

theorem passes_sampleIdent (text : String) : (sampleIdent text).Passes (sampleIdent text) :=
  .byPosition fun _ _ _ h => by cases h

theorem written_sampleTree : sampleTree.Written maxExpressionDepth sampleTreeTokens := by
  have one : (Node.int (sampleToken "1") 1).Written 197 [sampleToken "1"] :=
    .leaf (.int (by decide +kernel) (by decide +kernel))
  have more : ∀ i ∈ [CommaItem.mk (sampleToken ",") (sampleIdent "b") [sampleToken "b"]],
      i.node.Written 196 i.tokens :=
    List.forall_mem_singleton.mpr (written_sampleIdent 195 (by decide +kernel))
  have call : sampleCall.Written 198 (["f", "(", "1", ",", "b", ")"].map sampleToken) :=
    .callWith (written_sampleIdent 197 (by decide +kernel)) rfl (by decide +kernel) one (by decide +kernel) more
      (by decide +kernel) (.cons (.byPosition fun _ _ _ h => by cases h) (.cons (passes_sampleIdent "b") .nil))
  have index : (Node.index sampleCall (sampleToken "[") (sampleIdent "i")).Written 198
      (["f", "(", "1", ",", "b", ")", "[", "i", "]"].map sampleToken) :=
    .index call rfl (fun _ h => by cases h) (by decide +kernel) (written_sampleIdent 196 (by decide +kernel))
      (by decide +kernel)
  have minus : (Node.unary (sampleToken "-") (sampleIdent "a")).Written 199 (["-", "a"].map sampleToken) :=
    .unary (o := .minus) (by decide +kernel) rfl (written_sampleIdent 197 (by decide +kernel)) (by decide)
  have product := Node.Written.binary minus (show (sampleToken "*").kind = .op .star by decide +kernel) rfl
    (.member index rfl (show (sampleToken ".").kind = .op .dot by decide +kernel)
      (show (sampleToken "size").kind = .ident by decide +kernel)) (by decide) (by decide)
  exact .assign (o := .assign) (written_sampleIdent 199 (by decide +kernel)) (by decide +kernel) rfl product rfl

theorem ofTokens_sampleTree :
    (ofTokens (sampleTreeTokens ++ [sampleToken "\n", .eof {}])).errors = [] ∧
      (ofTokens (sampleTreeTokens ++ [sampleToken "\n", .eof {}])).program.body = [sampleTree] :=
  ofTokens_written written_sampleTree (by decide +kernel) rfl

/-- An assignment is no argument, and only names, elements and members are assigned to: `f(x += 1)` and
`1 = 2` have errors. -/
theorem ofTokens_unfit :
    (ofTokens ((["f", "(", "x", "+=", "1", ")", "\n"].map sampleToken) ++ [.eof {}])).errors ≠ [] ∧
      (ofTokens ((["1", "=", "2", "\n"].map sampleToken) ++ [.eof {}])).errors ≠ [] := by
  have h : ∀ texts ∈ [["f", "(", "x", "+=", "1", ")", "\n"], ["1", "=", "2", "\n"]],
      (ofTokens (texts.map sampleToken ++ [Token.eof {}])).errors.isEmpty = false := by decide +kernel
  refine ⟨fun he => ?_, fun he => ?_⟩
  · have := h _ List.mem_cons_self
    rw [he] at this
    cases this
  · have := h _ (List.mem_cons_of_mem _ List.mem_cons_self)
    rw [he] at this
    cases this

end Program

end Frontend
