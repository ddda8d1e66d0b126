import Frontend.Parse.Program
import Frontend.Proofs.Token.Cut

/-!
# The tokens of a file

Every token of a source text was made from a piece of the text, or breaks a line, and behind them stands the
end of input. A token knows the file that the text was read from, and so does the program that is read from
the tokens: it stands where its piece begins, and reading on within a file never leaves it.
-/

namespace Frontend

variable {src : Source} {tokens : List Token} {file : String}

theorem Position.file_behind (p : Position) (src : Source) : (p.behind src).file = p.file := by
  induction src generalizing p with
  | nil => rfl
  | cons l src ih =>
    refine (ih (p.after l)).trans ?_
    unfold after
    split <;> rfl

/-- A token that the scanner made while it read a file. -/
def Token.MadeIn (file : String) (t : Token) : Prop := t.Made ∧ t.pos.file = file

namespace Piece

variable {pos : Position} {made : List Token} (hpos : pos.file = file) (h : ∀ t ∈ made, t.MadeIn file)
include hpos h

theorem madeIn_broken : ∀ t ∈ broken pos made, t.MadeIn file := by
  cases made with
  | nil => exact h
  | cons t made =>
    rw [broken]
    split
    · exact h
    · exact List.forall_mem_cons.mpr ⟨⟨.newline pos, hpos⟩, h⟩

theorem madeIn_extend (p : Piece) : ∀ t ∈ p.extend pos made, t.MadeIn file := by
  cases p with
  | blank | blockComment => exact h
  | separator => exact madeIn_broken hpos h
  | lineComment => exact madeIn_broken ((Position.file_behind ..).trans hpos) h
  | lexeme text => exact List.forall_mem_cons.mpr ⟨⟨.ofText text pos, hpos⟩, h⟩
  | quoted _ _ value => exact List.forall_mem_cons.mpr ⟨⟨.ofString _ pos, hpos⟩, h⟩

end Piece

namespace Pieces

theorem file_place (done : Pieces) : (done.place file).file = file := by
  induction done with
  | nil => rfl
  | cons p before ih => exact (Position.file_behind ..).trans ih

theorem madeIn_tokens (done : Pieces) : ∀ t ∈ done.tokens file, t.MadeIn file := by
  induction done with
  | nil => exact List.forall_mem_nil _
  | cons p before ih => exact p.madeIn_extend (file_place before) ih

end Pieces

/-- The tokens of a text were made in its file, a line break is the last of them, and behind them stands
the end of input. -/
theorem Source.exists_made (h : src.tokens file = .ok tokens) : ∃ made pos, tokens = made ++ [Token.eof pos] ∧
    pos.file = file ∧ (∀ t ∈ made, t.MadeIn file) ∧ EndsLine made := by
  obtain ⟨done, tail, hmake⟩ := Source.exists_makeUp h
  have hplace : ((done.place file).behind tail).file = file :=
    (Position.file_behind ..).trans (Pieces.file_place done)
  refine ⟨_, _, hmake.tokens_eq, hplace, fun t ht => ?_, ?_⟩
  · exact Piece.madeIn_broken hplace (Pieces.madeIn_tokens done) t (List.mem_reverse.mp ht)
  · have hends := Scanner.endsLine_breakLine { Scanner.start file with made := done.tokens file }
      ((done.place file).behind tail)
    rwa [Scanner.breakLine_eq_broken] at hends

/-- The tokens of a text: those the scanner makes, of which the last one is a line break, and the end of
input. -/
def Scanner.Scanned (tokens : List Token) : Prop :=
  ∃ made pos, tokens = made ++ [Token.eof pos] ∧ (∀ t ∈ made, t.Made) ∧ EndsLine made

theorem Source.scanned_of_tokens (h : src.tokens file = .ok tokens) : Scanner.Scanned tokens := by
  obtain ⟨made, pos, htokens, -, hmade, hends⟩ := Source.exists_made h
  exact ⟨made, pos, htokens, fun t ht => (hmade t ht).1, hends⟩

theorem spelled_of_scan (h : src.scan file = .ok tokens) : ∀ t ∈ tokens, t.Spelled := by
  obtain ⟨made, pos, rfl, -, hmade, -⟩ := Source.exists_made (Source.scan_eq_ok.mp h)
  refine List.forall_mem_append.mpr ⟨fun t ht => (hmade t ht).1.spelled, List.forall_mem_singleton.mpr ?_⟩
  exact Token.spelled_of_kind_ne (by simp [Token.eof])

/-- The tokens of a text are in its file, and the last of them ends it. -/
theorem Source.file_of_scan (h : src.scan file = .ok tokens) :
    (∀ token ∈ tokens, token.pos.file = file) ∧ ∃ token ∈ tokens, token.kind = .eof := by
  obtain ⟨made, pos, rfl, hpos, hmade, -⟩ := Source.exists_made (Source.scan_eq_ok.mp h)
  refine ⟨List.forall_mem_append.mpr ⟨fun t ht => (hmade t ht).2, List.forall_mem_singleton.mpr hpos⟩, ?_⟩
  exact ⟨_, List.mem_append_right _ (List.mem_singleton_self _), rfl⟩

/-- A program belongs to the file that it was read from. -/
theorem Program.file_of_ofSource {p : Program} (h : Program.ofSource src file = .ok p) : p.file = file := by
  unfold Program.ofSource at h
  split at h
  · cases h
  next tokens htokens =>
    dsimp only at h
    split at h
    · cases h
      obtain ⟨hfile, last, hlast, heof⟩ := Source.file_of_scan htokens
      have next : (ParseState.ofTokens tokens).next ∈ tokens := by
        unfold ParseState.next ParseState.ofTokens
        cases hrest : tokens.takeWhile (·.kind != .eof) with
        | cons token rest => exact List.takeWhile_subset _ (hrest ▸ List.mem_cons_self)
        | nil =>
          cases hfind : tokens.find? (·.kind == .eof) with
          | none => exact absurd heof (by simpa using List.find?_eq_none.mp hfind last hlast)
          | some token => exact List.mem_of_find?_eq_some hfind
      exact hfile _ next
    · cases h

end Frontend
