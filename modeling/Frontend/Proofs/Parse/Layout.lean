import Frontend.Proofs.Parse.Finish

/-!
# Layout

What is read depends on the kinds and the texts of the tokens only, not on where they stand: other places
lead to the same tree at other places, or to errors as before.
-/

namespace Frontend

/-! ## Tokens in rows -/

/-- The same token, perhaps elsewhere. -/
structure Token.Same (t t' : Token) : Prop where
  kind : t'.kind = t.kind
  literal : t'.literal = t.literal

instance (t t' : Token) : Decidable (t.Same t') :=
  decidable_of_iff (t'.kind = t.kind ∧ t'.literal = t.literal)
    ⟨fun h => ⟨h.1, h.2⟩, fun h => ⟨h.kind, h.literal⟩⟩

namespace Layout

variable {tokens tokens' : List Token} {move : Position → Position}

/-- Tokens at places of their own, each in a row. -/
def rows (tokens : List Token) : List Token := tokens.mapIdx fun i t => { t with pos := { line := i } }

/-- The move that takes every token from its row to where it stands. No place is left out. -/
def placing (tokens : List Token) (p : Position) : Position :=
  if p.line < 0 then p
  else match tokens[p.line.toNat]? with
    | some t => ⟨t.pos.file, t.pos.line, t.pos.column + p.column, t.pos.offset + p.offset⟩
    | none => { p with line := p.line - tokens.length }

theorem shift_placing (tokens : List Token) (p : Position) (columns bytes : Int) :
    placing tokens (p.shift columns bytes) = (placing tokens p).shift columns bytes := by
  unfold placing Position.shift
  dsimp only
  split
  · rfl
  · cases tokens[p.line.toNat]? <;> simp [Int.add_assoc]

theorem surjective_placing (tokens : List Token) : Function.Surjective (placing tokens) := by
  intro p
  by_cases h : p.line < 0
  · exact ⟨p, by rw [placing, if_pos h]⟩
  · refine ⟨{ p with line := p.line + tokens.length }, ?_⟩
    unfold placing
    rw [if_neg (by dsimp only; omega), List.getElem?_eq_none (by dsimp only; omega)]
    simp

theorem map_placing_rows (tokens : List Token) : (rows tokens).map (Token.moved (placing tokens)) = tokens := by
  refine List.ext_getElem? fun i => ?_
  rw [rows, List.getElem?_map, List.getElem?_mapIdx]
  cases h : tokens[i]? with
  | none => rfl
  | some t =>
    simp [Token.moved, placing, h, show ¬ (i : Int) < 0 by omega]

/-- In rows nothing is left of the places. -/
theorem rows_congr (h : List.Forall₂ Token.Same tokens tokens') : rows tokens' = rows tokens := by
  refine List.ext_getElem? fun i => ?_
  rw [rows, rows, List.getElem?_mapIdx, List.getElem?_mapIdx]
  have hlength := h.length_eq
  by_cases hi : i < tokens.length
  · have hsame : Token.Same tokens[i] tokens'[i] := h.get hi (hlength ▸ hi)
    rw [List.getElem?_eq_getElem hi, List.getElem?_eq_getElem (hlength ▸ hi)]
    simp [hsame.kind, hsame.literal]
  · rw [List.getElem?_eq_none (by omega), List.getElem?_eq_none (by omega)]

/-! ## Reading elsewhere -/

theorem ofTokens_map_moved (heof : ∃ t ∈ tokens, t.kind = .eof) (move : Position → Position) :
    (ParseState.ofTokens (tokens.map (Token.moved move))).rest =
        (ParseState.ofTokens tokens).rest.map (Token.moved move) ∧
      (ParseState.ofTokens (tokens.map (Token.moved move))).last =
        (ParseState.ofTokens tokens).last.moved move := by
  unfold ParseState.ofTokens
  dsimp only
  refine ⟨?_, ?_⟩
  · rw [List.takeWhile_map]
    rfl
  · obtain ⟨t, ht, hkind⟩ := heof
    rw [List.find?_map]
    cases hfind : tokens.find? (·.kind == .eof) with
    | none => exact absurd hkind (by simpa using List.find?_eq_none.mp hfind t ht)
    | some last =>
      rw [show (fun t : Token => t.kind == TokenKind.eof) ∘ Token.moved move =
        fun t : Token => t.kind == TokenKind.eof from rfl, hfind]
      rfl

/-- A program at another place has errors exactly when it had some before, and without errors it is the
same at the other place. -/
theorem ofTokens_moved (heof : ∃ t ∈ tokens, t.kind = .eof)
    (hshift : ∀ p columns bytes, move (p.shift columns bytes) = (move p).shift columns bytes)
    (honto : Function.Surjective move) : ((Program.ofTokens (tokens.map (Token.moved move))).errors = [] ↔
        (Program.ofTokens tokens).errors = []) ∧ ((Program.ofTokens tokens).errors = [] →
        (Program.ofTokens (tokens.map (Token.moved move))).program.body =
          (Program.ofTokens tokens).program.body.map (Node.moved move)) := by
  let c := Parse.Setting.moving move hshift honto
  have hcarries : Parse.Carries c (List.map (Node.moved move)) Parse.items Parse.items := by
    have h := Parse.carries_itemsUsing (c := c) fun closer => (Parse.Carries.synchronize closer).resumes
    rwa [Parse.itemsUsing_synchronize] at h
  obtain ⟨hrest, hlast⟩ := ofTokens_map_moved heof move
  have halike : c.Alike (ParseState.ofTokens tokens)
      (ParseState.ofTokens (tokens.map (Token.moved move))) :=
    ⟨hrest.trans (List.append_nil _).symm, fun _ => hlast,
      ⟨ParseState.last_ofTokens _, ParseState.last_ofTokens _⟩, ⟨[], rfl, .nil⟩, rfl, rfl, rfl, rfl, nofun⟩
  have hstart : (ParseState.ofTokens tokens).errors = [] := rfl
  unfold Program.ofTokens
  simp only [List.reverse_eq_nil_iff]
  by_cases hclean : (Parse.items (ParseState.ofTokens tokens)).2.errors = []
  · obtain ⟨hresult, halike'⟩ := hcarries.forth _ _ halike (c.allows_of_clean trivial hclean)
    refine ⟨iff_of_true ((halike'.errors_eq_nil trivial).mpr hclean) hclean, fun _ => ?_⟩
    rw [hresult]
    cases (Parse.items (ParseState.ofTokens tokens)).1 <;> rfl
  · exact ⟨iff_of_false (hcarries.faulty trivial _ _ halike hstart hclean) hclean, fun h => absurd h hclean⟩

/-- Tokens that say the same are read as programs that say the same, or else both have errors. -/
theorem ofTokens_same (h : List.Forall₂ Token.Same tokens tokens') (heof : ∃ t ∈ tokens, t.kind = .eof)
    (forget : Position → Position) (hforget : ∀ p q, forget p = forget q) :
    ((Program.ofTokens tokens').errors = [] ↔ (Program.ofTokens tokens).errors = []) ∧
      ((Program.ofTokens tokens).errors = [] → (Program.ofTokens tokens').program.body.map (Node.moved forget) =
          (Program.ofTokens tokens).program.body.map (Node.moved forget)) := by
  have hrows : ∃ t ∈ rows tokens, t.kind = .eof := by
    obtain ⟨t, ht, hkind⟩ := heof
    rw [← map_placing_rows tokens] at ht
    obtain ⟨u, hu, rfl⟩ := List.mem_map.mp ht
    exact ⟨u, hu, hkind⟩
  obtain ⟨herrors, hbody⟩ := ofTokens_moved hrows (shift_placing tokens) (surjective_placing tokens)
  obtain ⟨herrors', hbody'⟩ := ofTokens_moved hrows (shift_placing tokens') (surjective_placing tokens')
  rw [map_placing_rows] at herrors hbody
  rw [← rows_congr h, map_placing_rows, rows_congr h] at herrors' hbody'
  refine ⟨herrors'.trans herrors.symm, fun hclean => ?_⟩
  have hforgotten : ∀ g g' : Position → Position, forget ∘ g = forget ∘ g' :=
    fun g g' => funext fun p => hforget _ _
  rw [hbody (herrors.mp hclean), hbody' (herrors.mp hclean)]
  simp only [List.map_map, Function.comp_def, Node.moved_moved]
  exact List.map_congr_left fun n _ => congrArg n.moved (hforgotten _ _)

end Layout

end Frontend
