import Frontend.Proofs.Parse.Elsewhere
import Frontend.Proofs.Parse.Items
import Frontend.Proofs.Token.Faithful

/-!
# Programs behind one another

A program that is read without errors leaves nothing of itself behind: the text behind it and a newline
is read as if it stood alone, further down.
-/

namespace Frontend

variable {b u : ParseState} {ms : List Node} {tokens : List Token}
variable {lines : Prop} {pos : Position} {move : Position → Position}

namespace Parse

/-- Tokens that do not go on with a branch. -/
def Anew (tokens : List Token) : Prop :=
  ∀ t ∈ (pastNewlines tokens).head?, t.kind ≠ .keyword .elseCase ∧ t.kind ≠ .keyword .elifTest

variable {c : Setting} {s s' t : ParseState} {ns : List Node}

theorem carries_item : Carries c (List.map (Node.moved c.move)) item item := by
  unfold item
  refine (carries_expression _ _).attempt.bind fun r => ?_
  cases r with
  | none => exact (Carries.synchronize _).bind fun _ => Carries.pure rfl
  | some n =>
    refine Carries.peek.bind fun t => .ite Iff.rfl ?_ (.pure rfl)
    exact (Carries.reportUnexpected t _).bind fun _ =>
      (Carries.synchronize _).bind fun _ => Carries.pure rfl

theorem Setting.Alike.atItem (h : c.Alike s s') (hallows : c.Allows s.atItem) : c.Alike s.atItem s'.atItem := by
  have hskipped : c.Allows { s with rest := pastNewlines s.rest } :=
    ⟨hallows.rest, hallows.errors, hallows.clean⟩
  exact (Carries.calm.forth _ _ (Carries.skipNewlines.forth s s' h hskipped).2 hallows).2

theorem Setting.Alike.ended (h : c.Alike s s') (hallows : c.Allows s.atItem) : s'.ended = s.ended := by
  have hend := (h.atItem hallows).atEnd hallows
  unfold ParseState.ended
  rw [h.stopped]
  exact congrArg (· || s.stopped) hend

/-- An item in other surroundings. -/
theorem Setting.Alike.item (h : c.Alike s s') (hended : s.ended = false)
    (hitem : Parse.item s.atItem = (some ns, t)) (hallows : c.Allows t) (hless : t.weight < s.weight) :
    ∃ t', s'.ended = false ∧ Parse.item s'.atItem = (some (ns.map (Node.moved c.move)), t') ∧
      c.Alike t t' ∧ t'.weight < s'.weight := by
  have hallows' : c.Allows (Parse.item s.atItem).2 := by rwa [hitem]
  have hfront := carries_item.back s.atItem hallows'
  obtain ⟨hresult, halike⟩ := carries_item.forth _ _ (h.atItem hfront) hallows'
  rw [hitem] at hresult halike
  refine ⟨_, (h.ended hfront).trans hended, Prod.ext hresult rfl, halike, ?_⟩
  rw [halike.weight, h.weight]
  exact Nat.add_lt_add_right hless _

/-- A whole program at another place. -/
theorem ReadsItems.elsewhere (h : ReadsItems s ns t) (hall : ¬ c.clean) (hwhole : c.whole)
    (hearlier : c.earlier = []) (halike : c.Alike s s') :
    ∃ t', ReadsItems s' (ns.map (Node.moved c.move)) t' ∧ c.Alike t t' := by
  have hallows : ∀ u, c.Allows u := fun u => ⟨.inl hwhole, .inl hearlier, fun h => absurd h hall⟩
  induction h generalizing s' with
  | ended hended =>
    have hskipped := (Carries.skipNewlines.forth _ s' halike (hallows _)).2
    exact ⟨_, .ended ((halike.ended (hallows _)).trans hended), hskipped⟩
  | item hended hitem hless _ ih =>
    obtain ⟨u', hended', hitem', halike', hless'⟩ := halike.item hended hitem (hallows _) hless
    obtain ⟨t', hmore, hend⟩ := ih halike'
    refine ⟨t', ?_, hend⟩
    rw [List.map_append]
    exact .item hended' hitem' hless' hmore

/-- Line breaks in front of a program do not matter. -/
theorem ReadsItems.behindNewlines (h : ReadsItems b ms u) {rest : List Token}
    (hskip : pastNewlines rest = pastNewlines b.rest) (hweight : tokensWeight b.rest ≤ tokensWeight rest) :
    ReadsItems { b with rest } ms u := by
  have hfront : ({ b with rest } : ParseState).atItem = b.atItem := by
    unfold ParseState.atItem
    rw [hskip]
  have hended : ({ b with rest } : ParseState).ended = b.ended := by
    unfold ParseState.ended
    rw [hskip]
  cases h with
  | ended hb =>
    rw [← hskip]
    exact .ended (s := { b with rest }) (hended.trans hb)
  | item hb hitem hless hmore =>
    refine .item (hended.trans hb) (hfront.symm ▸ hitem) (Nat.lt_of_lt_of_le hless ?_) hmore
    rwa [ParseState.weight_eq, ParseState.weight_eq]

/-- The state in front of a program. -/
structure Fresh (s : ParseState) : Prop where
  errors : s.errors = []
  panicking : s.panicking = false
  stopped : s.stopped = false

theorem Ready.fresh (hs : Ready lines s) (he : s.errors = []) : Fresh s := by
  refine ⟨he, ?_, ?_⟩
  · exact Bool.eq_false_iff.mpr fun h => hs.errors (.inl h) he
  · exact Bool.eq_false_iff.mpr fun h => hs.errors (.inr h) he

theorem Fresh.eq (hs : Fresh s) (hb : Fresh b) (h : Discipline.SameSettings b s) :
    s = { b with rest := s.rest } := by
  obtain ⟨hdepth, hclass, hlast⟩ := h
  obtain ⟨herrors, hpanicking, hstopped⟩ := hs
  obtain ⟨herrors', hpanicking', hstopped'⟩ := hb
  cases s
  cases b
  simp_all

theorem Setting.Alike.fresh (h : c.Alike s s') (hearlier : c.earlier = []) (hs : Fresh s) : Fresh s' := by
  obtain ⟨errors, herrors, hmoved⟩ := h.errors
  rw [hs.errors] at hmoved
  cases hmoved
  exact ⟨by rw [herrors, hearlier]; rfl, h.panicking.trans hs.panicking, h.stopped.trans hs.stopped⟩

/-- A program behind another one that is read without errors. -/
theorem ReadsItems.append (h : ReadsItems s ns t) (hs : Ready True s) (hclean : t.errors = [])
    (hall : ¬ c.clean) (hearlier : c.earlier = []) (halike : c.Alike s s') (hs' : Ready False s')
    (hb : Fresh b) (hrest : b.rest = c.more) (hsettings : Discipline.SameSettings b s')
    (hmore : ReadsItems b ms u) : ReadsItems s' (ns.map (Node.moved c.move) ++ ms) u := by
  induction h generalizing s' with
  | @ended s hended =>
    have hfresh := hs.fresh hclean
    have hnothing : pastNewlines s.rest = [] := by
      simpa [ParseState.ended, hfresh.stopped] using hended
    have hskip : pastNewlines s'.rest = pastNewlines b.rest := by
      unfold pastNewlines at hnothing ⊢
      rw [halike.rest, hrest, List.dropWhile_append, dropWhile_moved (· == .newline), hnothing]
      rfl
    have hweight : tokensWeight b.rest ≤ tokensWeight s'.rest := by
      rw [halike.rest, hrest, tokensWeight_append]
      exact Nat.le_add_left _ _
    rw [(halike.fresh hearlier hfresh).eq hb hsettings]
    exact hmore.behindNewlines hskip hweight
  | @item s v u ns more hended hitem hless hreads ih =>
    have hpast := pastItem hs hended hitem
    have herrors : v.errors = [] := Classical.not_not.mp fun hne => hreads.errors hpast.ready hne hclean
    have hallows : c.Allows v := ⟨.inr (hpast.rest trivial herrors), .inl hearlier, fun h => absurd h hall⟩
    obtain ⟨v', hended', hitem', halike', hless'⟩ := halike.item hended hitem hallows hless
    have hpast' := pastItem hs' hended' hitem'
    rw [List.map_append, List.append_assoc]
    exact .item hended' hitem' hless'
      (ih hpast.ready hclean halike' hpast'.ready (hsettings.trans hpast'.settings))

end Parse

/-! ## Lists of tokens -/

namespace Parse

/-- The state in front of tokens and an end of input. -/
def startAt (tokens : List Token) (pos : Position) : ParseState := { rest := tokens, last := .eof pos }

theorem ofTokens_eof (h : ∀ t ∈ tokens, t.kind ≠ .eof) (pos : Position) :
    ParseState.ofTokens (tokens ++ [Token.eof pos]) = startAt tokens pos := by
  have hne : ∀ t ∈ tokens, (t.kind != .eof) = true := fun t ht => bne_iff_ne.mpr (h t ht)
  have hnone : tokens.find? (·.kind == .eof) = none := by simpa using h
  unfold ParseState.ofTokens startAt
  rw [List.takeWhile_append_of_pos hne, List.find?_append, hnone]
  simp [Token.eof]

theorem ready_startAt (hends : lines → EndsLine tokens) : Ready lines (startAt tokens pos) :=
  ⟨rfl, hends, fun h => by simp [startAt] at h⟩

theorem fresh_startAt (tokens : List Token) (pos : Position) : Fresh (startAt tokens pos) := ⟨rfl, rfl, rfl⟩

/-- The tokens of a program at another place, behind those of a program that is read without errors. -/
theorem ReadsItems.join {a b : List Token} {pa pb : Position} {ns : List Node} {t : ParseState}
    (hmove : Position.Moves move) (hends : EndsLine a)
    (hfirst : Anew b)
    (h : ReadsItems (startAt a pa) ns t) (hclean : t.errors = []) (h' : ReadsItems (startAt b pb) ms u) :
    ∃ u', ReadsItems (startAt (a ++ b.map (Token.moved move)) (move pb)) (ns ++ ms.map (Node.moved move)) u' ∧
      List.Forall₂ (ParseError.MovesTo move) u.errors u'.errors := by
  -- the second program further down
  let below : Setting :=
    .around move hmove [] True (fun _ => rfl) (fun _ ht => absurd ht (Option.not_mem_none _)) []
  have hbelow : below.Alike (startAt b pb) (startAt (b.map (Token.moved move)) (move pb)) :=
    ⟨(List.append_nil _).symm, fun _ => rfl, ⟨rfl, rfl⟩, ⟨[], rfl, .nil⟩, rfl, rfl, rfl, rfl,
      fun h => by simp [startAt] at h⟩
  obtain ⟨u', hreads, hend⟩ := h'.elsewhere id trivial rfl hbelow
  -- the first program in front of it
  have hnext : ∀ t ∈ ((b.map (Token.moved move)).dropWhile (·.kind == .newline)).head?,
      t.kind ≠ .keyword .elseCase ∧ t.kind ≠ .keyword .elifTest := by
    intro t ht
    rw [dropWhile_moved (· == .newline), List.head?_map] at ht
    obtain ⟨other, hother, rfl⟩ := Option.map_eq_some_iff.mp ht
    exact hfirst other hother
  let inFront : Setting :=
    .around id Position.moves_id (b.map (Token.moved move)) False False.elim hnext []
  have hfront : inFront.Alike (startAt a pa) (startAt (a ++ b.map (Token.moved move)) (move pb)) :=
    ⟨by simp [startAt, inFront, Setting.around, Token.map_moved_id], False.elim, ⟨rfl, rfl⟩,
      ⟨[], rfl, .nil⟩, rfl, rfl, rfl, rfl, fun h => by simp [startAt] at h⟩
  have hjoined := h.append (ready_startAt fun _ => hends) hclean id rfl hfront
    (ready_startAt False.elim) (fresh_startAt _ _) rfl (.refl _) hreads
  rw [show inFront.move = id from rfl, Node.map_moved_id] at hjoined
  refine ⟨u', hjoined, ?_⟩
  obtain ⟨errors, herrors, hmoved⟩ := hend.errors
  rw [herrors, show below.earlier = [] from rfl, List.append_nil]
  exact hmoved

end Parse

/-- How positions in a text are moved that stands behind another text and a newline. What has no position
gets none. -/
def Source.below (a : Source) : Position → Position :=
  Position.whereValid (Position.down (a.count (.char '\n') + 1) (a.byteSize + 1))

theorem Source.moves_below (a : Source) : Position.Moves a.below :=
  Position.moves_down (a.count (.char '\n') + 1) (a.byteSize + 1)

theorem Source.below_after (a : Source) {p : Position} (l : Letter) (h : 0 < p.line) :
    a.below (p.after l) = (a.below p).after l := by
  have hp : p.isValid = true := by simpa [Position.isValid] using h
  have hafter : (p.after l).isValid = true := by
    simpa [Position.isValid] using Position.line_after_pos h l
  unfold below Position.whereValid
  rw [if_pos hp, if_pos hafter]
  exact Position.down_after _ _ p l

namespace Program

theorem ofTokens_of_reads {ns : List Node} {t : ParseState} (hmade : ∀ t ∈ tokens, t.kind ≠ .eof)
    (h : Parse.ReadsItems (Parse.startAt tokens pos) ns t) :
    (ofTokens (tokens ++ [Token.eof pos])).program.body = ns ∧
      (ofTokens (tokens ++ [Token.eof pos])).errors = t.errors.reverse := by
  refine Parse.parsed_of_reads ?_
  rwa [Parse.ofTokens_eof hmade]

/-- Tokens that do not go on with a branch. -/
def StartsAnew (tokens : List Token) : Prop :=
  ∀ t ∈ tokens.head?, t.kind ≠ .keyword .elifTest ∧ t.kind ≠ .keyword .elseCase

instance : DecidablePred StartsAnew := fun tokens =>
  inferInstanceAs (Decidable (∀ t ∈ tokens.head?, _))

/-- The tokens of a text behind those of another one that is read without errors. -/
theorem ofTokens_append {a b : Source} {file : String} {ta tb : List Token} (ha : a.tokens file = .ok ta)
    (hclean : (ofTokens ta).errors = []) (hb : b.tokens file = .ok tb) (hfirst : StartsAnew tb)
    (hmove : Position.Moves move) :
    (ofTokens (ta.dropLast ++ tb.map (Token.moved move))).program.body =
        (ofTokens ta).program.body ++ (ofTokens tb).program.body.map (Node.moved move) ∧
      List.Forall₂ (ParseError.MovesTo move) (ofTokens tb).errors
        (ofTokens (ta.dropLast ++ tb.map (Token.moved move))).errors := by
  obtain ⟨made, pa, rfl, hmade, hends⟩ := Source.scanned_of_tokens ha
  obtain ⟨made', pb, rfl, hmade', -⟩ := Source.scanned_of_tokens hb
  have hjoined : (made ++ [Token.eof pa]).dropLast ++ (made' ++ [Token.eof pb]).map (Token.moved move) =
      made ++ made'.map (Token.moved move) ++ [Token.eof (move pb)] := by
    simp [Token.moved, Token.eof]
  have hne : ∀ t ∈ made, t.kind ≠ .eof := fun t ht => (hmade t ht).kind_ne_eof
  have hne' : ∀ t ∈ made', t.kind ≠ .eof := fun t ht => (hmade' t ht).kind_ne_eof
  have hmoved : ∀ t ∈ made ++ made'.map (Token.moved move), t.kind ≠ .eof := by
    intro t ht
    rcases List.mem_append.mp ht with ht | ht
    · exact hne t ht
    · obtain ⟨other, hother, rfl⟩ := List.mem_map.mp ht
      exact hne' other hother
  -- what stands behind is the first token, for that is no line break
  have hanew : Parse.Anew made' := by
    have hhead := Source.head_of_tokens hb
    cases made' with
    | nil => exact fun _ ht => absurd ht (Option.not_mem_none _)
    | cons first rest =>
      have hpast : pastNewlines (first :: rest) = first :: rest := by
        simp [pastNewlines, hhead first rfl]
      intro t ht
      rw [hpast] at ht
      cases ht
      exact (hfirst first rfl).symm
  have hready : Parse.Ready False (Parse.startAt made pa) := Parse.ready_startAt False.elim
  have hready' : Parse.Ready False (Parse.startAt made' pb) := Parse.ready_startAt False.elim
  obtain ⟨ns, t, hreads⟩ := Parse.exists_readsItems hready
  obtain ⟨ms, u, hreads'⟩ := Parse.exists_readsItems hready'
  obtain ⟨hbody, herrors⟩ := ofTokens_of_reads hne hreads
  obtain ⟨hbody', herrors'⟩ := ofTokens_of_reads hne' hreads'
  have hempty : t.errors = [] := List.reverse_eq_nil_iff.mp (herrors.symm.trans hclean)
  obtain ⟨u', hboth, hmovedErrors⟩ := hreads.join hmove hends hanew hempty hreads'
  obtain ⟨hbody'', herrors''⟩ := ofTokens_of_reads hmoved hboth
  rw [hjoined, hbody, hbody', hbody'', herrors', herrors'']
  exact ⟨rfl, List.rel_reverse hmovedErrors⟩

/-- Parsing is compositional: behind a text that is read without errors and a newline, a text that does
not go on with a branch comes to the items and the errors it comes to alone, further down. -/
theorem ofTokens_append_newline (a b : Source) (file : String) (ta tb : List Token)
    (ha : a.tokens file = .ok ta) (hclean : (ofTokens ta).errors = []) (hb : b.tokens file = .ok tb)
    (hfirst : StartsAnew tb) :
    ∃ tokens, (a ++ .char '\n' :: b).tokens file = .ok tokens ∧
      (ofTokens tokens).program.body =
        (ofTokens ta).program.body ++ (ofTokens tb).program.body.map (Node.moved a.below) ∧
      List.Forall₂ (ParseError.MovesTo a.below) (ofTokens tb).errors (ofTokens tokens).errors := by
  obtain ⟨earlier, pos, rfl, hfate⟩ :=
    Source.sameFate_tokens_append ha b (fun p l h => a.below_after l h) rfl
  generalize (a ++ Letter.char '\n' :: b).tokens file = y at hfate ⊢
  rw [hb] at hfate
  cases hfate with
  | ok htokens =>
    have key := ofTokens_append ha hclean hb hfirst a.moves_below
    rw [List.dropLast_concat, ← htokens] at key
    exact ⟨_, rfl, key⟩

/-- A bracket that is not closed in the second text does not matter to the first one, and is told at its
place further down. -/
theorem ofTokens_append_newline_unclosed :
    ∃ ta tb tokens, (Source.ofString "if (x) \x7b y \x7d // one").tokens "f" = .ok ta ∧
      (Source.ofString "z = f(1").tokens "f" = .ok tb ∧
      (Source.ofString "if (x) \x7b y \x7d // one" ++ .char '\n' :: Source.ofString "z = f(1").tokens "f" =
        .ok tokens ∧
      (ofTokens tokens).program.body = (ofTokens ta).program.body ++ (ofTokens tb).program.body.map
        (Node.moved (Source.ofString "if (x) \x7b y \x7d // one").below) ∧
      (ofTokens tb).errors.length = 1 ∧
      List.Forall₂ (ParseError.MovesTo (Source.ofString "if (x) \x7b y \x7d // one").below)
        (ofTokens tb).errors (ofTokens tokens).errors := by
  have hfirst : ((Source.ofString "if (x) \x7b y \x7d // one").tokens "f").toOption.any
      (fun ta => (ofTokens ta).errors.isEmpty) = true := by decide +kernel
  have hsecond : ((Source.ofString "z = f(1").tokens "f").toOption.any (fun tb =>
      (ofTokens tb).errors.length == 1 && tb.head?.map (·.kind) == some .ident) = true := by
    decide +kernel
  obtain ⟨ta, ha, hclean⟩ := exists_ok_of_any hfirst
  obtain ⟨tb, hb, hchecked⟩ := exists_ok_of_any hsecond
  obtain ⟨hone, hident⟩ : (ofTokens tb).errors.length = 1 ∧ tb.head?.map (·.kind) = some .ident := by
    simpa using hchecked
  have hanew : StartsAnew tb := by
    intro t ht
    rw [Option.mem_def.mp ht] at hident
    have hk : t.kind = .ident := by simpa using hident
    simp [hk]
  obtain ⟨tokens, htokens, hbody, herrors⟩ := ofTokens_append_newline _ _ "f" ta tb ha
    (by simpa using hclean) hb hanew
  exact ⟨ta, tb, tokens, ha, hb, htokens, hbody, hone, herrors⟩

end Program

end Frontend
