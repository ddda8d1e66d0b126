import Frontend.Proofs.Parse.Meeting

/-!
# Numbers taken apart beforehand

Every rule of the grammar keeps track of numbers that are taken apart beforehand, so a parse does: where it meets
them behind operands, it makes no difference that they have been taken apart.
-/

namespace Frontend

variable {t : Token}

namespace Parse

variable {sub : Parse Unit → Nested}

/-! ## Labels -/

mutual
theorem tracks_label : ∀ fuel, Tracks fun _ => label fuel
  | 0 => .fail
  | fuel + 1 => Tracks.advance.bind fun word => tracks_groups fuel word []

theorem tracks_groups : ∀ fuel word done, Tracks fun _ => groups fuel word done
  | 0, _, _ => .fail
  | fuel + 1, word, done => by
    unfold groups
    refine (Tracks.check rfl).bind fun b => Tracks.ite (.pure _) (Tracks.ite .failAt ?_)
    refine Tracks.advance.bind fun opener => (tracks_members fuel opener []).bind fun group => ?_
    exact Tracks.advance.bind fun _ => tracks_groups fuel word (group :: done)

theorem tracks_members : ∀ fuel opener done, Tracks fun _ => members fuel opener done
  | 0, _, _ => .fail
  | fuel + 1, opener, done => by
    unfold members
    refine Tracks.peek (fun t => ?_) fun t ht => .inr ?_
    · refine Tracks.ite (.pure _) (Tracks.ite (Tracks.ite .failAt .failAt) ?_)
      refine (tracks_label fuel).bind fun inner => (Tracks.accept rfl).bind fun b => ?_
      refine (Tracks.check rfl).bind fun b' => Tracks.ite .failNext ?_
      exact tracks_members fuel opener (inner :: done)
    · refine Misses.ite_neg (Token.not_kind ht rfl) (Misses.ite_pos ?_ (Misses.ite .failToken .failToken))
      rcases Token.kind_of_negative ht with hk | hk <;> simp [hk, startsLabel, TokenKind.isLabel]
end

/-- The bound for a label depends on how much is left to read, but the label does not. -/
theorem tracks_boundedLabel : Tracks fun _ => (do label (← labelFuel)) := by
  refine ⟨fun {n s} h => ⟨fun _ => rfl, ?_⟩, fun {places s tokens'} heof hparted => ?_⟩
  · exact ((tracks_label _).past h).2
  · have hle := hparted.length_le
    have hsame : label (3 * s.rest.length + 3) s = label (3 * tokens'.length + 3) s :=
      label_of_le _ _ s heof (by omega) (by omega)
    exact ((tracks_label (3 * tokens'.length + 3)).follows heof hparted).of_run (List.Subset.refl _) rfl hsame rfl
      fun _ _ _ => hsame

theorem tracks_labels : Tracks fun _ => labels := by
  unfold labels
  refine .peek (fun first => .ite .failAt ?_) fun first hfirst => .inr ?_
  · refine @Tracks.repeatWhile _ _ (fun done _ => _) (fun done => ?_) []
    exact tracks_boundedLabel.bind fun l => .peekKind (fun k => .ite (.pure _) (.pure _)) rfl rfl
  · refine .ite_pos ?_ .failToken
    rcases Token.kind_of_negative hfirst with hk | hk <;> simp [hk, startsLabel, TokenKind.isLabel]

theorem tracks_functionLabels : Tracks fun _ => functionLabels :=
  (Tracks.accept rfl).bind fun _ => Tracks.ite tracks_labels (.pure _)

/-! ## Groups -/

/-- The rules for what is nested keep track of numbers that are taken apart. -/
structure TracksNested (sub : Parse Unit → Nested) : Prop where
  expression : ∀ level, Tracks fun meet => sub meet level
  recover : ∀ meet b, (sub meet).recover b = synchronize (some b)

theorem tracks_ended : Tracks fun _ => Parse.ask fun s => s.atEnd || s.stopped :=
  .ask fun _ hparted => congrArg (· || _) hparted.isEmpty

section
variable (hsub : TracksNested sub)
include hsub

theorem tracks_groupItems (bracket : Bracket) : Tracks fun meet => groupItems (sub meet) bracket := by
  unfold groupItems
  simp only [hsub.recover]
  refine .repeatWhile (fun done => ?_) []
  refine Tracks.skipNewlines.bind fun _ => (Tracks.check rfl).bind fun closes => ?_
  refine tracks_ended.bind fun ended => .ite (.pure _) ?_
  refine Tracks.calm.bind fun _ => (hsub.expression _).attempt (fun r => ?_) (passes_synchronize _ _)
  cases r with
  | none => exact (Tracks.synchronize _).bind fun _ => .pure _
  | some item =>
    refine .peekKind (fun k => .ite (.pure _) (.ite (.pure _) ?_)) rfl rfl
    refine .peek (fun t => ?_) fun t _ => .inr (passes_synchronize _ _).report.misses
    exact Tracks.reportAt.bind fun _ => (Tracks.synchronize _).bind fun _ => .pure _

theorem tracks_groupBody (opener : Token) (bracket : Bracket) :
    Tracks fun meet => groupBody (sub meet) opener bracket := by
  unfold groupBody
  refine (tracks_groupItems hsub bracket).bind fun items => ?_
  exact .expect (by rfl) fun _ => Tracks.advance.bind fun closer => .pure _

theorem tracks_group (bracket : Bracket) : Tracks fun meet => group (sub meet) bracket :=
  Tracks.advance.bind fun opener => (tracks_groupBody hsub opener bracket).inBrackets

theorem tracks_block : Tracks fun meet => block (sub meet) :=
  .expect (by rfl) fun _ => (tracks_group hsub _).bind fun g => .pure _

omit hsub

/-! ## Expressions -/

theorem tracks_params (items : List Node) : Tracks fun _ => params items := by
  unfold params
  cases paramsOf items false false with
  | ok ps => exact .pure ps
  | error e => exact .failAt

theorem tracks_arguments (items : List Node) : Tracks fun _ => arguments items := by
  induction items with
  | nil => exact .pure []
  | cons n ns ih =>
    unfold arguments
    cases argumentOf? n with
    | some a => exact ih.bind fun rest => .pure _
    | none => exact .failAt

theorem tracks_identifier : Tracks fun _ => identifier := by
  unfold identifier
  refine Tracks.advance.bind fun token => (Tracks.accept rfl).bind fun b => Tracks.ite ?_ (.pure _)
  exact tracks_labels.bind fun ls => .pure _

theorem tracks_integer : Tracks fun _ => integer := by
  unfold integer
  refine Tracks.advance.bind fun t => ?_
  split
  · exact .pure _
  · exact .failToken

theorem misses_integer : Misses fun _ => integer := by
  unfold integer
  refine passes_advance.misses.bind fun t => ?_
  split
  · exact .pure _
  · exact .failToken

theorem tracks_float : Tracks fun _ => float := by
  unfold float
  refine Tracks.advance.bind fun t => ?_
  split
  · exact .pure _
  · exact .failToken

theorem misses_float : Misses fun _ => float := by
  unfold float
  refine passes_advance.misses.bind fun t => ?_
  split
  · exact .pure _
  · exact .failToken

/-- A node made of the next token. -/
theorem tracks_leaf {make : Token → Node} : Tracks fun _ => (do return make (← advance) : Parse Node) :=
  Tracks.advance.bind fun _ => .pure _

include hsub

theorem tracks_unary : Tracks fun meet => unary (sub meet) :=
  Tracks.advance.bind fun _ => (hsub.expression _).bind fun _ => .pure _

theorem tracks_list : Tracks fun meet => list (sub meet) :=
  (tracks_group hsub _).bind fun _ => .pure _

theorem tracks_braces : Tracks fun meet => braces (sub meet) := by
  unfold braces
  refine (tracks_group hsub _).bind fun g => .ite (.pure _) (.ite (.pure _) ?_)
  exact .ite (.pure _) (.ite .failAt (.pure _))

theorem tracks_binary (left : Node) : Tracks fun meet => binary (sub meet) left :=
  Tracks.advance.bind fun _ => (hsub.expression _).bind fun _ => .pure _

theorem tracks_assignment (target : Node) : Tracks fun meet => assignment (sub meet) target := by
  unfold assignment
  refine Tracks.advance.bind fun op => .ite ?_ .failAt
  exact (hsub.expression _).bind fun value => .pure _

theorem tracks_parallel (first : Node) : Tracks fun meet => parallel (sub meet) first := by
  unfold parallel
  refine .repeatWhile (fun done => ?_) [first]
  refine (Tracks.accept rfl).bind fun b => Tracks.ite ?_ (.pure _)
  have hdepth : Tracks fun _ => Parse.ask (·.depth) := .ask fun _ _ => rfl
  have hitem : Tracks fun meet => (do return .again ((← sub meet Binding.parallel) :: done) :
      Parse (Progress (List Node) Node)) := (hsub.expression _).bind fun item => .pure _
  exact hdepth.bind fun depth => .ite (Tracks.skipNewlines.bind fun _ => hitem) hitem

theorem tracks_entry (key : Node) : Tracks fun meet => entry (sub meet) key :=
  Tracks.advance.bind fun _ => (hsub.expression _).bind fun _ => .pure _

theorem tracks_arrowed (left : Node) : Tracks fun meet => arrowed (sub meet) left := by
  unfold arrowed
  refine Tracks.advance.bind fun arrow => (hsub.expression _).bind fun right => ?_
  split
  · exact (tracks_params _).bind fun ps => .pure _
  · exact .pure _

theorem tracks_call (callee : Node) : Tracks fun meet => call (sub meet) callee := by
  unfold call
  refine (tracks_group hsub _).bind fun g => .ite .failAt ?_
  exact (tracks_arguments g.items).bind fun args => .pure _

theorem tracks_indexBody (left : Node) (opener : Token) : Tracks fun meet => indexBody (sub meet) left opener := by
  unfold indexBody
  refine Tracks.skipNewlines.bind fun _ => (hsub.expression _).bind fun subscript => ?_
  refine Tracks.skipNewlines.bind fun _ => ?_
  exact .expect (by rfl) fun _ => Tracks.advance.bind fun _ => .pure _

omit hsub

theorem tracks_inClass : Tracks fun _ => Parse.ask (·.inClass) := .ask fun _ _ => rfl

include hsub

theorem tracks_index (left : Node) : Tracks fun meet => index (sub meet) left := by
  unfold index
  refine Tracks.advance.bind fun opener => tracks_inClass.bind fun inClass => ?_
  exact (tracks_indexBody hsub left opener).inBrackets

omit hsub

theorem tracks_member (object : Node) : Tracks fun _ => member object := by
  unfold member
  refine Tracks.advance.bind fun dot => ?_
  exact .expect (by rfl) fun _ => Tracks.advance.bind fun name => .pure _

theorem tracks_increment (operand : Node) : Tracks fun _ => increment operand :=
  Tracks.advance.bind fun _ => .ite (.pure _) .failAt

/-- There is a rule whatever is done behind operands, or there is none. -/
def TracksChoice (choice : Parse Unit → Option (Parse Node)) : Prop :=
  (∀ meet, choice meet = none) ∨ ∃ rule, (∀ meet, choice meet = some (rule meet)) ∧ Tracks rule

theorem TracksChoice.rule {rule : Parse Unit → Parse Node} (h : Tracks rule) : TracksChoice fun meet => some (rule meet) :=
  .inr ⟨rule, fun _ => rfl, h⟩

theorem TracksChoice.nothing : TracksChoice fun _ => none := .inl fun _ => rfl

include hsub

theorem tracks_continuation (left : Node) (k : TokenKind) :
    TracksChoice fun meet => continuation? (sub meet) left k := by
  cases k with
  | op o =>
    cases o with
    | assign | plusAssign | minusAssign | starAssign | slashAssign | percentAssign =>
      exact .rule (tracks_assignment hsub left)
    | colon => exact .rule (tracks_entry hsub left)
    | arrow => exact .rule (tracks_arrowed hsub left)
    | dot => exact .rule (tracks_member left)
    | power | increment | decrement | not => exact .nothing
    | _ => exact .rule (tracks_binary hsub left)
  | comma => exact .rule (tracks_parallel hsub left)
  | opening b =>
    cases b with
    | paren => exact .rule (tracks_call hsub left)
    | square => exact .rule (tracks_index hsub left)
    | brace => exact .nothing
  | _ => exact .nothing

omit hsub

/-- Doing what a choice says. -/
theorem TracksChoice.bind {β : Type} {choice : Parse Unit → Option (Parse Node)} {f : Node → Parse Unit → Parse β}
    {g : Parse β} (h : TracksChoice choice) (hf : ∀ n, Tracks (f n)) (hg : Tracks fun _ => g) :
    Tracks fun meet => (match choice meet with
      | some rule => rule >>= fun n => f n meet
      | none => g : Parse β) := by
  rcases h with hnone | ⟨rule, hrule, htracks⟩
  · simpa only [hnone] using hg
  · simpa only [hrule] using htracks.bind hf

include hsub

theorem tracks_climbVia (level : Nat) (left : Node) : Tracks fun meet => climbVia meet (sub meet) level left := by
  unfold climbVia
  refine .repeatWhile (fun left => ?_) left
  refine .peekKind (fun k => .ite ((tracks_increment left).bind fun n => .pure _) ?_) rfl rfl
  refine .meet fun t => .ite (.pure _) ?_
  exact (tracks_continuation hsub left t.kind).bind (fun n => .pure _) .failAt

/-! ## Definitions -/

theorem tracks_varDefinition : Tracks fun meet => varDefinition (sub meet) := by
  unfold varDefinition
  refine Tracks.advance.bind fun token => (hsub.expression _).bind fun expr => ?_
  dsimp only
  split
  · exact .pure _
  · exact .failAt

omit hsub

theorem tracks_functionHead (n : Node) : Tracks fun _ => functionHead n := by
  unfold functionHead
  split
  · exact .ite (.pure _) .failAt
  · exact .failAt
  · exact .failAt

include hsub

theorem tracks_namedFunction (token : Token) (inClass : Bool) (head : Node) :
    Tracks fun meet => namedFunction (sub meet) token inClass head := by
  unfold namedFunction
  refine (tracks_functionHead head).bind fun h => (tracks_params h.2).bind fun ps => ?_
  refine tracks_functionLabels.bind fun ls => .peek (fun t => ?_) fun t ht => .inr ?_
  · refine .ite ?_ (.ite ?_ ?_)
    · exact Tracks.advance.bind fun arrow => (hsub.expression _).bind fun value => .pure _
    · exact (tracks_block hsub).bind fun body => .pure _
    · exact Tracks.atItemEnd.bind fun b => .ite (.pure _) .failAt
  · refine .ite_neg (Token.not_kind ht rfl) (.ite_neg (Token.not_kind ht rfl) ?_)
    exact misses_atItemEnd .failToken

theorem tracks_lambdaFunction (token : Token) (items : List Node) :
    Tracks fun meet => lambdaFunction (sub meet) token items := by
  unfold lambdaFunction
  refine (tracks_params items).bind fun ps => tracks_functionLabels.bind fun ls => ?_
  refine (Tracks.check rfl).bind fun b => Tracks.ite ?_ ?_
  · exact Tracks.advance.bind fun arrow => (hsub.expression _).bind fun value => .pure _
  · exact (tracks_block hsub).bind fun body => .pure _

theorem tracks_function : Tracks fun meet => function (sub meet) := by
  unfold function
  refine Tracks.advance.bind fun token => tracks_inClass.bind fun inClass => (hsub.expression _).bind fun head => ?_
  split
  · exact .pure _
  next left arrow right =>
    exact (tracks_functionHead left).bind fun h => (tracks_params h.2).bind fun ps => .pure _
  · exact tracks_namedFunction hsub token inClass _
  · exact tracks_lambdaFunction hsub token _
  · exact .failAt

theorem tracks_classDefinition : Tracks fun meet => classDefinition (sub meet) := by
  unfold classDefinition
  refine Tracks.advance.bind fun token => .expect (by rfl) fun t => ?_
  refine tracks_identifier.bind fun name => Tracks.atItemEnd.bind fun b => .ite (.pure _) ?_
  refine .expect (by rfl) fun t => ?_
  refine Tracks.advance.bind fun opener => ?_
  exact (tracks_groupBody hsub opener .brace).inBrackets.bind fun g => .pure _

/-! ## Control flow -/

theorem tracks_testOf (keyword : Token) : Tracks fun meet => testOf (sub meet) keyword := by
  unfold testOf
  refine .expect (by rfl) fun t => (tracks_group hsub _).bind fun g => ?_
  split
  · exact .pure _
  · exact .failAt

theorem tracks_condition (keyword : Token) : Tracks fun meet => condition (sub meet) keyword :=
  (tracks_testOf hsub keyword).bind fun _ => (tracks_block hsub).bind fun _ => .pure _

theorem tracks_branch : Tracks fun meet => branch (sub meet) := by
  unfold branch
  refine Tracks.advance.bind fun keyword => (tracks_condition hsub keyword).bind fun first => ?_
  refine .repeatWhile (fun done => ?_) [first]
  refine .kindPastNewlines (fun k => .ite ?_ (.ite ?_ (.pure _))) rfl rfl
  · refine Tracks.skipNewlines.bind fun _ => Tracks.advance.bind fun _ => ?_
    exact (tracks_block hsub).bind fun otherwise => .pure _
  · refine Tracks.skipNewlines.bind fun _ => Tracks.advance.bind fun keyword => ?_
    exact (tracks_condition hsub keyword).bind fun test => .pure _

theorem tracks_whileLoop : Tracks fun meet => whileLoop (sub meet) :=
  Tracks.advance.bind fun token => (tracks_testOf hsub token).bind fun _ => (tracks_block hsub).bind fun _ => .pure _

theorem tracks_forLoop : Tracks fun meet => forLoop (sub meet) := by
  unfold forLoop
  refine Tracks.advance.bind fun token => .expect (by rfl) fun t => ?_
  refine (tracks_group hsub _).bind fun g => ?_
  split
  · exact (tracks_block hsub).bind fun body => .pure _
  · exact .failAt

theorem tracks_returnFrom : Tracks fun meet => returnFrom (sub meet) := by
  unfold returnFrom
  refine Tracks.advance.bind fun token => Tracks.atItemEnd.bind fun b => .ite (.pure _) ?_
  exact (hsub.expression _).bind fun value => .pure _

omit hsub

theorem tracks_importFile : Tracks fun _ => importFile := by
  unfold importFile
  refine Tracks.advance.bind fun token => ?_
  exact .expect (by rfl) fun _ => Tracks.advance.bind fun path => .pure _

theorem tracks_strayBranch : Tracks fun _ => strayBranch :=
  .peek (fun _ => .failAt) fun _ _ => .inr .failToken

include hsub

theorem tracks_ofKeyword (k : Keyword) : Tracks fun meet => ofKeyword (sub meet) k := by
  cases k with
  | varDef => exact tracks_varDefinition hsub
  | funDef => exact tracks_function hsub
  | classDef => exact tracks_classDefinition hsub
  | ifTest => exact tracks_branch hsub
  | elifTest | elseCase => exact tracks_strayBranch
  | whileLoop => exact tracks_whileLoop hsub
  | forLoop => exact tracks_forLoop hsub
  | returnFrom => exact tracks_returnFrom hsub
  | importFile => exact tracks_importFile
  | _ => exact tracks_leaf

theorem tracks_beginning (k : TokenKind) : TracksChoice fun meet => beginning? (sub meet) k := by
  unfold beginning?
  split
  · exact .rule (tracks_identifier.bind fun name => .pure _)
  · exact .rule tracks_integer
  · exact .rule tracks_float
  · exact .rule tracks_leaf
  · exact .rule (tracks_unary hsub)
  · exact .rule (tracks_unary hsub)
  · exact .rule (tracks_unary hsub)
  · exact .rule (tracks_unary hsub)
  · exact .rule ((tracks_group hsub _).bind fun g => .pure _)
  · exact .rule (tracks_list hsub)
  · exact .rule (tracks_braces hsub)
  · exact .rule (tracks_ofKeyword hsub _)
  · exact .nothing

/-! ## Programs -/

theorem tracks_expressionWithVia (level : Nat) : Tracks fun meet => expressionWithVia meet (sub meet) level := by
  unfold expressionWithVia
  refine .peek (fun t => ?_) fun t ht => .inr ?_
  · exact (tracks_beginning hsub t.kind).bind (fun left => tracks_climbVia hsub level left) .failAt
  · -- a number in front of an expression is read whole
    rcases Token.kind_of_negative ht with hk | hk
    · simp only [hk, beginning?]
      exact misses_integer.bind fun left => tracks_climbVia hsub level left
    · simp only [hk, beginning?]
      exact misses_float.bind fun left => tracks_climbVia hsub level left

end

theorem tracks_expressionVia (budget level : Nat) : Tracks fun meet => expressionVia meet budget level := by
  induction budget generalizing level with
  | zero => exact .peek (fun _ => .failAt) fun _ _ => .inr .failToken
  | succ budget ih => exact tracks_expressionWithVia ⟨ih, fun _ _ => rfl⟩ level

theorem tracks_itemsVia : Tracks itemsVia := by
  unfold itemsVia
  refine .repeatWhile (fun done => ?_) []
  refine Tracks.skipNewlines.bind fun _ => tracks_ended.bind fun ended => .ite (.pure _) ?_
  refine Tracks.calm.bind fun _ => (tracks_expressionVia _ _).attempt (fun r => ?_) (passes_synchronize _ _)
  cases r with
  | none => exact (Tracks.synchronize _).bind fun _ => .pure _
  | some item =>
    refine .peek (fun t => ?_) fun t ht => .inr ?_
    · refine .ite ?_ (.pure _)
      exact Tracks.reportAt.bind fun _ => (Tracks.synchronize _).bind fun _ => .pure _
    · refine .ite_pos ?_ (passes_synchronize _ _).report.misses
      rcases Token.kind_of_negative ht with hk | hk <;> simp [hk]

end Parse

/-! ## Lists of tokens -/

/-- In the second list some negative numbers of the first are taken apart, each of which has been met with as many
tokens behind it, up to the end of input. -/
inductive TakenApart (met : Nat → Prop) : List Token → List Token → Prop where
  | nil : TakenApart met [] []
  | same {tokens tokens'} (t : Token) (rest : TakenApart met tokens tokens') :
      TakenApart met (t :: tokens) (t :: tokens')
  | apart {tokens tokens'} {t : Token} (hnegative : t.isNegativeNumber = true)
      (hmet : met (beforeEnd tokens).length) (rest : TakenApart met tokens tokens') :
      TakenApart met (t :: tokens) (t.splitNegative.1 :: t.splitNegative.2 :: tokens')

theorem beforeEnd_cons (h : t.kind ≠ .eof) (tokens : List Token) : beforeEnd (t :: tokens) = t :: beforeEnd tokens := by
  rw [beforeEnd, List.takeWhile_cons, if_pos (bne_iff_ne.mpr h)]
  rfl

theorem beforeEnd_eof (h : t.kind = .eof) (tokens : List Token) : beforeEnd (t :: tokens) = [] := by
  rw [beforeEnd, List.takeWhile_cons, if_neg (by simp [h])]

/-- Neither a negative number nor what it is taken apart into is the end of input. -/
theorem Token.ne_eof_of_negative (h : t.isNegativeNumber = true) :
    t.kind ≠ .eof ∧ t.splitNegative.1.kind ≠ .eof ∧ t.splitNegative.2.kind ≠ .eof := by
  refine ⟨fun hk => ?_, ?_, TokenKind.classify_ne_eof _⟩
  · rw [isNegativeNumber, hk] at h
    cases h
  · simp [kind_minus]

namespace TakenApart

variable {met : Nat → Prop} {tokens tokens' : List Token}

section
variable (h : TakenApart met tokens tokens')
include h

theorem parted : ∃ places, Parse.Parted places (beforeEnd tokens) (beforeEnd tokens') ∧ ∀ n ∈ places, met n := by
  induction h with
  | nil => exact ⟨[], .nil, fun n hn => absurd hn List.not_mem_nil⟩
  | @same tokens tokens' t rest ih =>
    obtain ⟨places, hparted, hmet⟩ := ih
    by_cases ht : t.kind = .eof
    · rw [beforeEnd_eof ht, beforeEnd_eof ht]
      exact ⟨[], .nil, fun n hn => absurd hn List.not_mem_nil⟩
    · rw [beforeEnd_cons ht, beforeEnd_cons ht]
      exact ⟨places, .same t hparted, hmet⟩
  | @apart tokens tokens' t hnegative hmet rest ih =>
    obtain ⟨places, hparted, hplaces⟩ := ih
    obtain ⟨ht, hminus, hnumber⟩ := Token.ne_eof_of_negative hnegative
    rw [beforeEnd_cons ht, beforeEnd_cons hminus, beforeEnd_cons hnumber]
    exact ⟨_, .apart hnegative hparted, List.forall_mem_cons.mpr ⟨hmet, hplaces⟩⟩

theorem find_eof : tokens'.find? (·.kind == .eof) = tokens.find? (·.kind == .eof) := by
  induction h with
  | nil => rfl
  | same t rest ih => rw [List.find?_cons, List.find?_cons, ih]
  | apart hnegative hmet rest ih =>
    obtain ⟨ht, hminus, hnumber⟩ := Token.ne_eof_of_negative hnegative
    rw [List.find?_cons_of_neg (by simpa using hminus), List.find?_cons_of_neg (by simpa using hnumber),
      List.find?_cons_of_neg (by simpa using ht), ih]

/-- Both lists end at the same place. -/
theorem last (hend : (∃ t ∈ tokens, t.kind = .eof) ∨ tokens'.getLast? = tokens.getLast?) :
    (ParseState.ofTokens tokens').last = (ParseState.ofTokens tokens).last := by
  unfold ParseState.ofTokens
  dsimp only
  rw [h.find_eof]
  cases hfind : tokens.find? (·.kind == .eof) with
  | some t => rfl
  | none =>
    have hnone := List.find?_eq_none.mp hfind
    have hlast : tokens'.getLast? = tokens.getLast? :=
      hend.resolve_left fun ⟨t, ht, hk⟩ => hnone t ht (beq_iff_eq.mpr hk)
    rw [hlast]

end

end TakenApart

theorem ParseState.eof_ofTokens (tokens : List Token) : (ParseState.ofTokens tokens).last.kind = .eof := by
  unfold ParseState.ofTokens
  dsimp only
  cases hfind : tokens.find? (·.kind == .eof) with
  | some t => exact beq_iff_eq.mp (List.find?_some (p := fun t : Token => t.kind == .eof) hfind)
  | none => rfl

namespace Program

theorem ofTokens_eq (tokens : List Token) : ofTokens tokens =
    ⟨⟨(ParseState.ofTokens tokens).next.pos.file, (Parse.items (.ofTokens tokens)).1.getD []⟩,
      (Parse.items (.ofTokens tokens)).2.errors.reverse⟩ := rfl

/-- It makes no difference whether negative numbers that are met behind operands are taken apart beforehand: there
are the same items and the same errors, at the same places. The end of input must not move with the numbers: it
is given, or the last token stays. -/
theorem ofTokens_takenApart {tokens tokens' : List Token} (h : TakenApart (Parse.Meets tokens) tokens tokens')
    (hend : (∃ t ∈ tokens, t.kind = .eof) ∨ tokens'.getLast? = tokens.getLast?) :
    ofTokens tokens' = ofTokens tokens := by
  obtain ⟨places, hparted, hmet⟩ := h.parted
  have hstart : ParseState.ofTokens tokens' = (ParseState.ofTokens tokens).before (beforeEnd tokens') := by
    rw [ParseState.before, ← h.last hend]
    rfl
  cases Parse.tracks_itemsVia.follows (ParseState.eof_ofTokens tokens) hparted with
  | same hsub hparted' hsame hlast hblind =>
    rw [Parse.itemsVia_splitNegative, ← hstart] at hsame
    have hfile : (ParseState.ofTokens tokens').next.pos.file = (ParseState.ofTokens tokens).next.pos.file := by
      rw [hstart]
      rcases Parse.Parted.next (s := ParseState.ofTokens tokens) hparted with hnext | ⟨n, -, -, hminus⟩
      · rw [hnext]
      · rw [hminus]
        rfl
    rw [ofTokens_eq, ofTokens_eq, hsame, hfile]
    rfl
  | missed hn hblind hlost =>
    obtain ⟨other, hother⟩ := hmet _ hn
    have hsame := hblind other
    rw [Parse.itemsVia_splitNegative] at hsame
    exact absurd hsame hother

/-- The tokens of `a -3 -4`. -/
def twoNumbers : List Token :=
  [⟨.ident, "a", ⟨"f", 1, 1, 0⟩⟩, ⟨.int, "-3", ⟨"f", 1, 3, 2⟩⟩, ⟨.int, "-4", ⟨"f", 1, 6, 5⟩⟩, .eof ⟨"f", 1, 8, 7⟩]

/-- The tokens of `a - 3 - 4`, with the minuses where the numbers were. -/
def twoNumbersApart : List Token :=
  [⟨.ident, "a", ⟨"f", 1, 1, 0⟩⟩, ⟨.op .minus, "-", ⟨"f", 1, 3, 2⟩⟩, ⟨.int, "3", ⟨"f", 1, 4, 3⟩⟩,
    ⟨.op .minus, "-", ⟨"f", 1, 6, 5⟩⟩, ⟨.int, "4", ⟨"f", 1, 7, 6⟩⟩, .eof ⟨"f", 1, 8, 7⟩]

/-- A number is met when stopping in front of it can be told in the end. -/
theorem meets_of_stopped {tokens : List Token} {n : Nat}
    (h : (Parse.itemsVia (Parse.meeting n (Parse.change fun s => { s with stopped := true })) (.ofTokens tokens)).2.stopped ≠
      (Parse.items (.ofTokens tokens)).2.stopped) : Parse.Meets tokens n :=
  ⟨_, fun hsame => h (congrArg (fun r => r.2.stopped) hsame)⟩

theorem takenApart_twoNumbers : TakenApart (Parse.Meets twoNumbers) twoNumbers twoNumbersApart :=
  .same _ (.apart rfl (meets_of_stopped (by decide +kernel)) (.apart rfl (meets_of_stopped (by decide +kernel))
    (.same _ .nil)))

theorem ofTokens_twoNumbersApart : TakenApart (Parse.Meets twoNumbers) twoNumbers twoNumbersApart ∧
    ofTokens twoNumbersApart = ofTokens twoNumbers ∧ (ofTokens twoNumbers).program.body.length = 1 :=
  ⟨takenApart_twoNumbers, ofTokens_takenApart takenApart_twoNumbers
    (.inl ⟨.eof ⟨"f", 1, 8, 7⟩, by decide, rfl⟩), by decide +kernel⟩

/-- The tokens of `(a -3` without an end of input. -/
def openNumber : List Token :=
  [⟨.opening .paren, "(", ⟨"f", 1, 1, 0⟩⟩, ⟨.ident, "a", ⟨"f", 1, 2, 1⟩⟩, ⟨.int, "-3", ⟨"f", 1, 4, 3⟩⟩]

/-- The same with the number taken apart. -/
def openNumberApart : List Token :=
  [⟨.opening .paren, "(", ⟨"f", 1, 1, 0⟩⟩, ⟨.ident, "a", ⟨"f", 1, 2, 1⟩⟩, ⟨.op .minus, "-", ⟨"f", 1, 4, 3⟩⟩,
    ⟨.int, "3", ⟨"f", 1, 5, 4⟩⟩]

/-- A missing end of input is put at the place of the last token, so it moves with a number that is the last token. -/
theorem errors_openNumberApart_ne : TakenApart (Parse.Meets openNumber) openNumber openNumberApart ∧
    (ofTokens openNumberApart).errors ≠ (ofTokens openNumber).errors := by
  have hcolumns : (ofTokens openNumberApart).errors.map (·.pos.column) ≠
      (ofTokens openNumber).errors.map (·.pos.column) := by decide +kernel
  refine ⟨.same _ (.same _ (.apart rfl (meets_of_stopped (by decide +kernel)) .nil)), fun h => ?_⟩
  exact hcolumns (congrArg (List.map fun e : ParseError => e.pos.column) h)

end Program

end Frontend
