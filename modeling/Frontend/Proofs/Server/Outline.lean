import Mathlib.Data.Prod.Lex
import Frontend.Proofs.Parse.Finish
import Frontend.Proofs.Parse.Names
import Frontend.Proofs.Token.Faithful
import Frontend.Server.Document

/-!
# Outlines

The items of an outline are nested as the definitions are: a name stands inside of its definition, the members of a
class stand inside of the class, and items come in the order of the source. The tokens that the ranges come from keep
their order from the source through the parse, whatever rule has taken them.
-/

namespace Frontend

variable {t : Token} {tokens rest : List Token} {n left : Node} {ns : List Node}
variable {c : Prop} {token : Token} {rule : Parse Node} {name : Ident} {kind : OutlineKind} {detail : String}

/-! ## Tokens that are kept as they are -/

/-- A token that was written, and that is no number and no minus: no rule takes it apart or makes it. -/
def Token.isWhole (t : Token) : Bool := t.isWritten && !t.kind.isNumeric && t.kind != .op .minus

/-- The tokens that no rule takes apart. -/
def wholes (tokens : List Token) : List Token := tokens.filter Token.isWhole

theorem wholes_sublist (h : rest.Sublist tokens) : (wholes rest).Sublist (wholes tokens) := h.filter _

theorem wholes_splitFirst (h : ∀ t ∈ tokens, t.Classified) : wholes (splitFirst tokens) = wholes tokens := by
  rcases splitFirst_cases tokens with hsame | ⟨t, rest, rfl, hnegative, hsplit⟩
  · rw [hsame]
  obtain ⟨hnumber, -⟩ := Token.isNumeric_unsigned (h t List.mem_cons_self) hnegative
  obtain ⟨hsigned, -⟩ := Token.isNumeric_of_isNegativeNumber hnegative
  rw [hsplit]
  unfold wholes
  rw [List.filter_cons_of_neg (by simp [Token.isWhole, Token.kind_minus]),
    List.filter_cons_of_neg (by simp [Token.isWhole, hnumber]), List.filter_cons_of_neg (by simp [Token.isWhole, hsigned])]

mutual
/-- The tokens of a node that outlines take their ranges from, in the order of the source. Names that may still become
names of a definition are among them, and so is the arrow that ends a short function. -/
def Node.marks : Node → List Token
  | .ident name => [name.token]
  | .assign target _ _ => target.marks
  | .parallel items => marksOf items
  | .block (.mk _ _ items) => marksOf items
  | .call callee _ _ _ => callee.marks
  | .arrow left op _ => left.marks ++ [op]
  | .varDef _ names _ => names.map (·.token)
  | .funDecl t name _ _ => [t, name.token]
  | .funDef t name _ _ body _ => [t, name.token, body.closer]
  | .constructor t name _ _ body => [t, name.token, body.closer]
  | .classDecl t name => [t, name.token]
  | .classDef t name (.mk _ closer items) => t :: name.token :: (marksOf items ++ [closer])
  | _ => []

/-- The tokens of several nodes that outlines take their ranges from. -/
def Node.marksOf : List Node → List Token
  | [] => []
  | n :: ns => n.marks ++ marksOf ns
end

open Node (marksOf)

theorem Node.marksOf_append (ns ms : List Node) : marksOf (ns ++ ms) = marksOf ns ++ marksOf ms := by
  induction ns with
  | nil => rfl
  | cons n ns ih => rw [List.cons_append, marksOf, ih, marksOf, List.append_assoc]

theorem Node.marksOf_single (n : Node) : marksOf [n] = n.marks := List.append_nil _

theorem Node.marksOf_reverse_cons (n : Node) (ns : List Node) :
    marksOf (n :: ns).reverse = marksOf ns.reverse ++ n.marks := by
  rw [List.reverse_cons, marksOf_append, marksOf_single]

/-- What a node holds has the marks of the node. -/
theorem Node.marksOf_itemsOf (n : Node) : marksOf (itemsOf (some n)) = n.marks := by
  cases n with
  | parallel items => rfl
  | block b => cases b; rfl
  | _ => exact marksOf_single _

theorem Group.marksOf_ofItems (opener closer : Token) (b : Bracket) (ns : List Node) :
    marksOf (Group.ofItems opener closer b ns).items = marksOf ns := by
  unfold Group.items Group.ofItems
  dsimp only
  split
  · rfl
  · rw [Node.marksOf_itemsOf, Node.marksOf_single]
  · rfl

namespace Parse

variable {s u : ParseState} {α β : Type} {before : List Token} {p : Parse α} {f : α → Parse β} {sub : Nested}
  {b : Bracket}

/-- What is left of tokens has the tokens that no rule takes apart from those. -/
theorem lasting_wholes (base : List Token) :
    Lasting (fun tokens => (∀ t ∈ tokens, t.Classified) ∧ (wholes tokens).Sublist base) fun _ => True where
  suffix := fun hrest h => ⟨lasting_classified.suffix hrest h.1, (wholes_sublist hrest.sublist).trans h.2⟩
  split := fun h => ⟨lasting_classified.split h.1, wholes_splitFirst h.1 ▸ h.2⟩
  name := fun _ _ => trivial

theorem stands_lasting (base : List Token) (n : Node) : (lasting (lasting_wholes base)).Stands n :=
  standing_of_all (fun _ => trivial) (fun _ => trivial) n

/-- A state in front of numbers that are classified as such. -/
abbrev Legible (s : ParseState) : Prop := RestHas (fun tokens => ∀ t ∈ tokens, t.Classified) s

/-- With the tokens `before` it, a rule comes to a result with its own tokens, in front of those it leaves. All of them
stood there before, in this order. -/
def Saves (before : List Token) (s : ParseState) (p : Parse α) (after : α → List Token) : Prop :=
  Legible s → ∀ a t, p s = (some a, t) →
    Legible t ∧ (after a ++ wholes t.rest).Sublist (before ++ wholes s.rest)

/-- Every result of a rule has a property. -/
def Yields (p : Parse α) (P : α → Prop) : Prop := ∀ s a t, p s = (some a, t) → P a

namespace Yields

variable {P : α → Prop} {Q : β → Prop}

theorem pure {a : α} (h : P a) : Yields (Pure.pure a) P := by
  rintro s a' t ⟨⟩
  exact h

theorem bind (h : ∀ a, Yields (f a) Q) : Yields (p >>= f) Q := by
  intro s b' t hr
  obtain ⟨a, u, -, hr⟩ := bind_eq_some hr
  exact h a u b' t hr

theorem ite [Decidable c] {q : Parse α} (hp : Yields p P) (hq : Yields q P) : Yields (if c then p else q) P := by
  split
  · exact hp
  · exact hq

theorem none (h : ∀ s, (p s).1 = none) : Yields p P := by
  intro s a t hr
  have hnone := h s
  rw [hr] at hnone
  cases hnone

theorem loop {step : α → Parse (Progress α β)} {a : α} (h : ∀ a b s t, step a s = (some (.done b), t) → Q b) :
    Yields (repeatWhile step a) Q := by
  intro s b' t hr
  fun_induction repeatWhile step a s with
  | case1 a s b'' t' hstep =>
    cases hr
    exact h a _ s _ hstep
  | case2 _ _ _ _ _ _ ih => exact ih hr
  | case3 => cases hr
  | case4 => cases hr

theorem inBrackets {inClass : Bool} (h : Yields p P) : Yields (Parse.inBrackets inClass p) P := by
  intro s a t hr
  unfold Parse.inBrackets at hr
  dsimp only at hr
  generalize hp : p { s with depth := s.depth + 1, inClass } = r at hr
  obtain ⟨a?, v⟩ := r
  cases hr
  exact h _ a v hp

end Yields

/-- What a step of a loop leads to, whether the loop goes on or not. -/
def Progress.elim {γ : Type} (f : α → γ) (g : β → γ) : Progress α β → γ
  | .again a => f a
  | .done b => g b

namespace Saves

variable {after mid : α → List Token} {end' : β → List Token}

theorem pure {a : α} (h : (after a).Sublist before) : Saves before s (Pure.pure a) after := by
  rintro hs a' t ⟨⟩
  exact ⟨hs, h.append_right _⟩

theorem none (h : (p s).1 = none) : Saves before s p after := by
  intro _ a t hr
  rw [hr] at h
  cases h

theorem bind (hp : Saves before s p mid) (hf : ∀ a t, p s = (some a, t) → Saves (mid a) t (f a) end') :
    Saves before s (p >>= f) end' := by
  intro hs b' u hr
  obtain ⟨a, t, hpa, hr⟩ := bind_eq_some hr
  obtain ⟨ht, hsub⟩ := hp hs a t hpa
  obtain ⟨hu, hsub'⟩ := hf a t hpa ht b' u hr
  exact ⟨hu, hsub'.trans hsub⟩

theorem ask {g : ParseState → α} (h : Saves before s (f (g s)) end') : Saves before s (Parse.ask g >>= f) end' := h

theorem ite [Decidable c] {q : Parse α} (hp : c → Saves before s p after) (hq : ¬ c → Saves before s q after) :
    Saves before s (if c then p else q) after := by
  split
  next h => exact hp h
  next h => exact hq h

/-- A rule also saves fewer tokens. -/
theorem weaken (h : Saves before s p mid) (hle : ∀ a t, p s = (some a, t) → (after a).Sublist (mid a)) :
    Saves before s p after := by
  intro hs a t hr
  obtain ⟨ht, hsub⟩ := h hs a t hr
  exact ⟨ht, ((hle a t hr).append_right _).trans hsub⟩

/-- Tokens in front of everything stay there. -/
theorem frame (h : Saves [] s p after) (before : List Token) : Saves before s p fun a => before ++ after a := by
  intro hs a t hr
  obtain ⟨ht, hsub⟩ := h hs a t hr
  refine ⟨ht, ?_⟩
  rw [List.append_assoc]
  exact hsub.append_left before

theorem change {g : ParseState → ParseState} {f : Unit → Parse β} (hrest : (g s).rest <:+ s.rest)
    (hlast : (g s).last = s.last) (h : Saves before (g s) (f ()) end') : Saves before s (Parse.change g >>= f) end' := by
  intro hs b' t hr
  obtain ⟨ht, hsub⟩ := h (hs.of_suffix lasting_classified hrest hlast) b' t hr
  exact ⟨ht, hsub.trans ((wholes_sublist hrest.sublist).append_left before)⟩

theorem advance {f : Token → Parse β} {kept : List Token}
    (hkept : s.last.kind = .eof → (kept ++ wholes (s.rest.drop 1)).Sublist (before ++ wholes s.rest))
    (h : ∀ t, Saves kept t (f s.next) end') : Saves before s (Parse.advance >>= f) end' := by
  intro hs b' t hr
  have hbehind : Legible { s with rest := s.rest.drop 1 } := hs.of_suffix lasting_classified (List.drop_suffix 1 s.rest) rfl
  rw [advance_bind] at hr
  obtain ⟨ht, hsub⟩ := h _ hbehind b' t hr
  exact ⟨ht, hsub.trans (hkept hs.eof)⟩

/-- A token that is read is kept. -/
theorem keep {f : Token → Parse β} (hwhole : s.next.isWhole = true) (h : ∀ t, Saves (before ++ [s.next]) t (f s.next) end') :
    Saves before s (Parse.advance >>= f) end' := by
  refine advance (fun heof => ?_) h
  unfold ParseState.next at hwhole ⊢
  cases hrest : s.rest with
  | nil => simp [hrest, Token.isWhole, Token.isWritten, heof] at hwhole
  | cons t rest =>
    rw [hrest] at hwhole
    have hwholes : wholes (t :: rest) = t :: wholes rest := List.filter_cons_of_pos hwhole
    rw [hwholes, List.append_assoc]
    exact .refl _

/-- A token that is read is not of interest. -/
theorem drop {f : Token → Parse β} (h : ∀ t, Saves before t (f s.next) end') :
    Saves before s (Parse.advance >>= f) end' :=
  advance (fun _ => (wholes_sublist (List.drop_suffix 1 s.rest).sublist).append_left before) h

theorem loop {step : α → Parse (Progress α β)} {a : α} {I : α → List Token}
    (h : ∀ a t, Saves (I a) t (step a) (Progress.elim I end')) : Saves (I a) s (repeatWhile step a) end' := by
  intro hs b' t hr
  fun_induction repeatWhile step a s with
  | case1 a s b'' t' hstep =>
    cases hr
    exact h a s hs _ _ hstep
  | case2 a s a' t' hstep _ ih =>
    obtain ⟨ht, hsub⟩ := h a s hs _ _ hstep
    obtain ⟨hu, hsub'⟩ := ih ht hr
    exact ⟨hu, hsub'.trans hsub⟩
  | case3 => cases hr
  | case4 => cases hr

theorem inBrackets {inClass : Bool} (h : Saves before { s with depth := s.depth + 1, inClass } p after) :
    Saves before s (Parse.inBrackets inClass p) after := by
  intro hs a t hr
  unfold Parse.inBrackets at hr
  dsimp only at hr
  generalize hp : p { s with depth := s.depth + 1, inClass } = r at hr
  obtain ⟨a?, v⟩ := r
  cases hr
  obtain ⟨ht, hsub⟩ := h ⟨hs.rest, hs.eof⟩ a v hp
  exact ⟨⟨ht.rest, ht.eof⟩, hsub⟩

section
variable {reads : α → Bool} {Q : α → Prop}

section
variable (h : (lasting (lasting_wholes (wholes s.rest))).Runs reads s p Q)
include h

/-- Whatever a rule does, it leaves tokens that it found. -/
theorem outcome (hs : Legible s) : Legible (p s).2 ∧ (wholes (p s).2.rest).Sublist (wholes s.rest) := by
  have hinv := (h ⟨⟨hs.rest, .refl _⟩, hs.eof⟩).inv
  exact ⟨⟨hinv.rest.1, hinv.eof⟩, hinv.rest.2⟩

/-- A rule none of whose tokens are of interest. -/
theorem quiet : Saves before s p fun _ => before := by
  intro hs a t hr
  have hout := outcome h hs
  rw [hr] at hout
  exact ⟨hout.1, hout.2.append_left before⟩

end

/-- A rule whose results have no tokens of interest. -/
theorem silent {p : Parse Node} {Q : Node → Prop} {reads : Node → Bool}
    (h : (lasting (lasting_wholes (wholes s.rest))).Runs reads s p Q)
    (hp : Yields p fun n => n.marks = []) : Saves before s p Node.marks :=
  (quiet h).weaken fun n t hr => hp s n t hr ▸ List.nil_sublist _

end

theorem accept (k : TokenKind) : Saves before s (Parse.accept k) fun _ => before :=
  ask (ite (fun _ => drop fun _ => pure (.refl _)) fun _ => pure (.refl _))

theorem atItemEnd : Saves before s Parse.atItemEnd fun _ => before := ask (pure (.refl _))

theorem params (items : List Node) : Saves before s (Parse.params items) fun _ => before :=
  quiet (Discipline.keeps_params fun n _ => stands_lasting _ n)

/-- A name; its labels are not of interest. -/
theorem identifier (hk : s.next.kind = .ident) : Saves before s Parse.identifier fun name => before ++ [name.token] := by
  have hwhole : s.next.isWhole = true := by rw [Token.isWhole, Token.isWritten, hk]; rfl
  refine keep hwhole fun t => (accept _).bind fun colon u _ => ite (fun _ => ?_) fun _ => pure (.refl _)
  exact (quiet Discipline.keeps_labels).bind fun ls v _ => pure (.refl _)

end Saves

/-! ## Groups and blocks -/

/-- The rules for what is nested keep to every discipline and keep the marks of what they read. -/
structure SavesNested (sub : Nested) : Prop where
  eats : ∀ d : Discipline, d.EatsNested sub
  saves : ∀ level s, Saves [] s (sub level) Node.marks

theorem SavesNested.behind (hsub : SavesNested sub) (level : Nat) (before : List Token) :
    Saves before s (sub level) fun n => before ++ n.marks :=
  (hsub.saves level s).frame before

variable {end' : β → List Token}

/-- An item that is tried may be faulty; what was read of it is passed over. -/
theorem saves_attempt {p : Parse Node} {f : Option Node → Parse β}
    (heats : ∀ d : Discipline, d.Eats s p d.Stands) (hp : Saves [] s p Node.marks)
    (hnone : ∀ t, Saves before t (f none) end') (hsome : ∀ n t, Saves (before ++ n.marks) t (f (some n)) end') :
    Saves before s (attempt p >>= f) end' := by
  intro hs b' u hr
  have hout := Saves.outcome (heats _) hs
  have hframe := hp.frame before hs
  rw [attempt_bind] at hr
  generalize p s = r at hr hout hframe
  obtain ⟨n?, t⟩ := r
  cases n? with
  | none =>
    obtain ⟨hu, hsub⟩ := hnone t hout.1 b' u hr
    exact ⟨hu, hsub.trans (hout.2.append_left before)⟩
  | some n =>
    obtain ⟨ht, hmarks⟩ := hframe n t rfl
    obtain ⟨hu, hsub⟩ := hsome n t ht b' u hr
    exact ⟨hu, hsub.trans hmarks⟩

theorem Saves.synchronize {c : Option Bracket} {f : Unit → Parse β}
    (h : ∀ t, Saves before t (f ()) end') : Saves before s (synchronize c >>= f) end' :=
  .change (resumeAt_suffix _ _ _) rfl (h _)

theorem Saves.reportUnexpected {expected : String} {f : Unit → Parse β} (h : ∀ t, Saves before t (f ()) end') :
    Saves before s (reportUnexpected token expected >>= f) end' := by
  unfold Parse.reportUnexpected reportToken
  rw [reportAt_eq]
  obtain ⟨hrest, hlast⟩ := rest_afterReport _ s
  exact .change (hrest ▸ List.suffix_refl _) hlast (h _)

section
variable (hsub : SavesNested sub)
include hsub

theorem saves_groupItems (b : Bracket) : Saves before s (groupItems sub b) fun ns => before ++ marksOf ns := by
  suffices hloop : Saves (before ++ marksOf []) s (repeatWhile (Discipline.groupStep sub b) []) fun ns =>
      before ++ marksOf ns by
    rw [Discipline.groupItems_eq]
    simpa [marksOf] using hloop
  refine .loop (I := fun done : List Node => before ++ marksOf done.reverse) fun done t => ?_
  refine .change (pastNewlines_suffix t.rest) rfl (.ask (.ask (.ite (fun _ => ?_) fun _ => ?_)))
  · exact .pure (.refl _)
  refine .change (List.suffix_refl _) rfl (saves_attempt (fun d => (hsub.eats d).eats _ _) (hsub.saves _ _) (fun u => ?_) fun n u => ?_)
  · rw [(hsub.eats (lasting (lasting_wholes []))).recover]
    exact .synchronize fun v => .pure (.refl _)
  · have hmore : (before ++ marksOf (n :: done).reverse).Sublist (before ++ marksOf done.reverse ++ n.marks) := by
      rw [Node.marksOf_reverse_cons, List.append_assoc]
    refine .ask (.ite (fun _ => .pure hmore) fun _ => .ite (fun _ => .pure hmore) fun _ => .ask ?_)
    rw [(hsub.eats (lasting (lasting_wholes []))).recover]
    exact .reportUnexpected fun v => .synchronize fun w => .pure hmore

omit hsub

theorem isWhole_closing (h : t.kind = .closing b) : t.isWhole = true := by
  rw [Token.isWhole, Token.isWritten, h]
  rfl

include hsub

theorem saves_groupBody (opener : Token) :
    Saves before s (groupBody sub opener b) fun g => before ++ marksOf g.items ++ [g.closer] := by
  refine (saves_groupItems hsub b).bind fun ns t _ => .ask (.ite (fun hk => ?_) fun _ => .none rfl)
  refine .keep (isWhole_closing (beq_iff_eq.mp hk)) fun u => .pure ?_
  rw [Group.marksOf_ofItems]
  exact .refl _

theorem saves_group : Saves before s (group sub b) fun g => before ++ marksOf g.items ++ [g.closer] :=
  .drop fun _ => .inBrackets (saves_groupBody hsub _)

theorem saves_block : Saves before s (block sub) fun body => before ++ [body.closer] := by
  refine .ask (.ite (fun _ => ?_) fun _ => .none rfl)
  exact (saves_group hsub).bind fun g t _ => .pure ((List.sublist_append_left _ _).append_right _)

theorem saves_braces : Saves [] s (braces sub) Node.marks := by
  refine (saves_group hsub).bind fun g t _ => .ite (fun _ => .pure (List.nil_sublist _)) fun _ => ?_
  have hitems : (Node.block g.toBlock).marks.Sublist ([] ++ marksOf g.items ++ [g.closer]) := by
    rw [List.nil_append]
    exact List.sublist_append_left _ _
  refine .ite (fun _ => .pure hitems) fun _ => .ite (fun _ => .pure (List.nil_sublist _)) fun _ => ?_
  exact .ite (fun _ => .none rfl) fun _ => .pure hitems

omit hsub

/-! ## Definitions -/

theorem marksOf_definitionsOf {ds : List (Ident × Option Node)} (h : definitionsOf ns = .ok ds) :
    (ds.map Prod.fst).map (·.token) = marksOf ns := by
  induction ns generalizing ds with
  | nil =>
    cases h
    rfl
  | cons n ns ih =>
    obtain ⟨⟨name, value?⟩, rest, hrest, rfl, ⟨rfl, rfl⟩ | ⟨op, value, rfl, rfl⟩⟩ := Discipline.definitionsOf_cons h
    all_goals
      rw [List.map_cons, List.map_cons, ih hrest, marksOf]
      rfl

theorem saves_definitions {items : List Node} : Saves (marksOf items) s (match definitionsOf items with
    | .ok ds => return .varDef token (ds.map Prod.fst) (ds.map Prod.snd)
    | .error n => failNode n (.entry .invalidVarTarget [.text n.text])) Node.marks := by
  split
  next ds hds =>
    refine .pure ?_
    rw [← marksOf_definitionsOf hds]
    exact .refl _
  · exact .none rfl

include hsub

theorem saves_varDefinition : Saves [] s (varDefinition sub) Node.marks := by
  refine .drop fun t => (hsub.saves _ t).bind fun expr u _ => ?_
  split
  · exact saves_definitions
  · exact Node.marksOf_single expr ▸ saves_definitions

omit hsub

theorem marks_functionNode (inClass : Bool) (token : Token) (name : Ident) (ps : List Param) (ls : List Label)
    (body : Block) (arrow : Bool) :
    (functionNode inClass token name ps ls body arrow).marks = [token, name.token, body.closer] := by
  unfold functionNode
  split <;> rfl

/-- The head of a function has its name as its only mark. -/
theorem saves_functionHead (n : Node) (front back : List Token) :
    Saves (front ++ (n.marks ++ back)) s (functionHead n) fun head => front ++ head.1.token :: back := by
  unfold functionHead
  split
  · exact .ite (fun _ => .pure (.refl _)) fun _ => .none rfl
  · exact .none rfl
  · exact .none rfl

theorem Saves.functionLabels : Saves before s functionLabels fun _ => before :=
  .quiet Discipline.keeps_functionLabels

theorem isWhole_of_kind {k : TokenKind} (h : t.kind = k) (hk : Token.isWhole ⟨k, "", {}⟩ = true) :
    t.isWhole = true := by
  subst h
  exact hk

include hsub

theorem saves_namedFunction (token : Token) (inClass : Bool) (head : Node) :
    Saves ([token] ++ head.marks) s (namedFunction sub token inClass head) Node.marks := by
  rw [← List.append_nil head.marks]
  refine (saves_functionHead head [token] []).bind fun parts t _ => ?_
  obtain ⟨name, args⟩ := parts
  refine (Saves.params args).bind fun ps u _ => Saves.functionLabels.bind fun ls v _ => Saves.ask ?_
  refine .ite (fun hk => ?_) fun _ => .ite (fun _ => ?_) fun _ => ?_
  · refine .keep (isWhole_of_kind (beq_iff_eq.mp hk) rfl) fun w => (hsub.behind _ _).bind fun value x _ => .pure ?_
    rw [marks_functionNode]
    exact List.sublist_append_left _ _
  · refine (saves_block hsub).bind fun body w _ => .pure ?_
    rw [marks_functionNode]
    exact .refl _
  · exact Saves.atItemEnd.bind fun ends w _ => .ite (fun _ => .pure (.refl _)) fun _ => .none rfl

omit hsub

theorem yields_lambdaFunction {items : List Node} : Yields (lambdaFunction sub token items) fun n => n.marks = [] := by
  refine .bind fun ps => .bind fun ls => .bind fun arrow => .ite ?_ ?_
  · exact .bind fun arrow => .bind fun value => .pure rfl
  · exact .bind fun body => .pure rfl

include hsub

theorem saves_function (hk : s.next.kind = .keyword .funDef) : Saves [] s (function sub) Node.marks := by
  refine .keep (isWhole_of_kind hk rfl) fun t => .ask ((hsub.behind _ _).bind fun head u _ => ?_)
  split
  · exact .pure (List.nil_sublist _)
  next left arrow right _ =>
    refine (saves_functionHead left [s.next] [arrow]).bind fun parts v _ => ?_
    refine (Saves.params parts.2).bind fun ps w _ => Saves.pure ?_
    rw [marks_functionNode]
    exact .refl _
  · exact saves_namedFunction hsub _ _ _
  next body _ =>
    refine .silent (Discipline.keeps_lambdaFunction (hsub.eats _) trivial fun n _ => stands_lasting _ n) ?_
    exact yields_lambdaFunction
  · exact .none rfl

theorem saves_classDefinition (hk : s.next.kind = .keyword .classDef) :
    Saves [] s (classDefinition sub) Node.marks := by
  refine .keep (isWhole_of_kind hk rfl) fun t => .ask (.ite (fun hname => ?_) fun _ => .none rfl)
  refine (Saves.identifier (beq_iff_eq.mp hname)).bind fun name u _ => ?_
  refine Saves.atItemEnd.bind fun ends v _ => .ite (fun _ => .pure (.refl _)) fun _ => ?_
  refine .ask (.ite (fun _ => ?_) fun _ => .none rfl)
  refine Saves.drop fun w => (Saves.inBrackets (saves_groupBody hsub _)).bind fun g x _ => Saves.pure (.refl _)

/-! ## Rules behind a left operand -/

theorem saves_assignment : Saves left.marks s (assignment sub left) Node.marks := by
  refine .drop fun t => .ite (fun _ => ?_) fun _ => .none rfl
  exact (hsub.behind _ _).bind fun value u _ => .pure (List.sublist_append_left _ _)

theorem saves_parallel : Saves left.marks s (parallel sub left) Node.marks := by
  refine (Node.marksOf_single left) ▸ Saves.loop (I := fun done : List Node => marksOf done.reverse) fun done t => ?_
  refine (Saves.accept _).bind fun comma u _ => Saves.ite (fun _ => Saves.ask ?_) fun _ => Saves.pure (.refl _)
  have hmore : ∀ v, Saves (marksOf done.reverse) v (do return .again ((← sub Binding.parallel) :: done))
      (Progress.elim (fun done : List Node => marksOf done.reverse) Node.marks) := fun v =>
    (hsub.behind _ _).bind fun n w _ => .pure (by rw [Progress.elim, Node.marksOf_reverse_cons])
  exact .ite (fun _ => .change (pastNewlines_suffix _) rfl (hmore _)) fun _ => hmore _

theorem saves_arrowed (hk : s.next.kind = .op .arrow) : Saves left.marks s (arrowed sub left) Node.marks := by
  refine .keep (isWhole_of_kind hk rfl) fun t => (hsub.behind _ _).bind fun right u _ => ?_
  split
  · exact (Saves.params _).bind fun ps v _ => Saves.pure (List.nil_sublist _)
  · exact .pure (List.sublist_append_left _ _)

theorem saves_call : Saves left.marks s (call sub left) Node.marks := by
  refine (saves_group hsub).bind fun g t _ => .ite (fun _ => .none rfl) fun _ => ?_
  refine (Saves.quiet (Discipline.keeps_arguments fun n _ => stands_lasting _ n)).bind fun args u _ => Saves.pure ?_
  rw [List.append_assoc]
  exact List.sublist_append_left _ _

theorem saves_continuation (h : continuation? sub left s.next.kind = some rule) :
    Saves left.marks s rule Node.marks := by
  have hquiet := Discipline.eats_continuation (d := lasting (lasting_wholes (wholes s.rest))) (hsub.eats _)
    (stands_lasting _ left) h
  have hmember : Yields (member left) fun n => n.marks = [] :=
    .bind fun dot => .bind fun t => .ite (.bind fun name => .pure rfl) (.none fun _ => rfl)
  have hindex : Yields (index sub left) fun n => n.marks = [] := by
    refine .bind fun opener => .bind fun inClass => .inBrackets ?_
    refine .bind fun _ => .bind fun subscript => .bind fun _ => .bind fun t => .ite ?_ (.none fun _ => rfl)
    exact .bind fun closer => .pure rfl
  unfold continuation? at h
  split at h
  next o ho =>
    split at h
    all_goals cases h
    all_goals first
      | exact saves_assignment hsub
      | exact saves_arrowed hsub ho
      | exact .silent hquiet hmember
      | exact .silent hquiet (.bind fun op => .bind fun right => .pure rfl)
  · cases h
    exact saves_parallel hsub
  · cases h
    exact saves_call hsub
  · cases h
    exact .silent hquiet hindex
  · cases h

omit hsub

/-! ## Expressions -/

theorem yields_branch : Yields (branch sub) fun n => n.marks = [] := by
  refine .bind fun keyword => .bind fun first => .loop fun done n t u h => ?_
  obtain ⟨k, v, -, h⟩ := bind_eq_some h
  split at h
  · obtain ⟨_, _, -, h⟩ := bind_eq_some h
    obtain ⟨_, _, -, h⟩ := bind_eq_some h
    obtain ⟨_, _, -, ⟨⟩⟩ := bind_eq_some h
    rfl
  · split at h
    · obtain ⟨_, _, -, h⟩ := bind_eq_some h
      obtain ⟨_, _, -, h⟩ := bind_eq_some h
      obtain ⟨_, _, -, ⟨⟩⟩ := bind_eq_some h
    · cases h
      rfl

include hsub

theorem saves_ofKeyword {k : Keyword} (hk : s.next.kind = .keyword k) :
    Saves [] s (ofKeyword sub k) Node.marks := by
  have hquiet := Discipline.eats_ofKeyword (d := lasting (lasting_wholes (wholes s.rest))) (hsub.eats _) hk
  cases k with
  | varDef => exact saves_varDefinition hsub
  | funDef => exact saves_function hsub hk
  | classDef => exact saves_classDefinition hsub hk
  | ifTest => exact .silent hquiet yields_branch
  | elifTest | elseCase => exact .silent hquiet (.bind fun t => .none fun _ => rfl)
  | whileLoop => exact .silent hquiet (.bind fun t => .bind fun test => .bind fun body => .pure rfl)
  | forLoop =>
    refine .silent hquiet (.bind fun token => .bind fun t => .ite (.bind fun g => ?_) (.none fun _ => rfl))
    split
    · exact .bind fun body => .pure rfl
    · exact .none fun _ => rfl
  | returnFrom =>
    exact .silent hquiet (.bind fun token => .bind fun ends => .ite (.pure rfl) (.bind fun value => .pure rfl))
  | importFile =>
    exact .silent hquiet (.bind fun token => .bind fun t => .ite (.bind fun path => .pure rfl) (.none fun _ => rfl))
  | breakOut | continueOn | pass | trueValue | falseValue | nullValue | this =>
    exact .silent hquiet (.bind fun t => .pure rfl)

theorem saves_beginning (h : beginning? sub s.next.kind = some rule) : Saves [] s rule Node.marks := by
  have hquiet := Discipline.eats_beginning (d := lasting (lasting_wholes (wholes s.rest))) (hsub.eats _) h
  unfold beginning? at h
  split at h
  next hk =>
    cases h
    exact (Saves.identifier hk).bind fun name t _ => Saves.pure (.refl _)
  iterate 2
    next =>
      cases h
      refine .silent hquiet (.bind fun t => ?_)
      split
      · exact .pure rfl
      · exact .none fun _ => rfl
  · cases h
    exact .silent hquiet (.bind fun t => .pure rfl)
  iterate 4
    next =>
      cases h
      exact .silent hquiet (.bind fun op => .bind fun n => .pure rfl)
  iterate 2
    next =>
      cases h
      exact .silent hquiet (.bind fun g => .pure rfl)
  · cases h
    exact saves_braces hsub
  next hk =>
    cases h
    exact saves_ofKeyword hsub hk
  · cases h

omit hsub

/-- Taking a negative number apart does not matter. -/
theorem Saves.splitNegative {f : Unit → Parse β} (h : ∀ t, Saves before t (f ()) end') :
    Saves before s (splitNegative >>= f) end' := by
  intro hs b' u hr
  rw [splitNegative_eq, change_bind] at hr
  have hparted : Legible { s with rest := splitFirst s.rest } := ⟨lasting_classified.split hs.rest, hs.eof⟩
  obtain ⟨hu, hsub⟩ := h _ hparted b' u hr
  exact ⟨hu, wholes_splitFirst hs.rest ▸ hsub⟩

include hsub

theorem saves_climb (level : Nat) : Saves left.marks s (climb sub level left) Node.marks := by
  change Saves left.marks s (repeatWhile (Discipline.climbStep sub level) left) Node.marks
  refine .loop (I := Node.marks) fun left t => ?_
  refine .ask (.ite (fun hk => ?_) fun _ => .splitNegative fun u => .ask ?_)
  · have hplain : t.next.kind.plain = true := by
      rcases Bool.or_eq_true_iff.mp hk with hk | hk <;> exact beq_iff_eq.mp hk ▸ rfl
    have hquiet := Discipline.eats_increment (d := lasting (lasting_wholes (wholes t.rest))) (stands_lasting _ left) hplain
    refine (Saves.silent hquiet ?_).bind fun n u _ => Saves.pure (.refl _)
    exact .bind fun op => .ite (.pure rfl) (.none fun _ => rfl)
  · refine .ite (fun _ => .pure (.refl _)) fun _ => ?_
    split
    next rule hrule => exact (saves_continuation hsub hrule).bind fun n v _ => .pure (.refl _)
    · exact .none rfl

end

/-- Every expression keeps the marks of what it reads, in their order. -/
theorem saves_expression (budget level : Nat) : Saves [] s (expression budget level) Node.marks := by
  induction budget generalizing level s with
  | zero => exact .none rfl
  | succ budget ih =>
    have hsub : SavesNested (nested budget) := ⟨fun d => eats_nested d budget, fun level s => ih level⟩
    refine .ask ?_
    split
    next rule hrule => exact (saves_beginning hsub hrule).bind fun n t _ => saves_climb hsub level
    · exact .none rfl

theorem saves_items : Saves [] s items marksOf := by
  rw [items_eq]
  refine .loop (a := []) (I := fun done : List Node => marksOf done.reverse) fun done t => ?_
  refine .change (pastNewlines_suffix t.rest) rfl (.ask (.ite (fun _ => .pure (.refl _)) fun _ => ?_))
  refine .change (List.suffix_refl _) rfl (saves_attempt (fun d => d.eats_expression _ _ _) (saves_expression _ _) (fun u => ?_) fun n u => ?_)
  · exact .synchronize fun v => .pure (.refl _)
  · have hmore : (marksOf (n :: done).reverse).Sublist (marksOf done.reverse ++ n.marks) := by
      rw [Node.marksOf_reverse_cons]
    refine .ask (.ite (fun _ => ?_) fun _ => .pure hmore)
    exact .reportUnexpected fun v => .synchronize fun w => .pure hmore

end Parse

theorem written_of_wholes (h : rest.Sublist tokens) : (wholes rest).Sublist (tokens.filter Token.isWritten) := by
  refine (List.monotone_filter_right rest fun t ht => ?_).trans (h.filter _)
  exact (Bool.and_eq_true_iff.mp (Bool.and_eq_true_iff.mp ht).1).1

/-- The marks of a program are tokens of its source text, in their order. -/
theorem Program.exists_marks {src : Source} {file : String} {p : Program} (h : Program.ofSource src file = .ok p) :
    ∃ tokens, src.tokens file = .ok tokens ∧ (marksOf p.body).Sublist (tokens.filter Token.isWritten) := by
  unfold ofSource at h
  split at h
  · cases h
  next tokens htokens =>
    dsimp only at h
    split at h
    · cases h
      have hscan := Source.scan_eq_ok.mp htokens
      obtain ⟨made, pos, rfl, hmade, -⟩ := Source.scanned_of_tokens hscan
      refine ⟨_, hscan, ?_⟩
      have hrest : (ParseState.ofTokens (made ++ [Token.eof pos])).rest.Sublist (made ++ [Token.eof pos]) :=
        (List.takeWhile_prefix _).sublist
      have hlegible : Parse.Legible (ParseState.ofTokens (made ++ [Token.eof pos])) := by
        refine ⟨fun t ht => ?_, ParseState.last_ofTokens _⟩
        rcases List.mem_append.mp (hrest.subset ht) with ht | ht
        · exact (hmade t ht).classified
        · cases List.mem_singleton.mp ht
          exact fun h => by cases h
      obtain ⟨items, u, hreads⟩ := Parse.exists_readsItems (Parse.ready_ofTokens (made ++ [Token.eof pos]))
      obtain ⟨-, hsub⟩ := Parse.saves_items hlegible items u (Parse.items_of_reads hreads)
      rw [(Parse.parsed_of_reads hreads).1]
      exact ((List.sublist_append_left _ _).trans hsub).trans (written_of_wholes hrest)
    · cases h

/-! ## Places in a document -/

/-- Places come in the order of their lines, and of their characters within a line. -/
instance : Preorder TextPosition := Preorder.lift fun p => toLex (p.line, p.character)

theorem TextPosition.le_iff {p q : TextPosition} :
    p ≤ q ↔ p.line < q.line ∨ p.line = q.line ∧ p.character ≤ q.character := Prod.Lex.toLex_le_toLex

def Token.begins (t : Token) : TextPosition := .ofPosition t.pos

def Token.ends (t : Token) : TextPosition := .ofPosition t.finish

theorem Token.begins_le_ends (t : Token) : t.begins ≤ t.ends := by
  refine TextPosition.le_iff.mpr (.inr ⟨rfl, ?_⟩)
  change (t.pos.column - 1).toNat ≤ (t.pos.column + t.columns - 1).toNat
  have hcolumns : 0 ≤ t.columns := by
    unfold columns
    split <;> omega
  omega

/-- Each of the tokens begins where the one before it ends, or further on. -/
def InOrder (tokens : List Token) : Prop := tokens.Pairwise fun t u => t.ends ≤ u.begins

namespace Position

theorem column_behind_of_notMem {src : Source} (h : .char '\n' ∉ src) (p : Position) :
    (p.behind src).column = p.column + src.length := by
  induction src generalizing p with
  | nil => simp [behind]
  | cons l src ih =>
    have hstep : p.behind (l :: src) = (p.after l).behind src := rfl
    have hafter : (p.after l).column = p.column + 1 := by
      rw [after, Letter.is, if_neg (by simpa using fun he : l = .char '\n' => h (he ▸ List.mem_cons_self))]
    rw [hstep, ih (fun hmem => h (List.mem_cons_of_mem l hmem)), hafter, List.length_cons]
    omega

/-- Behind a text one stands further on by all of its letters, or on a later line. -/
theorem shift_le_behind {p : Position} (hline : 1 ≤ p.line) {src : Source} {columns : Int} (hcolumns : columns ≤ src.length)
    (bytes : Int) : TextPosition.ofPosition (p.shift columns bytes) ≤ .ofPosition (p.behind src) := by
  refine TextPosition.le_iff.mpr ?_
  have hlater := line_behind p src
  simp only [TextPosition.ofPosition, shift]
  by_cases hnewline : .char '\n' ∈ src
  · have hcount := List.count_pos_iff.mpr hnewline
    exact .inl (by omega)
  · rw [List.count_eq_zero.mpr hnewline] at hlater
    rw [column_behind_of_notMem hnewline]
    exact .inr (by omega)

end Position

theorem Unescapes.length_le {quote : Char} {body : Source} {value : List Char} (h : Unescapes quote body value) :
    value.length ≤ body.length := by
  induction h with
  | nil => exact Nat.le_refl 0
  | letter _ _ _ ih => simpa using ih
  | escape _ _ ih => simp only [List.length_cons]; omega

/-- A token ends where the text that it was made from does, or before. -/
theorem Piece.ends_le {p : Piece} {pos : Position} {made : List Token} (hp : p.WellFormed) (hwritten : p.isWritten = true)
    (hline : 1 ≤ pos.line) (h : p.extend pos made = t :: made) : t.ends ≤ .ofPosition (pos.behind p.source) := by
  cases p with
  | lexeme text =>
    obtain ⟨rfl, -⟩ := List.cons.inj h
    refine Position.shift_le_behind hline ?_ _
    have hkind : (TokenKind.classify text == .str) = false := beq_eq_false_iff_ne.mpr (TokenKind.classify_ne text).2
    simp [Token.columns, Token.ofText, hkind, source, Source.ofString, String.length_toList]
  | quoted quote body value =>
    obtain ⟨rfl, -⟩ := List.cons.inj h
    refine Position.shift_le_behind hline ?_ _
    have hlength := Unescapes.length_le hp.2
    simp only [Token.columns, Token.ofString, source, beq_self_eq_true, if_true, String.length_ofList, List.length_cons,
      List.length_append, List.length_nil]
    omega
  | _ => cases hwritten

namespace Pieces

variable {file : String} {done : Pieces}

theorem one_le_line_place (file : String) (done : Pieces) : 1 ≤ (done.place file).line := by
  rw [place_eq, Position.line_behind]
  exact Int.le_add_of_nonneg_right (Int.natCast_nonneg _)

/-- The tokens of pieces come one behind another, last first, and none reaches further than the pieces. -/
theorem inOrder (hwell : ∀ p ∈ done, p.WellFormed) :
    (∀ t ∈ (done.tokens file).filter Token.isWritten, t.ends ≤ .ofPosition (done.place file)) ∧
      ((done.tokens file).filter Token.isWritten).Pairwise fun u t => t.ends ≤ u.begins := by
  induction done with
  | nil => exact ⟨List.forall_mem_nil _, .nil⟩
  | cons p before ih =>
    obtain ⟨hp, hbefore⟩ := List.forall_mem_cons.mp hwell
    obtain ⟨hends, horder⟩ := ih hbefore
    have hline := one_le_line_place file before
    have hplace : TextPosition.ofPosition (place file before) ≤ .ofPosition (place file (p :: before)) := by
      have hshift := @Position.shift_le_behind _ hline p.source 0 (Int.natCast_nonneg _) 0
      rwa [Position.shift, Int.add_zero, Int.add_zero] at hshift
    have holder := fun t ht => (hends t ht).trans hplace
    rw [tokens]
    cases hwritten : p.isWritten with
    | false =>
      rw [Piece.filter_extend hwritten]
      exact ⟨holder, horder⟩
    | true =>
      obtain ⟨t, hextend, hpos, ht, -⟩ := Piece.exists_extend hp hwritten (place file before) (tokens file before)
      have hlast := Piece.ends_le hp hwritten hline hextend
      rw [hextend, List.filter_cons_of_pos ht]
      refine ⟨List.forall_mem_cons.mpr ⟨hlast, holder⟩, .cons (fun u hu => ?_) horder⟩
      rw [Token.begins, hpos]
      exact hends u hu

end Pieces

/-- The tokens of a source text that were written come one behind another. -/
theorem Source.inOrder {src : Source} {file : String} (h : src.tokens file = .ok tokens) :
    InOrder (tokens.filter Token.isWritten) := by
  obtain ⟨done, tail, hmakeUp⟩ := exists_makeUp h
  obtain ⟨extra, hextra, hother⟩ := hmakeUp.exists_extra
  have hwritten : tokens.reverse.filter Token.isWritten = (done.tokens file).filter Token.isWritten := by
    rw [hextra, List.filter_append, List.filter_eq_nil_iff.mpr fun t ht => by simp [hother t ht], List.nil_append]
  rw [InOrder, ← List.pairwise_reverse, ← List.filter_reverse, hwritten]
  exact (Pieces.inOrder hmakeUp.wellFormed).2

/-! ## Items of outlines -/

/-- A range stands inside of another one. -/
structure TextRange.Inside (inner outer : TextRange) : Prop where
  start : outer.start ≤ inner.start
  ordered : inner.start ≤ inner.finish
  finish : inner.finish ≤ outer.finish

namespace OutlineItem

variable {inClass : Bool} {i : OutlineItem} {is : List OutlineItem} {ms : List Token}

def range : OutlineItem → TextRange
  | mk _ _ _ r _ _ => r

/-- Items that come in the order of the source. -/
def Sorted (is : List OutlineItem) : Prop := is.Pairwise fun i j => i.range.start ≤ j.range.start

/-- An item whose name stands inside of it, and whose members stand inside of it, in the order of the source, and are
such items themselves. -/
inductive WellNested : OutlineItem → Prop where
  | mk {name detail : String} {kind : OutlineKind} {range selection : TextRange} {children : List OutlineItem}
      (selection_inside : selection.Inside range) (inside : ∀ c ∈ children, c.range.Inside range)
      (sorted : Sorted children) (nested : ∀ c ∈ children, c.WellNested) :
      WellNested (.mk name detail kind range selection children)

/-- Items whose ranges reach from one of the tokens to another one. -/
structure LaidOut (ms : List Token) (is : List OutlineItem) : Prop where
  nested : ∀ i ∈ is, i.WellNested
  reaches : ∀ i ∈ is, ∃ t ∈ ms, ∃ u ∈ ms, i.range = ⟨t.begins, u.ends⟩ ∧ t.begins ≤ u.ends
  sorted : Sorted is

theorem laidOut_nil (ms : List Token) : LaidOut ms [] := ⟨List.forall_mem_nil _, List.forall_mem_nil _, .nil⟩

theorem laidOut_append {ms' : List Token} {is' : List OutlineItem} (h : LaidOut ms is) (h' : LaidOut ms' is')
    (horder : InOrder (ms ++ ms')) : LaidOut (ms ++ ms') (is ++ is') := by
  refine ⟨List.forall_mem_append.mpr ⟨h.nested, h'.nested⟩, List.forall_mem_append.mpr ⟨fun i hi => ?_, fun i hi => ?_⟩, ?_⟩
  · obtain ⟨t, ht, u, hu, hrange⟩ := h.reaches i hi
    exact ⟨t, List.mem_append_left _ ht, u, List.mem_append_left _ hu, hrange⟩
  · obtain ⟨t, ht, u, hu, hrange⟩ := h'.reaches i hi
    exact ⟨t, List.mem_append_right _ ht, u, List.mem_append_right _ hu, hrange⟩
  · refine List.pairwise_append.mpr ⟨h.sorted, h'.sorted, fun i hi j hj => ?_⟩
    obtain ⟨t, ht, u, hu, hi, -⟩ := h.reaches i hi
    obtain ⟨t', ht', u', hu', hj, -⟩ := h'.reaches j hj
    rw [hi, hj]
    exact t.begins_le_ends.trans ((List.pairwise_append.mp horder).2.2 t ht t' ht')

/-- An item from one token to another one, with its name in between. -/
theorem laidOut_ofNode {u : Token} {children : List OutlineItem} (ht : t ∈ ms) (hu : u ∈ ms) (hpos : n.pos = t.pos)
    (hfinish : n.finish = u.finish) (hfirst : t.begins ≤ name.token.begins) (hlast : name.token.ends ≤ u.ends)
    (hchildren : ∀ c ∈ children, c.range.Inside ⟨t.begins, u.ends⟩) (hsorted : Sorted children)
    (hnested : ∀ c ∈ children, c.WellNested) : LaidOut ms [ofNode n name kind detail children] := by
  have hrange : (ofNode n name kind detail children).range = ⟨t.begins, u.ends⟩ := by
    simp [ofNode, range, TextRange.ofPositions, Token.begins, Token.ends, hpos, hfinish]
  have hname := name.token.begins_le_ends
  refine ⟨List.forall_mem_singleton.mpr ?_, List.forall_mem_singleton.mpr ?_, List.pairwise_singleton _ _⟩
  · rw [ofNode, hpos, hfinish]
    exact .mk ⟨hfirst, hname, hlast⟩ hchildren hsorted hnested
  · exact ⟨t, ht, u, hu, hrange, (hfirst.trans hname).trans hlast⟩

theorem laidOut_leaf {u : Token} (ht : t ∈ ms) (hu : u ∈ ms) (hpos : n.pos = t.pos) (hfinish : n.finish = u.finish)
    (hfirst : t.begins ≤ name.token.begins) (hlast : name.token.ends ≤ u.ends) :
    LaidOut ms [ofNode n name kind detail []] :=
  laidOut_ofNode ht hu hpos hfinish hfirst hlast (List.forall_mem_nil _) .nil (List.forall_mem_nil _)

theorem laidOut_names (names : List Ident) (h : InOrder (names.map (·.token))) :
    LaidOut (names.map (·.token)) (names.map fun i => ofNode (.ident i) i kind i.text []) := by
  induction names with
  | nil => exact laidOut_nil _
  | cons name names ih =>
    have hfirst : LaidOut [name.token] [ofNode (.ident name) name kind name.text []] :=
      laidOut_leaf List.mem_cons_self List.mem_cons_self rfl rfl le_rfl le_rfl
    exact laidOut_append hfirst (ih h.of_cons) h

theorem laidOut_class {closer : Token} {opener : Token} {items : List Node} (h : LaidOut (marksOf items) is)
    (horder : InOrder (t :: name.token :: (marksOf items ++ [closer]))) :
    LaidOut (t :: name.token :: (marksOf items ++ [closer]))
      [ofNode (.classDef t name (.mk opener closer items)) name .cls name.text is] := by
  obtain ⟨hfirst, hlater⟩ := List.pairwise_cons.mp horder
  obtain ⟨hname, hbody⟩ := List.pairwise_cons.mp hlater
  refine laidOut_ofNode (t := t) (u := closer) (by simp) (by simp) rfl rfl ?_ ?_ (fun c hc => ?_) h.sorted h.nested
  · exact t.begins_le_ends.trans (hfirst _ (by simp))
  · exact (hname closer (by simp)).trans closer.begins_le_ends
  · obtain ⟨a, ha, b, hb, hrange, hle⟩ := h.reaches c hc
    have hstart : t.ends ≤ a.begins := hfirst a (by simp [ha])
    have hfinish : b.ends ≤ closer.begins := (List.pairwise_append.mp hbody).2.2 b hb closer (by simp)
    rw [hrange]
    exact ⟨t.begins_le_ends.trans hstart, hle, hfinish.trans closer.begins_le_ends⟩

mutual
/-- The items for a node whose marks come in order are well nested. -/
theorem laidOut_ofDefinition (inClass : Bool) (n : Node) (h : InOrder n.marks) : LaidOut n.marks (ofDefinition inClass n) := by
  have hthree : ∀ {t name closer : Token}, InOrder [t, name, closer] → t.begins ≤ name.begins ∧ name.ends ≤ closer.ends := by
    intro t name closer h
    obtain ⟨hfirst, hlater⟩ := List.pairwise_cons.mp h
    exact ⟨t.begins_le_ends.trans (hfirst name (by simp)),
      ((List.pairwise_cons.mp hlater).1 closer (by simp)).trans closer.begins_le_ends⟩
  cases n with
  | varDef t names values => exact laidOut_names names h
  | funDecl t name ps ls =>
    refine laidOut_leaf (t := t) (u := name.token) List.mem_cons_self (by simp [Node.marks]) rfl rfl ?_ le_rfl
    exact t.begins_le_ends.trans ((List.pairwise_cons.mp h).1 name.token List.mem_cons_self)
  | classDecl t name =>
    refine laidOut_leaf (t := t) (u := name.token) List.mem_cons_self (by simp [Node.marks]) rfl rfl ?_ le_rfl
    exact t.begins_le_ends.trans ((List.pairwise_cons.mp h).1 name.token List.mem_cons_self)
  | funDef t name ps ls body arrow =>
    obtain ⟨hfirst, hlast⟩ := hthree h
    exact laidOut_leaf (t := t) (u := body.closer) List.mem_cons_self (by simp [Node.marks]) rfl rfl hfirst hlast
  | constructor t name ps ls body =>
    obtain ⟨hfirst, hlast⟩ := hthree h
    exact laidOut_leaf (t := t) (u := body.closer) List.mem_cons_self (by simp [Node.marks]) rfl rfl hfirst hlast
  | classDef t name body =>
    cases body with
    | mk opener closer items =>
      have hitems : InOrder (marksOf items) := (List.pairwise_append.mp h.of_cons.of_cons).1
      exact laidOut_class (laidOut_ofItems true items hitems) h
  | _ => exact laidOut_nil _

/-- So are the items for several nodes. -/
theorem laidOut_ofItems (inClass : Bool) (ns : List Node) (h : InOrder (marksOf ns)) :
    LaidOut (marksOf ns) (ofItems inClass ns) := by
  cases ns with
  | nil => exact laidOut_nil _
  | cons n ns =>
    obtain ⟨hfirst, hrest, -⟩ := List.pairwise_append.mp h
    exact laidOut_append (laidOut_ofDefinition inClass n hfirst) (laidOut_ofItems inClass ns hrest) h
end

end OutlineItem

/-- The outline of a source text that is read without errors is well nested: every item, however deep, has its name and
its members inside of it, and the items next to each other begin in the order of the source. -/
theorem OutlineItem.wellNested_ofItems {src : Source} {file : String} {p : Program} (h : Program.ofSource src file = .ok p) :
    (∀ i ∈ ofItems false p.body, i.WellNested) ∧ Sorted (ofItems false p.body) := by
  obtain ⟨tokens, htokens, hmarks⟩ := Program.exists_marks h
  have hlaid := laidOut_ofItems false p.body ((Source.inOrder htokens).sublist hmarks)
  exact ⟨hlaid.nested, hlaid.sorted⟩

/-- A class with a variable inside of it stands before the function below it. -/
theorem OutlineItem.wellNested_class : ∃ p,
    Program.ofSource (.ofString "class A\x7b\nvar x\n\x7d\nfun f() -> A") "" = .ok p ∧
      (ofItems false p.body).map (·.range) = [⟨⟨0, 0⟩, ⟨2, 1⟩⟩, ⟨⟨3, 0⟩, ⟨3, 10⟩⟩] ∧
      (∀ i ∈ ofItems false p.body, i.WellNested) ∧ Sorted (ofItems false p.body) := by
  have hchecked : (Program.ofSource (.ofString "class A\x7b\nvar x\n\x7d\nfun f() -> A") "").toOption.any
      (fun p => (ofItems false p.body).map (·.range) == [⟨⟨0, 0⟩, ⟨2, 1⟩⟩, ⟨⟨3, 0⟩, ⟨3, 10⟩⟩]) = true := by
    decide +kernel
  obtain ⟨p, hp, hranges⟩ := exists_ok_of_any hchecked
  exact ⟨p, hp, eq_of_beq hranges, wellNested_ofItems hp⟩

end Frontend
