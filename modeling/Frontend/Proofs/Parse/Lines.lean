import Frontend.Proofs.Parse.Join
import Frontend.Proofs.Parse.Nesting

/-!
# Lines do not affect one another

In a program of lines with properly nested brackets, a faulty line is read as if it stood alone with the
line break that ends it, and so are the lines around it. Only the number of errors and the place of the
last one are known from line to line.
-/

namespace Frontend

variable {tokens : List Token} {pieces : List (List Token)}

namespace Parse

/-- A line: some tokens without line breaks and ends of input, with properly nested brackets. -/
structure IsLine (tokens : List Token) : Prop where
  nonempty : tokens ≠ []
  oneLine : OneLine tokens
  nested : WellNested tokens
  classified : ∀ t ∈ tokens, t.Classified

/-- The lines of a program, each with the line break that ends it; the last one may have none. -/
inductive Lines : List (List Token) → Prop where
  | nil : Lines []
  | last {line : List Token} (h : IsLine line) : Lines [line]
  | cons {line : List Token} {newline : Token} {pieces : List (List Token)} (h : IsLine line)
      (hnewline : newline.kind = .newline) (hmore : Lines pieces) :
      Lines ((line ++ [newline]) :: pieces)

def lastPos (tokens : List Token) : Position := (tokens.getLast?.map (·.pos)).getD {}

variable {line tail more breaks : List Token} {s : ParseState}

/-- Without an end of input, it is put at the place of the last token. -/
theorem ofTokens_startAt (h : ∀ t ∈ tokens, t.kind ≠ .eof) :
    ParseState.ofTokens tokens = startAt tokens (lastPos tokens) := by
  have hnone : tokens.find? (·.kind == .eof) = none :=
    List.find?_eq_none.mpr fun t ht => by simpa using h t ht
  unfold ParseState.ofTokens startAt lastPos
  rw [hnone, List.takeWhile_eq_self_iff.mpr fun t ht => bne_iff_ne.mpr (h t ht)]
  simp

theorem IsLine.kind_ne_eof (hline : IsLine line) (htail : LineEnd tail) : ∀ t ∈ line ++ tail, t.kind ≠ .eof := by
  intro t ht
  rcases List.mem_append.mp ht with ht | ht
  · exact (hline.oneLine t ht).2
  · simp [htail t ht]

theorem IsLine.pastNewlines (hline : IsLine line) (hbreaks : LineEnd breaks) (more : List Token) :
    pastNewlines (breaks ++ (line ++ more)) = line ++ more := by
  obtain ⟨first, rest, rfl⟩ := List.exists_cons_of_ne_nil hline.nonempty
  have hfirst := (hline.oneLine first List.mem_cons_self).1
  have hnothing := pastNewlines_lineEnd hbreaks
  unfold Frontend.pastNewlines at hnothing ⊢
  rw [List.dropWhile_append, hnothing]
  simp [hfirst]

def RowOf (tokens : List Token) (row : Int) : Prop := ∃ t ∈ tokens, row = t.pos.line

theorem rowOf_lastPos (h : tokens ≠ []) : RowOf tokens (lastPos tokens).line := by
  refine ⟨tokens.getLast h, List.getLast_mem h, ?_⟩
  rw [lastPos, List.getLast?_eq_some_getLast h]
  rfl

/-- A line as one item. -/
structure LineItem (line tail : List Token) (ns : List Node) (t : ParseState) : Prop where
  ended : (startAt (line ++ tail) (lastPos (line ++ tail))).ended = false
  item : Parse.item (startAt (line ++ tail) (lastPos (line ++ tail))).atItem = (some ns, t)
  past : PastItem False (startAt (line ++ tail) (lastPos (line ++ tail))) t
  rest : t.rest = tail
  rows : ∀ e ∈ t.errors, RowOf (line ++ tail) e.pos.line
  stopped : t.stopped = true → maxParseErrors ≤ t.errors.length
  body : (Program.ofTokens (line ++ tail)).program.body = ns
  errors : (Program.ofTokens (line ++ tail)).errors = t.errors.reverse

/-- A line alone is one item, and what it leaves unread is the end of the line. -/
theorem IsLine.exists_item (hline : IsLine line) (htail : LineEnd tail) : ∃ ns t, LineItem line tail ns t := by
  let start := startAt (line ++ tail) (lastPos (line ++ tail))
  have hpast : Frontend.pastNewlines (line ++ tail) = line ++ tail :=
    hline.pastNewlines lineEnd_nil tail
  have hfront : start.atItem = start := by
    unfold ParseState.atItem start startAt
    rw [hpast]
  have hended : start.ended = false := by
    unfold ParseState.ended start startAt
    simp [hpast, hline.nonempty]
  have hready : Ready False start := ready_startAt False.elim
  have hnested : Frontend.unmatched (line ++ tail) = some [] := by
    rw [Nesting.unmatched_append hline.nested]
    exact unmatched_lineEnd htail []
  have honLine : OnLine tail (RowOf (line ++ tail)) start :=
    ⟨⟨line, rfl, hline.oneLine, fun t ht => ⟨hline.classified t ht, t, List.mem_append_left _ ht, rfl⟩⟩,
      by rw [show start.rest = line ++ tail from rfl, hnested, waiting_eq hnested], nofun, rfl,
      rowOf_lastPos (by simp [hline.nonempty]), nofun⟩
  obtain ⟨ns, t, hitem, hpastItem⟩ := Parse.exists_item hready hended
  obtain ⟨hrest, herrors, hstopped⟩ :=
    honLine.item htail (fun t ht => ⟨t, List.mem_append_right _ ht, rfl⟩) (hfront ▸ hitem)
  have hend : t.ended = true := by
    unfold ParseState.ended
    simp [hrest, pastNewlines_lineEnd htail]
  have hreads : ReadsItems start (ns ++ []) _ :=
    .item hended hitem hpastItem.less (.ended hend)
  rw [show start = _ from (ofTokens_startAt (hline.kind_ne_eof htail)).symm, List.append_nil] at hreads
  obtain ⟨hbody, hfaults⟩ := parsed_of_reads hreads
  exact ⟨ns, t, hended, hitem, hpastItem, hrest, fun e he => (herrors e he).resolve_left nofun, hstopped,
    hbody, hfaults⟩

/-- The errors of a line are told in its rows. -/
theorem IsLine.rows (hline : IsLine line) (htail : LineEnd tail) :
    ∀ e ∈ (Program.ofTokens (line ++ tail)).errors, RowOf (line ++ tail) e.pos.line := by
  obtain ⟨ns, t, hitem⟩ := hline.exists_item htail
  rw [hitem.errors]
  exact fun e he => hitem.rows e (List.mem_reverse.mp he)

/-- A state between two lines of a program. -/
structure BetweenLines (s : ParseState) : Prop where
  stopped : s.stopped = false
  depth : s.depth = 0
  inClass : s.inClass = false
  eof : s.last.kind = .eof

theorem eq_of_movesTo_id {errors errors' : List ParseError}
    (h : List.Forall₂ (ParseError.MovesTo id) errors errors') : errors' = errors := by
  induction h with
  | nil => rfl
  | cons he _ ih => rw [he.eq_of_id, ih]

/-- A line in a program: it is read as if it stood alone, and leaves its own errors behind. -/
theorem IsLine.reads (hline : IsLine line) (htail : LineEnd tail) (hbreaks : LineEnd breaks)
    (hwhole : tail = [] → more = [] ∧ s.last = .eof (lastPos line))
    (hanew : Anew more)
    (hs : BetweenLines s) (hrest : s.rest = breaks ++ (line ++ (tail ++ more)))
    (hcount : (Program.ofTokens (line ++ tail)).errors.length + s.errors.length < maxParseErrors)
    (hrows : ∀ e ∈ s.errors, ¬ RowOf (line ++ tail) e.pos.line) :
    ∃ t, BetweenLines t ∧ t.rest = tail ++ more ∧ t.last = s.last ∧
      t.errors = (Program.ofTokens (line ++ tail)).errors.reverse ++ s.errors ∧ ∀ ms u, ReadsItems t ms u →
        ReadsItems s ((Program.ofTokens (line ++ tail)).program.body ++ ms) u := by
  obtain ⟨ns, t, hitem⟩ := hline.exists_item htail
  rw [hitem.errors, List.length_reverse] at hcount
  -- the program from the line on, with the errors of the lines in front
  let around : Setting :=
    .around id Position.moves_id more (tail = []) (fun h => (hwhole h).1) hanew s.errors
  let s' : ParseState := { s with rest := line ++ tail ++ more, panicking := false }
  have halike : around.Alike (startAt (line ++ tail) (lastPos (line ++ tail))) s' := by
    refine ⟨?_, fun h => ?_, ⟨rfl, hs.eof⟩, ⟨[], rfl, .nil⟩, rfl, hs.stopped, hs.depth, hs.inClass,
      fun h => by simp [startAt] at h⟩
    · rw [show around.move = id from rfl, Token.map_moved_id]
      rfl
    · cases (show tail = [] from h)
      rw [List.append_nil]
      exact (hwhole rfl).2
  have hallows : around.Allows t := by
    refine ⟨?_, .inr ⟨hcount, fun e he h hh hsame => ?_⟩, False.elim⟩
    · rw [hitem.rest]
      exact Classical.em _
    · refine hrows h (List.mem_of_mem_head? hh) ?_
      rw [← hsame.1]
      exact hitem.rows e he
  obtain ⟨t', hended', hitem', halike', hless'⟩ := halike.item hitem.ended hitem.item hallows hitem.past.less
  have hpast : Frontend.pastNewlines s.rest = line ++ tail ++ more := by
    rw [hrest, hline.pastNewlines hbreaks, List.append_assoc]
  have hpast' : Frontend.pastNewlines s'.rest = line ++ tail ++ more := by
    have hfront := hline.pastNewlines lineEnd_nil (tail ++ more)
    rwa [List.nil_append, ← List.append_assoc] at hfront
  have hready : Ready False s' := ⟨hs.eof, False.elim, fun h => by simp [s', hs.stopped] at h⟩
  have hbehind := pastItem hready hended' hitem'
  obtain ⟨hdepth, hclass, hlast⟩ := hbehind.settings
  have hgoes : t.stopped = false := by
    refine Bool.eq_false_iff.mpr fun h => ?_
    have := hitem.stopped h
    omega
  refine ⟨t', ⟨halike'.stopped.trans hgoes, hdepth.trans hs.depth, hclass.trans hs.inClass, ?_⟩, ?_, hlast,
    ?_, fun ms u hreads => ?_⟩
  · rw [hlast]
    exact hs.eof
  · rw [halike'.rest, hitem.rest, show around.move = id from rfl, Token.map_moved_id]
    rfl
  · obtain ⟨errors, herrors, hmoved⟩ := halike'.errors
    rw [herrors, eq_of_movesTo_id hmoved, hitem.errors, List.reverse_reverse]
    rfl
  · have hfront : s'.atItem = s.atItem := by
      unfold ParseState.atItem
      rw [hpast, hpast']
    have hended : s.ended = false := by
      rw [← hended']
      unfold ParseState.ended
      rw [hpast, hpast']
    have hle : s'.weight ≤ s.weight := by
      rw [ParseState.weight_eq, ParseState.weight_eq, hrest, ← List.append_assoc line, tokensWeight_append breaks]
      exact Nat.le_add_left _ _
    rw [hitem.body]
    rw [show around.move = id from rfl, Node.map_moved_id, hfront] at hitem'
    exact .item hended hitem' (Nat.lt_of_lt_of_le hless' hle) hreads

/-- A piece begins with a line. -/
theorem Lines.piece (h : Lines pieces) :
    ∀ piece ∈ pieces, ∃ line tail, piece = line ++ tail ∧ IsLine line ∧ LineEnd tail := by
  induction h with
  | nil => exact List.forall_mem_nil _
  | @last line h =>
    intro piece hpiece
    cases List.mem_singleton.mp hpiece
    exact ⟨line, [], (List.append_nil _).symm, h, lineEnd_nil⟩
  | @cons line newline pieces h hnewline _ ih =>
    intro piece hpiece
    rcases List.mem_cons.mp hpiece with rfl | hpiece
    · refine ⟨line, [newline], rfl, h, fun t ht => ?_⟩
      cases List.mem_singleton.mp ht
      exact hnewline
    · exact ih piece hpiece

/-- Lines that do not go on with a branch. -/
theorem Lines.anew (h : Lines pieces) (hanew : ∀ piece ∈ pieces, Program.StartsAnew piece) :
    Anew pieces.flatten := by
  cases pieces with
  | nil => exact fun _ ht => absurd ht (Option.not_mem_none _)
  | cons piece pieces =>
    obtain ⟨line, tail, rfl, hline, htail⟩ := h.piece piece List.mem_cons_self
    have hpast := hline.pastNewlines lineEnd_nil (tail ++ pieces.flatten)
    rw [List.nil_append] at hpast
    obtain ⟨first, rest, rfl⟩ := List.exists_cons_of_ne_nil hline.nonempty
    intro t ht
    rw [List.flatten_cons, List.append_assoc, hpast] at ht
    cases ht
    exact (hanew _ List.mem_cons_self first rfl).symm

theorem lastPos_append (h : tokens ≠ []) (front : List Token) : lastPos (front ++ tokens) = lastPos tokens := by
  unfold lastPos
  rw [List.getLast?_append, List.getLast?_eq_some_getLast h]
  rfl

/-- The lines of a program are read one after the other, each as if it stood alone. -/
theorem Lines.reads (h : Lines pieces) (hbreaks : LineEnd breaks)
    (hanew : ∀ piece ∈ pieces.tail, Program.StartsAnew piece)
    (hrows : pieces.Pairwise fun a b => ∀ t ∈ a, ∀ u ∈ b, t.pos.line ≠ u.pos.line) (hs : BetweenLines s)
    (hrest : s.rest = breaks ++ pieces.flatten) (hlast : pieces ≠ [] → s.last = .eof (lastPos pieces.flatten))
    (hcount : (pieces.flatMap fun p => (Program.ofTokens p).errors).length + s.errors.length <
      maxParseErrors) (hfree : ∀ e ∈ s.errors, ∀ piece ∈ pieces, ¬ RowOf piece e.pos.line) :
    ∃ u, ReadsItems s (pieces.flatMap fun p => (Program.ofTokens p).program.body) u ∧
      u.errors = (pieces.flatMap fun p => (Program.ofTokens p).errors).reverse ++ s.errors := by
  induction h generalizing s breaks with
  | nil =>
    refine ⟨_, .ended ?_, rfl⟩
    have hnothing := pastNewlines_lineEnd hbreaks
    rw [List.flatten_nil, List.append_nil] at hrest
    simp [ParseState.ended, hrest, hnothing]
  | @last line hline =>
    have hcount' : (Program.ofTokens (line ++ [])).errors.length + s.errors.length < maxParseErrors := by
      simpa using hcount
    obtain ⟨t, ht, hend, -, herrors, hreads⟩ := hline.reads lineEnd_nil hbreaks
      (fun _ => ⟨rfl, by simpa using hlast (by simp)⟩) (fun _ ht => absurd ht (Option.not_mem_none _))
      hs (by simpa using hrest) hcount'
      (fun e he => by simpa using hfree e he line List.mem_cons_self)
    have hended : t.ended = true := by
      simp [ParseState.ended, hend, Frontend.pastNewlines]
    have hall := hreads [] _ (.ended hended)
    rw [List.append_nil, List.append_nil] at hall
    rw [List.append_nil] at herrors
    exact ⟨_, by simpa using hall, by simpa using herrors⟩
  | @cons line newline pieces hline hnewline hmore ih =>
    have htail : LineEnd [newline] := fun t ht => List.mem_singleton.mp ht ▸ hnewline
    obtain ⟨hfirst, hothers⟩ := List.pairwise_cons.mp hrows
    rw [List.flatMap_cons, List.length_append] at hcount
    obtain ⟨t, ht, hbehind, hsame, herrors, hreads⟩ := hline.reads htail hbreaks (by simp)
      (hmore.anew hanew) hs (by simpa using hrest) (by omega)
      (fun e he => hfree e he _ List.mem_cons_self)
    have hlast' : pieces ≠ [] → t.last = .eof (lastPos pieces.flatten) := by
      intro hne
      have hflat : pieces.flatten ≠ [] := by
        obtain ⟨piece, others, rfl⟩ := List.exists_cons_of_ne_nil hne
        obtain ⟨line', tail', rfl, hline', -⟩ := hmore.piece piece List.mem_cons_self
        simp [hline'.nonempty]
      rw [hsame, hlast (by simp), List.flatten_cons, lastPos_append hflat]
    have hfree' : ∀ e ∈ t.errors, ∀ piece ∈ pieces, ¬ RowOf piece e.pos.line := by
      intro e he piece hpiece hrow
      rw [herrors] at he
      rcases List.mem_append.mp he with he | he
      · obtain ⟨x, hx, hxrow⟩ := hline.rows htail e (List.mem_reverse.mp he)
        obtain ⟨y, hy, hyrow⟩ := hrow
        exact hfirst piece hpiece x hx y hy (hxrow.symm.trans hyrow)
      · exact hfree e he piece (List.mem_cons_of_mem _ hpiece) hrow
    obtain ⟨u, hall, hu⟩ := ih htail (fun piece hpiece => hanew piece (List.mem_of_mem_tail hpiece))
      hothers ht hbehind hlast' (by rw [herrors, List.length_append, List.length_reverse]; omega) hfree'
    refine ⟨u, hreads _ _ hall, ?_⟩
    rw [hu, herrors, List.flatMap_cons, List.reverse_append, List.append_assoc]

end Parse

namespace Program

/-- A faulty line does not affect other lines. A program of lines with properly nested brackets, none of
which goes on with the branch in front of it, has the items and the errors of its lines, each with the
line break that ends it; lines stand in different rows, and there are not so many errors that the parse
stops. -/
theorem ofTokens_flatten_lines (pieces : List (List Token)) (h : Parse.Lines pieces)
    (hanew : ∀ piece ∈ pieces.tail, StartsAnew piece)
    (hrows : pieces.Pairwise fun a b => ∀ t ∈ a, ∀ u ∈ b, t.pos.line ≠ u.pos.line)
    (hcount : (pieces.flatMap fun piece => (ofTokens piece).errors).length < maxParseErrors) :
    (ofTokens pieces.flatten).program.body = pieces.flatMap (fun piece => (ofTokens piece).program.body) ∧
      (ofTokens pieces.flatten).errors = pieces.flatMap fun piece => (ofTokens piece).errors := by
  have hne : ∀ t ∈ pieces.flatten, t.kind ≠ .eof := by
    intro t ht
    obtain ⟨piece, hpiece, ht⟩ := List.mem_flatten.mp ht
    obtain ⟨line, tail, rfl, hline, htail⟩ := h.piece piece hpiece
    exact hline.kind_ne_eof htail t ht
  obtain ⟨u, hreads, hu⟩ := h.reads Parse.lineEnd_nil hanew hrows
    (s := Parse.startAt pieces.flatten (Parse.lastPos pieces.flatten))
    ⟨rfl, rfl, rfl, rfl⟩ rfl (fun _ => rfl) hcount (List.forall_mem_nil _)
  rw [← Parse.ofTokens_startAt hne] at hreads
  obtain ⟨hbody, herrors⟩ := Parse.parsed_of_reads hreads
  refine ⟨hbody, ?_⟩
  rw [herrors, hu, List.reverse_append, List.reverse_reverse]
  rfl

/-- The line `x +`, at whose end an operand is missing. -/
def cutLine : List Token :=
  [⟨.ident, "x", ⟨"f", 1, 1, 0⟩⟩, ⟨.op .plus, "+", ⟨"f", 1, 3, 2⟩⟩]

/-- The line `y` below it. -/
def nextLine : List Token := [⟨.ident, "y", ⟨"f", 2, 1, 4⟩⟩]

theorem isLine_cutLine : Parse.IsLine cutLine where
  nonempty := nofun
  oneLine := by simp [cutLine, Parse.OneLine]
  nested := .token (fun _ => nofun) (fun _ => nofun) (.token (fun _ => nofun) (fun _ => nofun) .nil)
  classified := by simp [cutLine, Token.Classified, Token.isNegativeNumber]

theorem isLine_nextLine : Parse.IsLine nextLine where
  nonempty := nofun
  oneLine := by simp [nextLine, Parse.OneLine]
  nested := .token (fun _ => nofun) (fun _ => nofun) .nil
  classified := by simp [nextLine, Token.Classified, Token.isNegativeNumber]

theorem startsAnew_nextLine : StartsAnew nextLine := by
  simp [nextLine, StartsAnew]

/-- The line below a faulty one is read. -/
theorem ofTokens_flatten_cutLine :
    (ofTokens [cutLine ++ [.newline ⟨"f", 1, 4, 3⟩], nextLine].flatten).program.body =
        (ofTokens (cutLine ++ [.newline ⟨"f", 1, 4, 3⟩])).program.body ++ (ofTokens nextLine).program.body ∧
      (ofTokens [cutLine ++ [.newline ⟨"f", 1, 4, 3⟩], nextLine].flatten).errors =
        (ofTokens (cutLine ++ [.newline ⟨"f", 1, 4, 3⟩])).errors ++ (ofTokens nextLine).errors ∧
      (ofTokens (cutLine ++ [.newline ⟨"f", 1, 4, 3⟩])).errors.length = 1 ∧
      (ofTokens nextLine).program.body.length = 1 := by
  obtain ⟨hbody, herrors⟩ := ofTokens_flatten_lines [cutLine ++ [Token.newline ⟨"f", 1, 4, 3⟩], nextLine]
    (.cons isLine_cutLine rfl (.last isLine_nextLine)) (by simpa using startsAnew_nextLine) (by decide)
    (by decide +kernel)
  refine ⟨hbody.trans ?_, herrors.trans ?_, by decide +kernel, by decide +kernel⟩
  · simp only [List.flatMap_cons, List.flatMap_nil, List.append_nil]
  · simp only [List.flatMap_cons, List.flatMap_nil, List.append_nil]

/-- Without the line break that ends it, an error at the end of a line is told at another place: there
the end of input is met instead of a line break. -/
theorem errors_cutLine_ne :
    (Parse.IsLine cutLine ∧ Parse.IsLine nextLine ∧ StartsAnew nextLine ∧
      (∀ t ∈ cutLine, ∀ u ∈ nextLine, t.pos.line ≠ u.pos.line) ∧
      ((ofTokens cutLine).errors ++ (ofTokens nextLine).errors).length < maxParseErrors) ∧
    (ofTokens (cutLine ++ [.newline ⟨"f", 1, 4, 3⟩] ++ nextLine)).errors ≠
      (ofTokens cutLine).errors ++ (ofTokens nextLine).errors := by
  have hcolumns : (ofTokens (cutLine ++ [Token.newline ⟨"f", 1, 4, 3⟩] ++ nextLine)).errors.map (·.pos.column) ≠
      ((ofTokens cutLine).errors ++ (ofTokens nextLine).errors).map (·.pos.column) := by
    decide +kernel
  refine ⟨⟨isLine_cutLine, isLine_nextLine, startsAnew_nextLine, by decide, by decide +kernel⟩, fun h => ?_⟩
  exact hcolumns (congrArg (List.map fun e : ParseError => e.pos.column) h)

end Program

end Frontend
