import Frontend.Proofs.Parse.Items
import Mathlib.Data.List.TakeWhile

/-!
# Rules stay on their line

In a line whose brackets are properly nested, a rule never reads the line break at the end: brackets
that are still open are closed in front of it, and behind an error reading goes on in front of a closing
bracket that some open bracket is waiting for. What is left of the line is told by the closing brackets
in it that have no opening bracket there.
-/

namespace Frontend

variable {line : List Token} {level : Nat} {token opener : Token} {k : TokenKind}

/-- Tokens whose brackets are properly nested. -/
inductive WellNested : List Token → Prop where
  | nil : WellNested []
  | token {t : Token} {rest : List Token} (hopening : ∀ b, t.kind ≠ .opening b)
      (hclosing : ∀ b, t.kind ≠ .closing b) (h : WellNested rest) : WellNested (t :: rest)
  | bracket {opener closer : Token} {inside rest : List Token} {b : Bracket}
      (hopener : opener.kind = .opening b) (hinside : WellNested inside)
      (hcloser : closer.kind = .closing b) (h : WellNested rest) :
      WellNested (opener :: inside ++ closer :: rest)

/-- The closing brackets whose opening brackets are not among the tokens, if all opening brackets among
them are closed by their own kind. -/
def unmatched : List Token → Option (List Bracket)
  | [] => some []
  | t :: rest =>
    match t.kind with
    | .opening b =>
      match unmatched rest with
      | some (closing :: more) => if closing = b then some more else none
      | _ => none
    | .closing b => (unmatched rest).map (b :: ·)
    | _ => unmatched rest

namespace Nesting

variable {t : Token} {rest tokens : List Token} {b : Bracket} {bs : List Bracket}

theorem unmatched_opening (h : t.kind = .opening b) :
    unmatched (t :: rest) = some bs ↔ unmatched rest = some (b :: bs) := by
  rw [unmatched, h]
  dsimp only
  cases unmatched rest with
  | none => simp
  | some brackets =>
    cases brackets with
    | nil => simp
    | cons closing more =>
      dsimp only
      by_cases hb : closing = b
      · simp [hb]
      · simp [hb]

theorem unmatched_closing (h : t.kind = .closing b) : unmatched (t :: rest) = (unmatched rest).map (b :: ·) := by
  rw [unmatched, h]

theorem unmatched_other (hopening : ∀ b, t.kind ≠ .opening b) (hclosing : ∀ b, t.kind ≠ .closing b) :
    unmatched (t :: rest) = unmatched rest := by
  rw [unmatched]
  split
  next h => exact absurd h (hopening _)
  next h => exact absurd h (hclosing _)
  · rfl

theorem unmatched_plain (h : t.kind.plain = true) : unmatched (t :: rest) = unmatched rest := by
  refine unmatched_other (fun b he => ?_) fun b he => ?_
  all_goals
    rw [he] at h
    cases h

/-- Properly nested tokens leave no bracket open and close none. -/
theorem unmatched_append (h : WellNested tokens) (more : List Token) :
    unmatched (tokens ++ more) = unmatched more := by
  induction h generalizing more with
  | nil => rfl
  | token hopening hclosing _ ih => rw [List.cons_append, unmatched_other hopening hclosing, ih]
  | @bracket opener closer inside rest b hopener hinside hcloser _ ihInside ih =>
    have hinside' : unmatched (inside ++ closer :: rest ++ more) = (unmatched more).map (b :: ·) := by
      rw [List.append_assoc, ihInside, List.cons_append, unmatched_closing hcloser, ih]
    rw [List.cons_append, List.cons_append, unmatched, hopener]
    dsimp only
    rw [hinside']
    cases unmatched more with
    | none => rfl
    | some bs => simp

end Nesting

namespace Parse

open Nesting

/-- Tokens of a line: among them there is no line break and no end of input. -/
def OneLine (tokens : List Token) : Prop := ∀ t ∈ tokens, t.kind ≠ .newline ∧ t.kind ≠ .eof

theorem OneLine.tail {t : Token} {rest : List Token} (h : OneLine (t :: rest)) : OneLine rest :=
  fun u hu => h u (List.mem_cons_of_mem _ hu)

/-- What stands behind a line: a line break, or nothing. -/
def LineEnd (tokens : List Token) : Prop := ∀ t ∈ tokens, t.kind = .newline

theorem lineEnd_nil : LineEnd [] := fun _ ht => absurd ht List.not_mem_nil

theorem unmatched_lineEnd {tail : List Token} (htail : LineEnd tail) (line : List Token) :
    unmatched (line ++ tail) = unmatched line := by
  induction line with
  | nil =>
    induction tail with
    | nil => rfl
    | cons t tail ih =>
      have ht := htail t List.mem_cons_self
      rw [List.nil_append, unmatched_other (by simp [ht]) (by simp [ht])]
      exact ih fun u hu => htail u (List.mem_cons_of_mem _ hu)
  | cons t line ih => rw [List.cons_append, unmatched, unmatched, ih]

theorem pastNewlines_lineEnd {tail : List Token} (htail : LineEnd tail) : pastNewlines tail = [] :=
  List.dropWhile_eq_nil_iff.mpr fun t ht => beq_iff_eq.mpr (htail t ht)

theorem resumeAt_lineEnd {tail : List Token} (htail : LineEnd tail) (closer : Option Bracket) :
    resumeAt closer 0 tail = tail := by
  cases tail with
  | nil => rfl
  | cons t rest =>
    unfold resumeAt
    simp [htail t List.mem_cons_self]

/-- Outside of brackets, reading goes on at the end of the line: the brackets that are open there are
closed in front of it. -/
theorem resumeAt_none {tail : List Token} (hline : OneLine line) (htail : LineEnd tail) {bs : List Bracket}
    (h : unmatched line = some bs) (hlevel : level ≤ bs.length) : resumeAt none level (line ++ tail) = tail := by
  induction line generalizing bs level with
  | nil =>
    cases h
    cases Nat.le_zero.mp hlevel
    exact resumeAt_lineEnd htail none
  | cons t line ih =>
    rw [List.cons_append, resumeAt]
    split
    next b hk => exact ih hline.tail ((unmatched_opening hk).mp h) (Nat.succ_le_succ hlevel)
    next b hk =>
      rw [unmatched_closing hk] at h
      obtain ⟨more, hmore, rfl⟩ := Option.map_eq_some_iff.mp h
      cases level with
      | zero => exact ih hline.tail hmore (Nat.zero_le _)
      | succ level => exact ih hline.tail hmore (Nat.le_of_succ_le_succ hlevel)
    next hk => exact absurd hk (hline t List.mem_cons_self).1
    next hopening hclosing _ =>
      rw [unmatched_other hopening hclosing] at h
      exact ih hline.tail h hlevel

/-- Inside of brackets, reading goes on in front of a closing bracket of the given kind, if one is
waited for. The brackets waited for behind it are still there. -/
theorem resumeAt_some {tail : List Token} (hline : OneLine line) {b : Bracket} {bs waiting : List Bracket}
    (h : unmatched line = some bs) (hwaiting : b :: waiting <:+ bs.drop level) :
    ∃ line' bs', resumeAt (some b) level (line ++ tail) = line' ++ tail ∧ line' <:+ line ∧
      unmatched line' = some bs' ∧ b :: waiting <:+ bs' := by
  induction line generalizing bs level with
  | nil =>
    cases h
    simp at hwaiting
  | cons t line ih =>
    -- the place to go on at lies further behind
    have later : ∀ {bs level}, unmatched line = some bs → b :: waiting <:+ bs.drop level →
        ∃ line' bs', resumeAt (some b) level (line ++ tail) = line' ++ tail ∧ line' <:+ t :: line ∧
          unmatched line' = some bs' ∧ b :: waiting <:+ bs' := by
      intro bs level h hwaiting
      obtain ⟨line', bs', hresume, hsuffix, h'⟩ := ih hline.tail h hwaiting
      exact ⟨line', bs', hresume, hsuffix.trans (List.suffix_cons t line), h'⟩
    rw [List.cons_append, resumeAt]
    split
    next c hk => exact later ((unmatched_opening hk).mp h) hwaiting
    next c hk =>
      have h' := h
      rw [unmatched_closing hk] at h'
      obtain ⟨more, hmore, rfl⟩ := Option.map_eq_some_iff.mp h'
      cases level with
      | zero =>
        rw [if_pos rfl]
        by_cases hc : some b = some c
        · rw [if_pos hc]
          exact ⟨t :: line, c :: more, rfl, List.suffix_refl _, h, hwaiting⟩
        · rw [if_neg hc]
          refine later hmore ?_
          rcases List.suffix_cons_iff.mp hwaiting with heq | hmoreWaiting
          · exact absurd (congrArg some (List.cons_eq_cons.mp heq).1) hc
          · exact hmoreWaiting
      | succ level => exact later hmore hwaiting
    next hk => exact absurd hk (hline t List.mem_cons_self).1
    next hopening hclosing _ =>
      rw [unmatched_other hopening hclosing] at h
      exact later h hwaiting

/-! ## The discipline of a line -/

def waiting (tokens : List Token) : List Bracket := (unmatched tokens).getD []

theorem waiting_eq {tokens : List Token} {bs : List Bracket} (h : unmatched tokens = some bs) :
    waiting tokens = bs := by
  rw [waiting, h, Option.getD_some]

/-- A state on a line that ends with `tail` and whose tokens stand in the given rows. Inside of brackets
a closing one is waited for. -/
structure OnLine (tail : List Token) (rows : Int → Prop) (s : ParseState) : Prop where
  line : ∃ line, s.rest = line ++ tail ∧ OneLine line ∧ ∀ t ∈ line, t.Classified ∧ rows t.pos.line
  nested : unmatched s.rest = some (waiting s.rest)
  inside : 0 < s.depth → waiting s.rest ≠ []
  eof : s.last.kind = .eof
  last : rows s.last.pos.line
  stopped : s.stopped = true → maxParseErrors ≤ s.errors.length

/-- What is waited for in front of a rule is still waited for behind it, and errors are told on the
line. -/
structure KeepsToLine (rows : Int → Prop) (s t : ParseState) : Prop where
  waiting : waiting s.rest <:+ waiting t.rest
  errors : ∀ e ∈ t.errors, e ∈ s.errors ∨ rows e.pos.line

section
variable {tail : List Token} {rows : Int → Prop} {s t u : ParseState}

theorem KeepsToLine.refl (s : ParseState) : KeepsToLine rows s s := ⟨List.suffix_refl _, fun _ h => .inl h⟩

theorem KeepsToLine.trans (h : KeepsToLine rows s t) (h' : KeepsToLine rows t u) : KeepsToLine rows s u := by
  refine ⟨h.waiting.trans h'.waiting, fun e he => ?_⟩
  rcases h'.errors e he with he | he
  · exact h.errors e he
  · exact .inr he

/-- The state behind a token of the line. -/
theorem OnLine.tokens (hs : OnLine tail rows s) (htail : LineEnd tail) {rest : List Token}
    (hrest : s.rest = token :: rest) (hk : token.kind ≠ .newline) :
    token.Classified ∧ rows token.pos.line ∧
      ∃ line, rest = line ++ tail ∧ OneLine line ∧ ∀ t ∈ line, t.Classified ∧ rows t.pos.line := by
  obtain ⟨line, hline, hone, htokens⟩ := hs.line
  cases line with
  | nil =>
    rw [hrest, List.nil_append] at hline
    exact absurd (htail token (hline ▸ List.mem_cons_self)) hk
  | cons first line =>
    rw [hrest, List.cons_append] at hline
    cases hline
    obtain ⟨hclassified, hrow⟩ := htokens token List.mem_cons_self
    exact ⟨hclassified, hrow, line, rfl, hone.tail, fun t ht => htokens t (List.mem_cons_of_mem _ ht)⟩

theorem OnLine.next (hs : OnLine tail rows s) (hrows : ∀ t ∈ tail, rows t.pos.line) : rows s.next.pos.line := by
  obtain ⟨line, hline, -, htokens⟩ := hs.line
  unfold ParseState.next
  cases hrest : s.rest with
  | nil => exact hs.last
  | cons token rest =>
    have hmem : token ∈ line ++ tail := hline ▸ hrest ▸ List.mem_cons_self
    rcases List.mem_append.mp hmem with hmem | hmem
    · exact (htokens token hmem).2
    · exact hrows token hmem

/-- On a line there are no line breaks to pass over. -/
theorem OnLine.skip (hs : OnLine tail rows s) (htail : LineEnd tail)
    (h : 0 < s.depth ∨ pastNewlines s.rest ≠ []) : pastNewlines s.rest = s.rest := by
  obtain ⟨line, hline, hone, -⟩ := hs.line
  cases line with
  | nil =>
    rw [List.nil_append] at hline
    rcases h with h | h
    · refine absurd (waiting_eq ?_) (hs.inside h)
      rw [hline]
      exact unmatched_lineEnd htail []
    · refine absurd ?_ h
      rw [hline, pastNewlines_lineEnd htail]
  | cons first line =>
    have hfirst := (hone first List.mem_cons_self).1
    simp [hline, pastNewlines, hfirst]

theorem ne_of_plain (h : k.plain = true) : k ≠ .newline ∧ k ≠ .eof := by
  constructor <;>
  · intro he
    rw [he] at h
    cases h

theorem OnLine.pass (hs : OnLine tail rows s) (htail : LineEnd tail) {rest : List Token}
    (hrest : s.rest = token :: rest) (hk : token.kind.plain = true) :
    OnLine tail rows { s with rest } ∧ KeepsToLine rows s { s with rest } := by
  have hnested := hs.nested
  rw [hrest, unmatched_plain hk] at hnested
  have hsame : waiting rest = waiting s.rest := by rw [waiting_eq hnested, hrest]
  obtain ⟨-, -, hline⟩ := hs.tokens htail hrest (ne_of_plain hk).1
  refine ⟨⟨hline, ?_, ?_, hs.eof, hs.last, hs.stopped⟩, ?_, fun _ h => .inl h⟩
  · rw [hnested, hsame, hrest]
  · rw [hsame]
    exact hs.inside
  · exact hsame ▸ List.suffix_refl _

theorem plain_of_isNumeric (h : k.isNumeric = true) : k.plain = true := by
  cases k <;> first | rfl | cases h

section
variable (hs : OnLine tail rows s)
include hs

theorem OnLine.split (htail : LineEnd tail) :
    OnLine tail rows { s with rest := splitFirst s.rest } ∧
      KeepsToLine rows s { s with rest := splitFirst s.rest } := by
  rcases splitFirst_cases s.rest with hsame | ⟨token, rest, hrest, hnegative, hsplit⟩
  · rw [hsame]
    exact ⟨hs, .refl s⟩
  have hplain := plain_of_isNumeric (Token.isNumeric_of_isNegativeNumber hnegative).1
  obtain ⟨hclassified, hrow, line, hline, hone, htokens⟩ := hs.tokens htail hrest (ne_of_plain hplain).1
  obtain ⟨hnumeric, hpositive⟩ := Token.isNumeric_unsigned hclassified hnegative
  have hminus : token.splitNegative.1.kind.plain = true := by
    rw [Token.kind_minus]
    rfl
  have hnumber := plain_of_isNumeric hnumeric
  have hnested : unmatched (splitFirst s.rest) = unmatched s.rest := by
    rw [hsplit, hrest, unmatched_plain hminus, unmatched_plain hnumber, unmatched_plain hplain]
  have hsame : waiting (splitFirst s.rest) = waiting s.rest := by rw [waiting, waiting, hnested]
  refine ⟨⟨?_, ?_, ?_, hs.eof, hs.last, hs.stopped⟩, ?_, fun _ h => .inl h⟩
  · refine ⟨token.splitNegative.1 :: token.splitNegative.2 :: line, by rw [hsplit, hline]; rfl, ?_, ?_⟩
    · intro t ht
      rcases List.mem_cons.mp ht with rfl | ht
      · exact ne_of_plain hminus
      · rcases List.mem_cons.mp ht with rfl | ht
        · exact ne_of_plain hnumber
        · exact hone t ht
    · intro t ht
      rcases List.mem_cons.mp ht with rfl | ht
      · exact ⟨fun h => by simp [Token.isNegativeNumber, Token.kind_minus] at h, hrow⟩
      · rcases List.mem_cons.mp ht with rfl | ht
        · exact ⟨fun h => by simp [hpositive] at h, hrow⟩
        · exact htokens t ht
  · rw [hnested, hsame]
    exact hs.nested
  · rw [hsame]
    exact hs.inside
  · exact hsame ▸ List.suffix_refl _

/-- An error on the line is written down; the parse only stops when there are too many. -/
theorem OnLine.report {e : ParseError} (he : rows e.pos.line) :
    OnLine tail rows (afterReport e s) ∧ KeepsToLine rows s (afterReport e s) := by
  unfold afterReport
  split
  · exact ⟨hs, .refl s⟩
  have hnew : ∀ x ∈ (reported s.errors e).1, x ∈ s.errors ∨ rows x.pos.line := by
    unfold reported
    intro x hx
    split at hx
    · exact .inl hx
    split at hx
    · rcases List.mem_cons.mp hx with rfl | hx
      · exact .inr he
      · exact .inl hx
    · rcases List.mem_cons.mp hx with rfl | hx
      · exact .inr he
      · rcases List.mem_cons.mp hx with rfl | hx
        · exact .inr he
        · exact .inl hx
  have hstop : (reported s.errors e).2 = true → maxParseErrors ≤ (reported s.errors e).1.length := by
    unfold reported
    split
    · exact nofun
    split
    · exact nofun
    next hcount =>
      intro _
      simp only [List.length_cons]
      omega
  exact ⟨⟨hs.line, hs.nested, hs.inside, hs.eof, hs.last, hstop⟩, List.suffix_refl _, hnew⟩

/-- Behind an opening bracket, its closing bracket is waited for. -/
theorem OnLine.openUp (htail : LineEnd tail) {rest : List Token} {b : Bracket} (hrest : s.rest = opener :: rest)
    (hk : opener.kind = .opening b) (depth : Nat) (inClass : Bool) :
    OnLine tail rows { s with rest, depth, inClass } ∧
      waiting rest = b :: waiting s.rest := by
  have hnested := hs.nested
  rw [hrest, unmatched_opening hk] at hnested
  have hwaiting : waiting rest = b :: waiting s.rest := by
    rw [waiting_eq hnested, hrest]
  refine ⟨⟨(hs.tokens htail hrest (by simp [hk])).2.2, ?_, ?_, hs.eof, hs.last, hs.stopped⟩, hwaiting⟩
  · rw [hnested, hwaiting, hrest]
  · intro _
    rw [hwaiting]
    exact nofun

theorem OnLine.close (htail : LineEnd tail) {closer : Token} {rest rest' : List Token} {b : Bracket}
    (hrest : s.rest = opener :: rest) (hk : opener.kind = .opening b) (ht : OnLine tail rows t)
    (hdoes : waiting rest <:+ waiting t.rest) (herrors : ∀ e ∈ t.errors, e ∈ s.errors ∨ rows e.pos.line)
    (hclose : pastNewlines t.rest = closer :: rest') (hcloser : closer.kind = .closing b) :
    OnLine tail rows { t with rest := rest', depth := s.depth, inClass := s.inClass } ∧
      KeepsToLine rows s { t with rest := rest', depth := s.depth, inClass := s.inClass } := by
  have hopened := (hs.openUp htail hrest hk 0 false).2
  rw [ht.skip htail (.inr (by simp [hclose]))] at hclose
  obtain ⟨-, -, hline⟩ := ht.tokens htail hclose (by simp [hcloser])
  have hnested := ht.nested
  rw [hclose, unmatched_closing hcloser] at hnested
  obtain ⟨bs, hbs, hwaiting⟩ := Option.map_eq_some_iff.mp hnested
  have hstill : waiting s.rest <:+ waiting rest' := by
    rw [hclose, ← hwaiting, hopened] at hdoes
    rw [waiting_eq hbs]
    rcases List.suffix_cons_iff.mp hdoes with heq | hsuffix
    · exact (List.cons_eq_cons.mp heq).2 ▸ List.suffix_refl _
    · exact (List.suffix_cons _ _).trans hsuffix
  refine ⟨⟨hline, ?_, fun hdepth he => hs.inside hdepth ?_, ht.eof, ht.last, ht.stopped⟩, hstill, herrors⟩
  · rw [hbs, waiting_eq hbs]
  · rw [he] at hstill
    exact List.suffix_nil.mp hstill

end

/-- Behind an error inside of a bracket, its closing bracket is still waited for. -/
theorem OnLine.resume (ht : OnLine tail rows t) (htail : LineEnd tail) {b : Bracket}
    {before : List Bracket} (hbefore : b :: before <:+ waiting t.rest) :
    OnLine tail rows { t with rest := resumeAt (some b) 0 t.rest } ∧
      b :: before <:+ waiting (resumeAt (some b) 0 t.rest) := by
  obtain ⟨line, hline, hone, htokens⟩ := ht.line
  have hnested := ht.nested
  rw [hline, unmatched_lineEnd htail] at hnested
  rw [hline, waiting, unmatched_lineEnd htail, hnested, Option.getD_some] at hbefore
  obtain ⟨line', bs', hresume, hsuffix, hbs', hstill⟩ :
      ∃ line' bs', resumeAt (some b) 0 (line ++ tail) = line' ++ tail ∧ line' <:+ line ∧
        unmatched line' = some bs' ∧ b :: before <:+ bs' := resumeAt_some hone hnested hbefore
  have hunmatched : unmatched (resumeAt (some b) 0 t.rest) = some bs' := by
    rw [hline, hresume, unmatched_lineEnd htail, hbs']
  rw [waiting_eq hunmatched]
  refine ⟨⟨⟨line', by rw [hline, hresume], ?_, ?_⟩, ?_, ?_, ht.eof, ht.last, ht.stopped⟩, hstill⟩
  · exact fun x hx => hone x (hsuffix.subset hx)
  · exact fun x hx => htokens x (hsuffix.subset hx)
  · rw [hunmatched, waiting_eq hunmatched]
  · intro _ he
    rw [waiting_eq hunmatched] at he
    rw [he] at hstill
    exact absurd (List.suffix_nil.mp hstill) nofun

/-- The rules of the grammar stay on their line. -/
def onLine {tail : List Token} (htail : LineEnd tail) {rows : Int → Prop}
    (hrows : ∀ t ∈ tail, rows t.pos.line) : Discipline where
  Inv := OnLine tail rows
  Place := fun p => rows p.line
  Does := fun _ s _ t => KeepsToLine rows s t
  Opened := fun b s => ∃ bs, waiting s.rest = b :: bs
  eof := OnLine.eof
  next := fun hs => hs.next hrows
  stay := KeepsToLine.refl
  weaken := id
  trans := KeepsToLine.trans
  stuck := fun h _ => h
  pass := fun hs hrest hk => hs.pass htail hrest hk
  report := fun hs he => hs.report he
  split := fun hs => hs.split htail
  calm := fun hs => ⟨⟨hs.line, hs.nested, hs.inside, hs.eof, hs.last, hs.stopped⟩,
    List.suffix_refl _, fun _ h => .inl h⟩
  skip := fun hs h => by
    rw [hs.skip htail h]
    exact ⟨hs, fun _ _ hdoes => hdoes⟩
  openUp := fun depth inClass hs hrest hk =>
    ⟨(hs.openUp htail hrest hk depth inClass).1, _, (hs.openUp htail hrest hk depth inClass).2⟩
  close := fun hs hrest hk ht hdoes hclose hcloser =>
    hs.close htail hrest hk ht hdoes.waiting hdoes.errors hclose hcloser
  abandon := fun {s opener rest b depth inClass _ t} hs hrest hk ht hdoes => by
    have hopened := (hs.openUp htail hrest hk depth inClass).2
    have hstill : waiting s.rest <:+ waiting t.rest := by
      have hwaiting : waiting rest <:+ waiting t.rest := hdoes.waiting
      rw [hopened] at hwaiting
      exact (List.suffix_cons _ _).trans hwaiting
    refine ⟨⟨ht.line, ht.nested, fun hdepth he => hs.inside hdepth ?_, ht.eof, ht.last, ht.stopped⟩,
      hstill, hdoes.errors⟩
    rw [he] at hstill
    exact List.suffix_nil.mp hstill
  resume := fun {s b _ t} hopened ht hdoes => by
    obtain ⟨bs, hbs⟩ := hopened
    obtain ⟨hinv, hstill⟩ := ht.resume htail (hbs ▸ hdoes.waiting)
    rw [← hbs] at hstill
    exact ⟨hinv, ⟨hstill, hdoes.errors⟩, hstill, hdoes.errors⟩

theorem OnLine.synchronize (hs : OnLine tail rows s) (htail : LineEnd tail) : resumeAt none 0 s.rest = tail := by
  obtain ⟨line, hline, hone, -⟩ := hs.line
  have hnested := hs.nested
  rw [hline, unmatched_lineEnd htail] at hnested
  rw [hline]
  exact resumeAt_none hone htail hnested (Nat.zero_le _)

/-- An item takes up its whole line, whatever is wrong with it. -/
theorem OnLine.item (hs : OnLine tail rows s) (htail : LineEnd tail)
    (hrows : ∀ t ∈ tail, rows t.pos.line) {ns : List Node} (hitem : Parse.item s = (some ns, t)) :
    t.rest = tail ∧ (∀ e ∈ t.errors, e ∈ s.errors ∨ rows e.pos.line) ∧
      (t.stopped = true → maxParseErrors ≤ t.errors.length) := by
  have o := (onLine htail hrows).eats_expression maxExpressionDepth Binding.lowest s hs
  unfold Parse.item at hitem
  rw [attempt_bind] at hitem
  generalize expression maxExpressionDepth Binding.lowest s = r at o hitem
  obtain ⟨n?, v⟩ := r
  have hv : OnLine tail rows v := o.inv
  cases n? with
  | none =>
    have hdoes : KeepsToLine rows s v := o.failed rfl
    cases hitem
    exact ⟨hv.synchronize htail, hdoes.errors, hv.stopped⟩
  | some n =>
    have hdoes : KeepsToLine rows s v := (o.done n rfl).1
    dsimp only at hitem
    rw [peek_bind] at hitem
    split at hitem
    · rw [reportUnexpected, reportToken, reportAt_eq, change_bind] at hitem
      cases hitem
      obtain ⟨hinv, hreport⟩ := hv.report (e := ⟨.unexpectedToken, v.next.pos,
        if v.next.columns < 1 then 1 else v.next.columns,
        .entry .unexpectedTokenType [.text v.next.describe, .text "newline"]⟩) (hv.next hrows)
      exact ⟨hinv.synchronize htail, (hdoes.trans hreport).errors, hinv.stopped⟩
    next hend =>
      cases hitem
      refine ⟨?_, hdoes.errors, hv.stopped⟩
      obtain ⟨line, hline, hone, -⟩ := hv.line
      cases line with
      | nil => exact hline
      | cons first line =>
        have hnext : t.next = first := by simp [ParseState.next, hline]
        obtain ⟨hnewline, heof⟩ := hone first List.mem_cons_self
        rw [hnext] at hend
        simp [hnewline, heof] at hend

end

end Parse

end Frontend
