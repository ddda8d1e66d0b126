import Mathlib.Data.List.Chain
import Mathlib.Data.List.Induction
import Frontend.Proofs.Token.Place
import Frontend.Proofs.Token.Span

/-!
# Positions and line breaks

The position of a token counts the newlines, the letters and the bytes in front of it. Line breaks are
made where a line ends behind a token: there is none at the beginning, never two in a row, and one in
front of the end of input. Between two tokens there is one if and only if a line ends between them.
-/

namespace Frontend

/-- A position that counts what stands in front of it: its bytes, the newline bytes among them, and the
letters behind the last newline. -/
structure Position.Faithful (pos : Position) (bytes : List UInt8) (front : Source) : Prop where
  offset : pos.offset = front.byteSize
  line : pos.line = 1 + (bytes.take front.byteSize).count 10
  column : pos.column = 1 + (front.reverse.takeWhile (· ≠ .char '\n')).length

/-- What stands between two tokens: the bytes of blanks, separators and comments. -/
structure StandsApart (bytes : List UInt8) (t u : Token) (gap : Pieces) : Prop where
  bytes : ∃ start stop next : Nat, t.StandsFor bytes start stop ∧
    StandsBetween bytes gap.source.bytes stop next ∧ u.pos.offset = next
  wellFormed : ∀ p ∈ gap, p.WellFormed
  notWritten : ∀ p ∈ gap, p.isWritten = false

namespace Position

theorem behind_concat (p : Position) (src : Source) (l : Letter) :
    p.behind (src ++ [l]) = (p.behind src).after l := p.behind_append src [l]

theorem line_behind (p : Position) (src : Source) : (p.behind src).line = p.line + src.count (.char '\n') := by
  induction src generalizing p with
  | nil => simp [behind]
  | cons l src ih =>
    have hstep : p.behind (l :: src) = (p.after l).behind src := rfl
    rw [hstep, ih, List.count_cons]
    unfold after Letter.is
    split
    · simp only
      omega
    · simp only
      omega

/-- The column starts over behind each newline. -/
theorem column_behind {p : Position} (hp : p.column = 1) (src : Source) :
    (p.behind src).column = 1 + (src.reverse.takeWhile (· ≠ .char '\n')).length := by
  induction src using List.reverseRecOn with
  | nil => simpa [behind] using hp
  | append_singleton src l ih =>
    rw [behind_concat, List.reverse_append, List.reverse_singleton, List.singleton_append]
    by_cases hl : l = .char '\n'
    · subst hl
      rfl
    · have hafter : ((p.behind src).after l).column = (p.behind src).column + 1 := by
        rw [after, Letter.is, if_neg (by simpa using hl)]
      rw [hafter, ih, List.takeWhile_cons_of_pos (by simpa using hl), List.length_cons]
      omega

/-- A position reached from the beginning of a text counts right. -/
theorem faithful_behind {bytes : List UInt8} {file : String} {front back : Source}
    (h : Source.ofBytes bytes = front ++ back) :
    Faithful ((Scanner.start file).place.behind front) bytes front := by
  refine ⟨?_, ?_, column_behind rfl front⟩
  · rw [offset_behind]
    exact Int.zero_add _
  · have hfront : bytes.take front.byteSize = front.bytes := by
      conv_lhs => rw [← Source.bytes_ofBytes bytes, h, Source.bytes_append, ← Source.length_bytes]
      exact List.take_left
    have hstray : ∀ b, .stray b ∈ front → 128 ≤ b.toNat := by
      intro b hb
      have hmem : .stray b ∈ Source.ofBytes bytes := h ▸ List.mem_append_left back hb
      exact Source.le_of_stray_mem hmem
    rw [line_behind, hfront, Source.count_newline_bytes hstray]
    rfl

end Position

/-- What a piece does to the tokens in front of it, last first: nothing, or it ends their line, or it is
the next one. -/
inductive Piece.Extends (p : Piece) (pos : Position) (made : List Token) : List Token → Prop where
  | same (hwritten : p.isWritten = false)
      (hline : p.breaksLine = true → ∀ t ∈ made.head?, t.kind = .newline) : Extends p pos made made
  | line {front back : Source} (hwritten : p.isWritten = false) (hline : p.breaksLine = true)
      (hsource : p.source = front ++ back) (hback : back ≠ []) (hmade : made ≠ [])
      (hlast : ∀ t ∈ made.head?, t.kind ≠ .newline) :
      Extends p pos made (.newline (pos.behind front) :: made)
  | token {t : Token} (hwritten : p.isWritten = true) (ht : t.isWritten = true) (hpos : t.pos = pos) :
      Extends p pos made (t :: made)

namespace Piece

/-- A line break is added behind a token that is none. -/
theorem broken_cases (pos : Position) (made : List Token) :
    (broken pos made = made ∧ ∀ t ∈ made.head?, t.kind = .newline) ∨
    (broken pos made = .newline pos :: made ∧ made ≠ [] ∧ ∀ t ∈ made.head?, t.kind ≠ .newline) := by
  cases made with
  | nil => exact .inl ⟨rfl, fun t ht => by cases ht⟩
  | cons t made =>
    rw [broken]
    split
    next hnewline => exact .inl ⟨rfl, fun u hu => by cases hu; exact eq_of_beq hnewline⟩
    next hother => exact .inr ⟨rfl, List.cons_ne_nil t made, fun u hu => by cases hu; simpa using hother⟩

theorem extends_broken (front : Source) {p : Piece} {pos : Position} {made : List Token} {back : Source}
    (hwritten : p.isWritten = false) (hline : p.breaksLine = true) (hsource : p.source = front ++ back)
    (hback : back ≠ []) : p.Extends pos made (broken (pos.behind front) made) := by
  rcases broken_cases (pos.behind front) made with ⟨he, hlast⟩ | ⟨he, hmade, hlast⟩
  · rw [he]
    exact .same hwritten fun _ => hlast
  · rw [he]
    exact .line hwritten hline hsource hback hmade hlast

theorem extends_extend {p : Piece} (hp : p.WellFormed) (pos : Position) (made : List Token) :
    p.Extends pos made (p.extend pos made) := by
  cases p with
  | blank | blockComment => exact .same rfl fun h => by cases h
  | separator c => exact extends_broken [] rfl rfl rfl (List.cons_ne_nil _ _)
  | lineComment body => exact extends_broken _ rfl rfl rfl (List.cons_ne_nil _ _)
  | lexeme | quoted =>
    obtain ⟨t, ht, hpos, hwritten, -⟩ := exists_extend hp rfl pos made
    rw [ht]
    exact .token rfl hwritten hpos

end Piece

namespace Pieces

variable {file : String} {done before : Pieces} {p : Piece} {t u : Token}
  {mid older newer : List Token}

theorem place_eq (file : String) (done : Pieces) :
    done.place file = (Scanner.start file).place.behind done.source := by
  induction done with
  | nil => rfl
  | cons p before ih => rw [place, source, Position.behind_append, ih]

/-- What the last piece does to the tokens. -/
theorem extends_tokens (file : String) (hwell : ∀ q ∈ p :: before, q.WellFormed) :
    p.Extends (place file before) (tokens file before) (tokens file (p :: before)) :=
  Piece.extends_extend (hwell p List.mem_cons_self) _ _

section
variable (hwell : ∀ p ∈ done, p.WellFormed) (ht : t ∈ done.tokens file)
include hwell ht

/-- Every token is at the position of a letter of its piece. -/
theorem exists_letter :
    ∃ front back, done.source = front ++ back ∧ back ≠ [] ∧ t.pos = (Scanner.start file).place.behind front := by
  induction done with
  | nil => cases ht
  | cons p before ih =>
    have hp := hwell p List.mem_cons_self
    have older : t ∈ tokens file before → ∃ front back, source (p :: before) = front ++ back ∧
        back ≠ [] ∧ t.pos = (Scanner.start file).place.behind front := by
      intro hmem
      obtain ⟨front, back, hsource, hback, hpos⟩ := ih (fun q hq => hwell q (List.mem_cons_of_mem p hq)) hmem
      refine ⟨front, back ++ p.source, ?_, by simp [hback], hpos⟩
      rw [source, hsource, List.append_assoc]
    have hextends := extends_tokens file hwell
    generalize tokens file (p :: before) = made at ht hextends
    cases hextends with
    | same => exact older ht
    | @line front back _ _ hsource hback =>
      rcases List.mem_cons.mp ht with rfl | ht
      · refine ⟨source before ++ front, back, ?_, hback, ?_⟩
        · rw [source, hsource, List.append_assoc]
        · rw [Position.behind_append, ← place_eq]
          rfl
      · exact older ht
    | token _ _ hpos =>
      rcases List.mem_cons.mp ht with rfl | ht
      · refine ⟨source before, p.source, rfl, ?_, by rw [hpos, place_eq]⟩
        intro he
        exact absurd (Piece.byteSize_pos hp) (by simp [he])
      · exact older ht

theorem offset_lt : t.pos.offset < done.source.byteSize := by
  obtain ⟨front, back, hsource, hback, hpos⟩ := exists_letter hwell ht
  cases back with
  | nil => exact absurd rfl hback
  | cons l back =>
    have hzero : (Scanner.start file).place.offset = 0 := rfl
    have hwidth := l.width_pos
    rw [hpos, Position.offset_behind, hzero, hsource, Source.byteSize_append, Source.byteSize_cons]
    omega

end

/-- Each token stands behind those made before it. -/
theorem pairwise_tokens (file : String) (hwell : ∀ p ∈ done, p.WellFormed) :
    (done.tokens file).Pairwise fun u t => t.pos.offset < u.pos.offset := by
  induction done with
  | nil => exact .nil
  | cons p before ih =>
    have hbefore : ∀ q ∈ before, q.WellFormed := fun q hq => hwell q (List.mem_cons_of_mem p hq)
    have hextends := extends_tokens file hwell
    generalize tokens file (p :: before) = made at hextends ⊢
    cases hextends with
    | same => exact ih hbefore
    | line =>
      refine .cons (fun t ht => ?_) (ih hbefore)
      have hlt := offset_lt hbefore ht
      change t.pos.offset < ((place file before).behind _).offset
      rw [Position.offset_behind, offset_place]
      omega
    | token _ _ hpos =>
      refine .cons (fun t ht => ?_) (ih hbefore)
      rw [hpos, offset_place]
      exact offset_lt hbefore ht

theorem isWritten_of_newline (h : t.kind = .newline) : t.isWritten = false := by
  rw [Token.isWritten, h]
  rfl

/-- Line breaks are never next to each other. -/
theorem isChain_tokens (hwell : ∀ p ∈ done, p.WellFormed) :
    (done.tokens file).IsChain fun u t => ¬ (u.kind = .newline ∧ t.kind = .newline) := by
  induction done with
  | nil => exact .nil
  | cons p before ih =>
    have hbefore := ih fun q hq => hwell q (List.mem_cons_of_mem p hq)
    have hextends := extends_tokens file hwell
    generalize tokens file (p :: before) = made at hextends ⊢
    cases hextends with
    | same => exact hbefore
    | line _ _ _ _ _ hlast => exact hbefore.cons fun t ht h => hlast t ht h.2
    | token _ ht =>
      refine hbefore.cons fun u hu h => ?_
      simp [isWritten_of_newline h.1] at ht

/-- The tokens do not begin with a line break. -/
theorem first_tokens (file : String) (hwell : ∀ p ∈ done, p.WellFormed) :
    ∀ t ∈ (done.tokens file).getLast?, t.kind ≠ .newline := by
  induction done with
  | nil => intro t ht; cases ht
  | cons p before ih =>
    have hbefore := ih fun q hq => hwell q (List.mem_cons_of_mem p hq)
    have hextends := extends_tokens file hwell
    generalize tokens file (p :: before) = made at hextends ⊢
    cases hextends with
    | same => exact hbefore
    | line _ _ _ _ hmade =>
      rw [List.getLast?_cons_of_ne_nil hmade]
      exact hbefore
    | @token t _ ht =>
      by_cases hmade : tokens file before = []
      · rw [hmade]
        rintro u ⟨⟩ hnewline
        exact absurd ht (by rw [isWritten_of_newline (t := t) hnewline]; exact Bool.false_ne_true)
      · rw [List.getLast?_cons_of_ne_nil hmade]
        exact hbefore

/-! ## From one token to the next -/

/-- The token that comes next was made by a piece. -/
theorem exists_piece_of_token (hwell : ∀ p ∈ done, p.WellFormed) (ht : t.isWritten = true)
    (h : done.tokens file = newer ++ t :: older) : ∃ later p before, done = later ++ p :: before ∧
      p.isWritten = true ∧ p.extend (place file before) (tokens file before) = t :: older ∧
      tokens file before = older := by
  induction done generalizing newer with
  | nil => simp [tokens] at h
  | cons p before ih =>
    have inner : ∀ {newer : List Token}, tokens file before = newer ++ t :: older →
        ∃ later q front, p :: before = later ++ q :: front ∧ q.isWritten = true ∧
          q.extend (place file front) (tokens file front) = t :: older ∧ tokens file front = older := by
      intro newer hmade
      obtain ⟨later, q, front, rfl, hq⟩ := ih (fun q hq => hwell q (List.mem_cons_of_mem p hq)) hmade
      exact ⟨p :: later, q, front, rfl, hq⟩
    have hextends := extends_tokens file hwell
    rw [h] at hextends
    generalize htokens : newer ++ t :: older = made at hextends
    cases hextends with
    | same => exact inner htokens.symm
    | line =>
      cases newer with
      | nil =>
        cases htokens
        exact absurd ht (by simp [isWritten_of_newline (t := .newline _) rfl])
      | cons _ newer => exact inner (List.cons.inj htokens).2.symm
    | token hwritten =>
      cases newer with
      | nil => exact ⟨[], p, before, rfl, hwritten, h, (List.cons.inj htokens).2.symm⟩
      | cons _ newer => exact inner (List.cons.inj htokens).2.symm

/-- Behind the last token that was written, a line ends if and only if there is a line break. -/
theorem exists_gap (hwell : ∀ p ∈ done, p.WellFormed) (ht : t.isWritten = true)
    (hmid : ∀ m ∈ mid, m.kind = .newline) (h : done.tokens file = mid ++ t :: older) :
    ∃ (gap : Pieces) (p : Piece) (before : Pieces), done = gap ++ p :: before ∧ p.isWritten = true ∧
      p.extend (place file before) (tokens file before) = t :: older ∧
      (∀ q ∈ gap, q.isWritten = false) ∧ (mid ≠ [] ↔ ∃ q ∈ gap, q.breaksLine = true) := by
  induction done generalizing mid with
  | nil => simp [tokens] at h
  | cons p before ih =>
    have hnewline : t.kind ≠ .newline := fun he => by simp [isWritten_of_newline he] at ht
    have inner : ∀ {mid' : List Token}, p.isWritten = false → (∀ m ∈ mid', m.kind = .newline) →
        tokens file before = mid' ++ t :: older →
        (mid ≠ [] ↔ mid' ≠ [] ∨ p.breaksLine = true) →
        ∃ (gap : Pieces) (q : Piece) (front : Pieces), p :: before = gap ++ q :: front ∧ q.isWritten = true ∧
          q.extend (place file front) (tokens file front) = t :: older ∧
          (∀ q ∈ gap, q.isWritten = false) ∧ (mid ≠ [] ↔ ∃ q ∈ gap, q.breaksLine = true) := by
      intro mid' hwritten hmid' hmade hiff
      obtain ⟨gap, q, front, rfl, hq, hextend, hgap, hbreaks⟩ :=
        ih (fun q hq => hwell q (List.mem_cons_of_mem p hq)) hmid' hmade
      refine ⟨p :: gap, q, front, rfl, hq, hextend, List.forall_mem_cons.mpr ⟨hwritten, hgap⟩, ?_⟩
      rw [hiff, hbreaks]
      simp [or_comm]
    have hextends := extends_tokens file hwell
    rw [h] at hextends
    generalize htokens : mid ++ t :: older = made at hextends
    cases hextends with
    | same hwritten hline =>
      refine inner hwritten hmid htokens.symm ⟨.inl, fun hor => hor.elim id fun hbreaks hempty => ?_⟩
      exact hnewline (hline hbreaks t (by rw [← htokens, hempty]; rfl))
    | line hwritten hline =>
      cases mid with
      | nil =>
        cases htokens
        exact absurd rfl hnewline
      | cons m mid =>
        exact inner hwritten (fun m hm => hmid m (List.mem_cons_of_mem _ hm))
          (List.cons.inj htokens).2.symm (iff_of_true (List.cons_ne_nil m mid) (.inr hline))
    | token hwritten hkept =>
      cases mid with
      | nil => exact ⟨[], p, before, rfl, hwritten, h, List.forall_mem_nil _, by simp⟩
      | cons m mid =>
        obtain ⟨rfl, -⟩ := List.cons.inj htokens
        simp [isWritten_of_newline (hmid m List.mem_cons_self)] at hkept

/-- Between two tokens that come one after the other stand pieces that are no tokens. -/
theorem exists_standsApart (more : List UInt8) (hwell : ∀ p ∈ done, p.WellFormed)
    (ht : t.isWritten = true) (hu : u.isWritten = true) (hmid : ∀ m ∈ mid, m.kind = .newline)
    (h : done.tokens file = newer ++ u :: (mid ++ t :: older)) :
    ∃ gap, StandsApart (done.source.bytes ++ more) t u gap ∧ (mid ≠ [] ↔ ∃ q ∈ gap, q.breaksLine = true) := by
  obtain ⟨later, q, middle, rfl, hq, hextend, hmiddle⟩ := exists_piece_of_token hwell hu h
  have hwell' : ∀ p ∈ middle, p.WellFormed := fun p hp =>
    hwell p (List.mem_append_right _ (List.mem_cons_of_mem q hp))
  obtain ⟨gap, p, before, rfl, hp, hextend', hgap, hbreaks⟩ := exists_gap hwell' ht hmid hmiddle
  refine ⟨gap, ⟨?_, fun r hr => hwell' r (List.mem_append_left _ hr), hgap⟩, hbreaks⟩
  have hpwell := hwell' p (List.mem_append_right _ List.mem_cons_self)
  have hqwell := hwell q (List.mem_append_right _ List.mem_cons_self)
  obtain ⟨t', ht', hpos, -, hstands⟩ := Piece.exists_extend hpwell hp (place file before) (tokens file before)
  obtain ⟨u', hu', hpos', -⟩ := Piece.exists_extend hqwell hq (place file (gap ++ p :: before))
    (tokens file (gap ++ p :: before))
  obtain ⟨rfl, -⟩ := List.cons.inj (hextend'.symm.trans ht')
  obtain ⟨rfl, -⟩ := List.cons.inj (hextend.symm.trans hu')
  have hsource : source (later ++ q :: (gap ++ p :: before)) =
      source (p :: before) ++ source gap ++ (q.source ++ source later) := by
    rw [source_append, source, source_append, List.append_assoc _ q.source]
  rw [hsource]
  refine ⟨(source before).byteSize, (source (p :: before)).byteSize,
    (source (gap ++ p :: before)).byteSize, ?_, ?_, ?_⟩
  · refine hstands (offset_place file before) ?_
    rw [List.append_assoc, Source.bytes_append, List.append_assoc]
    exact (standsBetween_cons p before).append _
  · refine ⟨(source (p :: before)).bytes, (q.source ++ source later).bytes ++ more, ?_, ?_, ?_⟩
    · simp only [Source.bytes_append, List.append_assoc]
    · rw [Source.length_bytes]
    · rw [source_append, Source.byteSize_append, Source.length_bytes, Source.length_bytes]
  · rw [hpos', offset_place]

end Pieces

namespace Pieces.MakeUp

variable {file : String} {text tail : Source} {tokens : List Token} {done : Pieces}

section
variable (h : MakeUp file text tokens done tail)
include h

/-- The tokens, last first. -/
theorem reverse_eq : tokens.reverse =
    .eof ((done.place file).behind tail) :: Piece.broken ((done.place file).behind tail) (done.tokens file) := by
  rw [h.tokens_eq, List.reverse_append, List.reverse_reverse]
  rfl

theorem position {t : Token} (ht : t ∈ tokens) :
    ∃ front back, text = front ++ back ∧ t.pos = (Scanner.start file).place.behind front := by
  have hfinish : (done.place file).behind tail = (Scanner.start file).place.behind text := by
    rw [place_eq, ← Position.behind_append, h.source]
  rw [← List.mem_reverse, h.reverse_eq, hfinish] at ht
  have inner : t ∈ done.tokens file →
      ∃ front back, text = front ++ back ∧ t.pos = (Scanner.start file).place.behind front := by
    intro hmem
    obtain ⟨front, back, hsource, -, hpos⟩ := exists_letter h.wellFormed hmem
    exact ⟨front, back ++ tail, by rw [← h.source, hsource, List.append_assoc], hpos⟩
  rcases List.mem_cons.mp ht with rfl | ht
  · exact ⟨text, [], (List.append_nil text).symm, rfl⟩
  · rcases Piece.broken_cases ((Scanner.start file).place.behind text) (done.tokens file) with
      ⟨he, -⟩ | ⟨he, -⟩
    · exact inner (he ▸ ht)
    · rw [he] at ht
      rcases List.mem_cons.mp ht with rfl | ht
      · exact ⟨text, [], (List.append_nil text).symm, rfl⟩
      · exact inner ht

theorem pairwise : tokens.Pairwise fun t u => t.pos.offset < u.pos.offset ∨
      t.kind = .newline ∧ u.kind = .eof ∧ t.pos.offset = u.pos.offset := by
  rw [← List.pairwise_reverse, h.reverse_eq]
  have hdone := (pairwise_tokens file h.wellFormed).imp fun {u t} hlt =>
    Or.inl (b := t.kind = .newline ∧ u.kind = .eof ∧ t.pos.offset = u.pos.offset) hlt
  have hlast : ∀ t ∈ done.tokens file, t.pos.offset < ((done.place file).behind tail).offset := by
    intro t ht
    have hlt := offset_lt h.wellFormed ht
    rw [Position.offset_behind, offset_place]
    omega
  rcases Piece.broken_cases ((done.place file).behind tail) (done.tokens file) with ⟨he, -⟩ | ⟨he, -⟩
  · rw [he]
    exact .cons (fun t ht => .inl (hlast t ht)) hdone
  · rw [he]
    refine .cons (fun t ht => ?_) (.cons (fun t ht => .inl (hlast t ht)) hdone)
    rcases List.mem_cons.mp ht with rfl | ht
    · exact .inr ⟨rfl, rfl, rfl⟩
    · exact .inl (hlast t ht)

theorem isChain : tokens.IsChain fun t u => ¬ (t.kind = .newline ∧ u.kind = .newline) := by
  rw [← List.isChain_reverse, h.reverse_eq]
  have hdone : (done.tokens file).IsChain fun u t => ¬ (t.kind = .newline ∧ u.kind = .newline) :=
    (isChain_tokens h.wellFormed).imp fun u t hne hboth => hne hboth.symm
  rcases Piece.broken_cases ((done.place file).behind tail) (done.tokens file) with
    ⟨he, -⟩ | ⟨he, -, hlast⟩
  · rw [he]
    exact hdone.cons fun t _ hboth => by cases hboth.2
  · rw [he]
    exact (hdone.cons fun t ht hboth => hlast t ht hboth.1).cons fun t _ hboth => by cases hboth.2

theorem first : ∀ t ∈ tokens.head?, t.kind ≠ .newline := by
  have hdone := first_tokens file h.wellFormed
  rw [List.head?_eq_getLast?_reverse, h.reverse_eq]
  rcases Piece.broken_cases ((done.place file).behind tail) (done.tokens file) with
    ⟨he, -⟩ | ⟨he, hmade, -⟩
  · rw [he]
    cases hmade : done.tokens file with
    | nil => rintro t ⟨⟩ hnewline; cases hnewline
    | cons t made =>
      rw [List.getLast?_cons_cons, ← hmade]
      exact hdone
  · rw [he, List.getLast?_cons_cons, List.getLast?_cons_of_ne_nil hmade]
    exact hdone

/-- The tokens that no piece makes were not written. -/
theorem exists_extra : ∃ extra,
    tokens.reverse = extra ++ done.tokens file ∧ ∀ t ∈ extra, t.isWritten = false := by
  rw [h.reverse_eq]
  rcases Piece.broken_cases ((done.place file).behind tail) (done.tokens file) with ⟨he, -⟩ | ⟨he, -⟩
  · rw [he]
    exact ⟨[_], rfl, List.forall_mem_singleton.mpr rfl⟩
  · rw [he]
    exact ⟨[_, _], rfl, List.forall_mem_cons.mpr ⟨rfl, List.forall_mem_singleton.mpr rfl⟩⟩

theorem exists_standsApart {older mid newer : List Token} {t u : Token}
    (htokens : tokens = older ++ t :: (mid ++ u :: newer)) (ht : t.isWritten = true) (hu : u.isWritten = true)
    (hmid : ∀ m ∈ mid, m.kind = .newline) :
    ∃ gap, StandsApart text.bytes t u gap ∧ (mid ≠ [] ↔ ∃ q ∈ gap, q.breaksLine = true) := by
  have hreverse : tokens.reverse = newer.reverse ++ u :: (mid.reverse ++ t :: older.reverse) := by
    simp [htokens]
  obtain ⟨extra, hextra, hother⟩ := h.exists_extra
  rw [hextra] at hreverse
  have hdone : ∃ newer', done.tokens file = newer' ++ u :: (mid.reverse ++ t :: older.reverse) := by
    rcases List.append_eq_append_iff.mp hreverse with ⟨newer', -, he⟩ | ⟨inside, he, hrest⟩
    · exact ⟨newer', he⟩
    · cases inside with
      | nil => exact ⟨[], hrest.symm⟩
      | cons v inside =>
        obtain ⟨rfl, -⟩ := List.cons.inj hrest
        have hmem : u ∈ extra := he ▸ List.mem_append_right _ List.mem_cons_self
        exact absurd hu (by simp [hother u hmem])
  obtain ⟨newer', hdone⟩ := hdone
  obtain ⟨gap, hgap, hbreaks⟩ := Pieces.exists_standsApart tail.bytes h.wellFormed ht hu
    (fun m hm => hmid m (List.mem_reverse.mp hm)) hdone
  rw [← Source.bytes_append, h.source] at hgap
  exact ⟨gap, hgap, by rw [← hbreaks, ne_eq, ne_eq, List.reverse_eq_nil_iff]⟩

end

end Pieces.MakeUp

/-- A text never begins with a line break. -/
theorem Source.head_of_tokens {src : Source} {file : String} {tokens : List Token}
    (h : src.tokens file = .ok tokens) : ∀ t ∈ tokens.head?, t.kind ≠ .newline := by
  obtain ⟨done, tail, hmakeUp⟩ := Source.exists_makeUp h
  exact hmakeUp.first

/-- The positions of the tokens are faithful, and line breaks are normal. Each position counts what
stands in front of the token. The tokens come in the order of their offsets, of which only the last line
break and the end of input may share one. The first token is no line break, and there are never two in
a row. The end of input is the last token, behind a line break when there is any other token. And
between two tokens that were written there is a line break if and only if a line ends in the text
between them: at a newline outside of block comments, or at a semicolon outside of comments. -/
theorem Source.faithful_of_tokens {bytes : List UInt8} {file : String} {tokens : List Token}
    (h : (Source.ofBytes bytes).tokens file = .ok tokens) :
    (∀ t ∈ tokens, ∃ front back, Source.ofBytes bytes = front ++ back ∧ t.pos.Faithful bytes front) ∧
    tokens.Pairwise (fun t u => t.pos.offset < u.pos.offset ∨
      t.kind = .newline ∧ u.kind = .eof ∧ t.pos.offset = u.pos.offset) ∧
    (∀ t ∈ tokens.head?, t.kind ≠ .newline) ∧
    tokens.IsChain (fun t u => ¬ (t.kind = .newline ∧ u.kind = .newline)) ∧
    (∃ made pos, tokens = made ++ [.eof pos] ∧ (∀ t ∈ made, t.kind ≠ .eof) ∧
      ∀ t ∈ made.getLast?, t.kind = .newline) ∧
    ∀ (older mid newer : List Token) (t u : Token), tokens = older ++ t :: (mid ++ u :: newer) →
      t.isWritten = true → u.isWritten = true → (∀ m ∈ mid, m.kind = .newline) →
      ∃ gap, StandsApart bytes t u gap ∧ (mid ≠ [] ↔ ∃ q ∈ gap, q.breaksLine = true) := by
  obtain ⟨done, tail, hmakeUp⟩ := Source.exists_makeUp h
  refine ⟨fun t ht => ?_, hmakeUp.pairwise, hmakeUp.first, hmakeUp.isChain, ?_, ?_⟩
  · obtain ⟨front, back, hsource, hpos⟩ := hmakeUp.position ht
    exact ⟨front, back, hsource, hpos ▸ Position.faithful_behind hsource⟩
  · obtain ⟨made, pos, htokens, hmade, hends⟩ := Source.scanned_of_tokens h
    exact ⟨made, pos, htokens, fun t ht => (hmade t ht).kind_ne_eof, hends⟩
  · intro older mid newer t u htokens ht hu hmid
    obtain ⟨gap, hgap, hbreaks⟩ := hmakeUp.exists_standsApart htokens ht hu hmid
    rw [bytes_ofBytes] at hgap
    exact ⟨gap, hgap, hbreaks⟩

/-- In `a;` and `b` on the next line, a line ends between the two names. -/
theorem Source.faithful_two_lines :
    (Source.ofBytes [0x61, 0x3B, 0x0A, 0x62]).tokens "" = .ok [⟨.ident, "a", ⟨"", 1, 1, 0⟩⟩,
      .newline ⟨"", 1, 2, 1⟩, ⟨.ident, "b", ⟨"", 2, 1, 3⟩⟩, .newline ⟨"", 2, 2, 4⟩,
      .eof ⟨"", 2, 2, 4⟩] ∧
    ∃ gap, StandsApart [0x61, 0x3B, 0x0A, 0x62] ⟨.ident, "a", ⟨"", 1, 1, 0⟩⟩
      ⟨.ident, "b", ⟨"", 2, 1, 3⟩⟩ gap ∧ ∃ q ∈ gap, q.breaksLine = true := by
  have htokens : (Source.ofBytes [0x61, 0x3B, 0x0A, 0x62]).tokens "" =
      .ok [⟨.ident, "a", ⟨"", 1, 1, 0⟩⟩, .newline ⟨"", 1, 2, 1⟩, ⟨.ident, "b", ⟨"", 2, 1, 3⟩⟩,
        .newline ⟨"", 2, 2, 4⟩, .eof ⟨"", 2, 2, 4⟩] := by
    decide +kernel
  obtain ⟨-, -, -, -, -, hgaps⟩ := faithful_of_tokens htokens
  obtain ⟨gap, hgap, hbreaks⟩ := hgaps [] [.newline ⟨"", 1, 2, 1⟩] _ _ _ rfl rfl rfl
    (List.forall_mem_singleton.mpr rfl)
  exact ⟨htokens, gap, hgap, hbreaks.mp (List.cons_ne_nil _ _)⟩

end Frontend
