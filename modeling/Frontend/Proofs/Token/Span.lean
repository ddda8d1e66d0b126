import Mathlib.Data.List.Forall2
import Frontend.Proofs.Text.Bytes
import Frontend.Proofs.Token.Cut

/-!
# The bytes of the tokens

Every token but the line breaks and the end of input stands for a stretch of bytes: its own text, or a
string with its quotes. The stretches come one after another, and what lies outside of them is blank,
separates or belongs to a comment. So scanning loses nothing and invents nothing.
-/

namespace Frontend

variable {bytes : List UInt8} {start stop i : Nat} {span : Nat × Nat}
variable {part : List UInt8} {later : Pieces}

/-- A part of a sequence of bytes, from one offset up to another. -/
def StandsBetween (bytes part : List UInt8) (start stop : Nat) : Prop :=
  ∃ front back, bytes = front ++ (part ++ back) ∧ start = front.length ∧
    stop = front.length + part.length

/-- Whether a token was written as such: line breaks and the end of input were not. -/
def Token.isWritten (t : Token) : Bool := t.kind != .newline && t.kind != .eof

/-- The bytes that a token stands for: its text, or a string with its quotes. -/
inductive Token.StandsFor (bytes : List UInt8) (t : Token) (start stop : Nat) : Prop where
  | text (hpos : t.pos.offset = start) (hbytes : StandsBetween bytes
      (Source.ofString t.literal).bytes start stop) (hkind : t.kind = TokenKind.classify t.literal)
      (hlegal : t.kind ≠ .illegal)
  | string (quote : Char) (body : Source) (hpos : t.pos.offset = start)
      (hbytes : StandsBetween bytes (Source.bytes (Letter.char quote :: body ++ [Letter.char quote])) start stop)
      (hkind : t.kind = .str) (hquote : quote = '\x22' ∨ quote = '\x27')
      (hbody : Unescapes quote body t.literal.toList)

/-- The text of a comment. -/
inductive IsComment : Source → Prop where
  | line {body : Source} (h : .char '\n' ∉ body) : IsComment (lineOpener ++ body)
  | block {body : Source} (h : ¬ blockCloser <:+: body) :
      IsComment (blockOpener ++ body ++ blockCloser)

/-- A byte that separates: a space, a control character other than NUL, or a semicolon. -/
def IsSeparating (b : UInt8) : Prop := b = 0x20 ∨ (b < 0x20 ∧ b ≠ 0) ∨ b = 0x3B

instance : DecidablePred IsSeparating := fun b =>
  inferInstanceAs (Decidable (b = 0x20 ∨ (b < 0x20 ∧ b ≠ 0) ∨ b = 0x3B))

/-- A byte that no token needs: it separates, or it belongs to a comment that lies between the
tokens. -/
inductive IsIdle (bytes : List UInt8) (spans : List (Nat × Nat)) (i : Nat) : Prop where
  | separates {b : UInt8} (hbyte : bytes[i]? = some b) (h : IsSeparating b)
  | comment {comment : Source} {start stop : Nat} (h : IsComment comment)
      (hbytes : StandsBetween bytes comment.bytes start stop) (hstart : start ≤ i) (hstop : i < stop)
      (houtside : ∀ span ∈ spans, span.2 ≤ start ∨ stop ≤ span.1)

theorem StandsBetween.append (h : StandsBetween bytes part start stop) (more : List UInt8) :
    StandsBetween (bytes ++ more) part start stop := by
  obtain ⟨front, back, rfl, hstart, hstop⟩ := h
  exact ⟨front, back ++ more, by simp, hstart, hstop⟩

theorem Source.byteSize_append (a b : Source) : byteSize (a ++ b) = byteSize a + byteSize b := by
  rw [← length_bytes, bytes_append, List.length_append, length_bytes, length_bytes]

namespace Piece

theorem filter_broken (pos : Position) (made : List Token) :
    (broken pos made).filter Token.isWritten = made.filter Token.isWritten := by
  cases made with
  | nil => rfl
  | cons t made =>
    rw [broken]
    split
    · rfl
    · have hnewline : ¬ (Token.newline pos).isWritten = true := by simp [Token.isWritten, Token.newline]
      exact List.filter_cons_of_neg hnewline

/-- What a piece that is a token adds to the tokens stands for its bytes. -/
theorem exists_extend {p : Piece} (hp : p.WellFormed) (hwritten : p.isWritten = true) (pos : Position)
    (made : List Token) : ∃ t, p.extend pos made = t :: made ∧ t.pos = pos ∧ t.isWritten = true ∧
      ∀ {bytes : List UInt8} {start stop : Nat}, pos.offset = start →
        StandsBetween bytes p.source.bytes start stop → t.StandsFor bytes start stop := by
  cases p with
  | lexeme text =>
    refine ⟨.ofText text pos, rfl, rfl, ?_, fun hpos hbytes => .text hpos hbytes rfl hp.1⟩
    have heof : TokenKind.classify text ≠ .eof := TokenKind.classify_ne_eof text
    simpa [Token.isWritten, Token.ofText] using ⟨hp.2, heof⟩
  | quoted quote body value =>
    refine ⟨.ofString (String.ofList value) pos, rfl, rfl, rfl, fun hpos hbytes => ?_⟩
    exact .string quote body hpos hbytes rfl hp.1 (by simpa [Token.ofString] using hp.2)
  | _ => cases hwritten

/-- No piece is empty. -/
theorem byteSize_pos {p : Piece} (hp : p.WellFormed) : 0 < p.source.byteSize := by
  have hne : p.source ≠ [] := by
    cases p with
    | lexeme text =>
      intro he
      have hempty : text = "" := by simpa [source, Source.ofString] using he
      exact hp.1 (by rw [hempty]; rfl)
    | _ => simp [source, lineOpener, blockOpener]
  cases hsource : p.source with
  | nil => exact absurd hsource hne
  | cons l rest =>
    rw [Source.byteSize_cons]
    exact Nat.add_pos_left l.width_pos _

/-- Any other piece adds a line break at most. -/
theorem filter_extend {p : Piece} (hwritten : p.isWritten = false) (pos : Position) (made : List Token) :
    (p.extend pos made).filter Token.isWritten = made.filter Token.isWritten := by
  cases p with
  | lexeme | quoted => cases hwritten
  | blank | blockComment => rfl
  | separator | lineComment => exact filter_broken _ _

end Piece

namespace Pieces

variable {file : String} {done before : Pieces} {p : Piece}

/-- Where the tokens of pieces stand, last first. -/
def spans : Pieces → List (Nat × Nat)
  | [] => []
  | p :: before =>
    if p.isWritten then ((source before).byteSize, (source (p :: before)).byteSize) :: spans before
    else spans before

theorem offset_place (file : String) (done : Pieces) : (done.place file).offset = done.source.byteSize := by
  induction done with
  | nil => rfl
  | cons p before ih =>
    rw [place, Position.offset_behind, ih, source, Source.byteSize_append]
    omega

theorem standsBetween_cons (p : Piece) (before : Pieces) : StandsBetween (source (p :: before)).bytes
    p.source.bytes (source before).byteSize (source (p :: before)).byteSize := by
  refine ⟨before.source.bytes, [], by simp [source], ?_, ?_⟩
  · rw [Source.length_bytes]
  · rw [source, Source.byteSize_append, Source.length_bytes, Source.length_bytes]

/-- The tokens stand where their pieces do. -/
theorem forall₂_spans (hwell : ∀ p ∈ done, p.WellFormed) (more : List UInt8) :
    List.Forall₂ (fun (t : Token) (span : Nat × Nat) =>
        t.StandsFor (done.source.bytes ++ more) span.1 span.2)
      ((done.tokens file).filter Token.isWritten) done.spans := by
  induction done generalizing more with
  | nil => exact .nil
  | cons p before ih =>
    have hbefore := ih (fun q hq => hwell q (List.mem_cons_of_mem p hq)) (p.source.bytes ++ more)
    have hbytes : source before ++ p.source = source (p :: before) := rfl
    rw [← List.append_assoc, ← Source.bytes_append, hbytes] at hbefore
    rw [tokens, spans]
    cases hwritten : p.isWritten with
    | false =>
      rw [Piece.filter_extend hwritten, if_neg (by simp)]
      exact hbefore
    | true =>
      obtain ⟨t, ht, -, hkept, hstands⟩ := Piece.exists_extend (hwell p List.mem_cons_self) hwritten
        (place file before) (tokens file before)
      rw [ht, List.filter_cons_of_pos hkept, if_pos rfl]
      exact .cons (hstands (offset_place file before) ((standsBetween_cons p before).append more))
        hbefore

theorem le_of_mem_spans (h : span ∈ done.spans) : span.2 ≤ done.source.byteSize := by
  induction done with
  | nil => cases h
  | cons p before ih =>
    have hlast : (source (p :: before)).byteSize = (source before).byteSize + p.source.byteSize := by
      rw [source, Source.byteSize_append]
    rw [spans] at h
    split at h
    · rcases List.mem_cons.mp h with rfl | h
      · exact Nat.le_refl _
      · have := ih h
        omega
    · have := ih h
      omega

theorem lt_of_mem_spans (hwell : ∀ p ∈ done, p.WellFormed) (h : span ∈ done.spans) : span.1 < span.2 := by
  induction done with
  | nil => cases h
  | cons p before ih =>
    have hrest := ih fun q hq => hwell q (List.mem_cons_of_mem p hq)
    rw [spans] at h
    split at h
    next hwritten =>
      rcases List.mem_cons.mp h with rfl | h
      · rw [source, Source.byteSize_append]
        exact Nat.lt_add_of_pos_right (Piece.byteSize_pos (hwell p List.mem_cons_self))
      · exact hrest h
    · exact hrest h

theorem pairwise_spans (done : Pieces) : done.spans.Pairwise fun later earlier => earlier.2 ≤ later.1 := by
  induction done with
  | nil => exact .nil
  | cons p before ih =>
    rw [spans]
    split
    · exact .cons (fun span hspan => le_of_mem_spans hspan) ih
    · exact ih

/-- A byte of a text lies in one of its pieces. -/
theorem exists_piece (hi : i < done.source.byteSize) :
    ∃ (later : Pieces) (p : Piece) (before : Pieces), done = later ++ p :: before ∧
      (source before).byteSize ≤ i ∧ i < (source (p :: before)).byteSize := by
  induction done with
  | nil => cases hi
  | cons p before ih =>
    by_cases hbefore : i < (source before).byteSize
    · obtain ⟨later, q, front, rfl, hstart, hstop⟩ := ih hbefore
      exact ⟨p :: later, q, front, rfl, hstart, hstop⟩
    · exact ⟨[], p, before, rfl, Nat.le_of_not_lt hbefore, hi⟩

theorem source_append (later done : Pieces) : source (later ++ done) = done.source ++ later.source := by
  induction later with
  | nil => exact (List.append_nil _).symm
  | cons p later ih => rw [List.cons_append, source, ih, source, List.append_assoc]

theorem mem_spans (h : p.isWritten = true) :
    ((source before).byteSize, (source (p :: before)).byteSize) ∈ spans (later ++ p :: before) := by
  induction later with
  | nil =>
    rw [List.nil_append, spans, if_pos h]
    exact List.mem_cons_self
  | cons q later ih =>
    rw [List.cons_append, spans]
    split
    · exact List.mem_cons_of_mem _ ih
    · exact ih

/-- The tokens behind some pieces stand behind their bytes. -/
theorem mem_spans_append (h : span ∈ spans (later ++ done)) :
    span ∈ done.spans ∨ done.source.byteSize ≤ span.1 := by
  induction later with
  | nil => exact .inl h
  | cons p later ih =>
    rw [List.cons_append, spans] at h
    split at h
    · rcases List.mem_cons.mp h with rfl | h
      · right
        rw [source_append, Source.byteSize_append]
        exact Nat.le_add_right _ _
      · exact ih h
    · exact ih h

end Pieces

/-! ## Bytes between the tokens -/

theorem StandsBetween.getElem? (h : StandsBetween bytes part start stop) (hstart : start ≤ i)
    (hstop : i < stop) : bytes[i]? = part[i - start]? := by
  obtain ⟨front, back, rfl, rfl, rfl⟩ := h
  rw [List.getElem?_append_right hstart, List.getElem?_append_left (by omega)]

theorem bytes_of_ascii {c : Char} (h : c.toNat ≤ 127) : Source.bytes [.char c] = [UInt8.ofNat c.toNat] := by
  have hencode := Source.utf8EncodeChar_ofNat (n := c.toNat) (.inl (by omega))
  rw [Char.ofNat_toNat, if_pos h] at hencode
  rw [Source.bytes_cons, Source.bytes_nil, List.append_nil, Letter.bytes, hencode]

/-- A piece that is no token is a separating byte, or a comment with perhaps a newline behind it. -/
inductive Piece.Idle : Source → Prop where
  | separating {c : Char} (hc : c.toNat ≤ 127) (h : IsSeparating (UInt8.ofNat c.toNat)) : Idle [.char c]
  | comment {comment : Source} (h : IsComment comment) : Idle comment
  | line {comment : Source} (h : IsComment comment) : Idle (comment ++ [Letter.char '\n'])

theorem Piece.idle {p : Piece} (hp : p.WellFormed) (hwritten : p.isWritten = false) : Piece.Idle p.source := by
  cases p with
  | lexeme | quoted => cases hwritten
  | lineComment body => exact .line (.line hp)
  | blockComment body => exact .comment (.block hp)
  | separator c =>
    rcases hp with rfl | rfl
    · exact .separating (by decide) (by decide)
    · exact .separating (by decide) (by decide)
  | blank c =>
    rcases hp with rfl | ⟨hlow, hne, -⟩
    · exact .separating (by decide) (by decide)
    · have control : ∀ n < 32, n ≠ 0 → IsSeparating (UInt8.ofNat n) := by decide
      exact .separating (by omega) (control c.toNat hlow hne)

theorem isIdle_of_piece {spans : List (Nat × Nat)} {part : Source} (h : Piece.Idle part)
    (hbytes : StandsBetween bytes part.bytes start stop) (hstart : start ≤ i) (hstop : i < stop)
    (houtside : ∀ span ∈ spans, span.2 ≤ start ∨ stop ≤ span.1) : IsIdle bytes spans i := by
  have hi := hbytes.getElem? hstart hstop
  cases h with
  | @separating c hc hbyte =>
    rw [bytes_of_ascii hc] at hi hbytes
    obtain ⟨front, back, -, rfl, rfl⟩ := hbytes
    have hfirst : i - front.length = 0 := by
      rw [List.length_singleton] at hstop
      omega
    rw [hfirst] at hi
    exact .separates hi hbyte
  | comment hcomment => exact .comment hcomment hbytes hstart hstop houtside
  | @line comment hcomment =>
    obtain ⟨front, back, rfl, rfl, rfl⟩ := hbytes
    rw [Source.bytes_append, bytes_of_ascii (by decide)] at *
    rw [List.length_append, List.length_singleton] at hstop
    by_cases hlast : i < front.length + comment.bytes.length
    · refine .comment hcomment ⟨front, [10] ++ back, by simp, rfl, rfl⟩ hstart hlast
        fun span hspan => (houtside span hspan).imp id fun hle => ?_
      exact Nat.le_trans (by simp) hle
    · refine .separates (b := 10) ?_ (by decide)
      have hplace : i - front.length = comment.bytes.length := by omega
      rw [hi, hplace, List.getElem?_append_right (Nat.le_refl _), Nat.sub_self]
      rfl

/-- Every byte outside of the tokens is idle. -/
theorem isIdle_of_makeUp {file : String} {src : Source} {tokens : List Token} {done : Pieces}
    {tail : Source} (h : Pieces.MakeUp file src tokens done tail) (hi : i < src.bytes.length)
    (houtside : ∀ span ∈ done.spans, ¬ (span.1 ≤ i ∧ i < span.2)) : IsIdle src.bytes done.spans i := by
  by_cases hlt : i < done.source.byteSize
  · obtain ⟨later, p, before, rfl, hstart, hstop⟩ := Pieces.exists_piece hlt
    have hp := h.wellFormed p (List.mem_append_right _ List.mem_cons_self)
    -- The bytes of the piece are where they were before the later pieces were read.
    have hbytes : StandsBetween src.bytes p.source.bytes (Pieces.source before).byteSize
        (Pieces.source (p :: before)).byteSize := by
      rw [← h.source, Pieces.source_append, List.append_assoc, Source.bytes_append]
      exact (Pieces.standsBetween_cons p before).append _
    cases hwritten : p.isWritten with
    | true => exact absurd ⟨hstart, hstop⟩ (houtside _ (Pieces.mem_spans hwritten))
    | false =>
      refine isIdle_of_piece (Piece.idle hp hwritten) hbytes hstart hstop fun span hspan => ?_
      rcases Pieces.mem_spans_append hspan with hmem | hbehind
      · rw [Pieces.spans, if_neg (by simp [hwritten])] at hmem
        exact .inl (Pieces.le_of_mem_spans hmem)
      · exact .inr hbehind
  · rcases h.trailer with rfl | ⟨body, rfl, hline⟩
    · rw [← h.source, List.append_nil, Source.length_bytes] at hi
      exact absurd hi hlt
    · have hbytes : StandsBetween src.bytes (lineOpener ++ body).bytes done.source.byteSize
          src.bytes.length := by
        refine ⟨done.source.bytes, [], ?_, ?_, ?_⟩
        · rw [← h.source, Source.bytes_append, List.append_nil]
        · rw [Source.length_bytes]
        · rw [← h.source, Source.bytes_append, List.length_append]
      exact .comment (.line hline) hbytes (Nat.le_of_not_lt hlt) hi
        fun span hspan => .inl (Pieces.le_of_mem_spans hspan)

theorem IsIdle.mono {spans spans' : List (Nat × Nat)} (h : IsIdle bytes spans i)
    (hsub : ∀ span ∈ spans', span ∈ spans) : IsIdle bytes spans' i := by
  cases h with
  | separates hbyte h => exact .separates hbyte h
  | comment h hbytes hstart hstop houtside =>
    exact .comment h hbytes hstart hstop fun span hspan => houtside span (hsub span hspan)

/-- Scanning loses nothing and invents nothing. The tokens that were written stand for stretches of bytes
that come one after another, and each byte between them separates or belongs to a comment. -/
theorem Source.exists_spans {bytes : List UInt8} {file : String} {tokens : List Token}
    (h : (Source.ofBytes bytes).tokens file = .ok tokens) : ∃ spans : List (Nat × Nat),
      List.Forall₂ (fun (t : Token) (span : Nat × Nat) => t.StandsFor bytes span.1 span.2)
        (tokens.filter Token.isWritten) spans ∧
      (∀ span ∈ spans, span.1 < span.2) ∧
      spans.Pairwise (fun earlier later => earlier.2 ≤ later.1) ∧
      ∀ i < bytes.length, (∀ span ∈ spans, ¬ (span.1 ≤ i ∧ i < span.2)) → IsIdle bytes spans i := by
  obtain ⟨done, tail, made⟩ := Source.exists_makeUp h
  have hbytes : bytes = done.source.bytes ++ tail.bytes := by
    rw [← bytes_append, made.source, bytes_ofBytes]
  refine ⟨done.spans.reverse, ?_, ?_, ?_, ?_⟩
  · have hwritten : tokens.filter Token.isWritten =
        ((done.tokens file).filter Token.isWritten).reverse := by
      rw [made.tokens_eq, List.filter_append, List.filter_reverse, Piece.filter_broken]
      exact List.append_nil _
    rw [hwritten, hbytes, List.forall₂_reverse_iff]
    exact Pieces.forall₂_spans made.wellFormed tail.bytes
  · intro span hspan
    exact Pieces.lt_of_mem_spans made.wellFormed (List.mem_reverse.mp hspan)
  · rw [List.pairwise_reverse]
    exact Pieces.pairwise_spans done
  · intro i hi houtside
    rw [← bytes_ofBytes bytes] at hi ⊢
    refine (isIdle_of_makeUp made hi fun span hspan => ?_).mono fun span => List.mem_reverse.mp
    exact houtside span (List.mem_reverse.mpr hspan)

/-- Reading `a="\n";` and a comment behind it. -/
theorem Source.exists_spans_assignment : ∃ spans : List (Nat × Nat),
    List.Forall₂ (fun (t : Token) (span : Nat × Nat) =>
        t.StandsFor [0x61, 0x3D, 0x22, 0x5C, 0x6E, 0x22, 0x3B, 0x2F, 0x2F, 0xFF] span.1 span.2)
      [⟨.ident, "a", ⟨"", 1, 1, 0⟩⟩, ⟨.op .assign, "=", ⟨"", 1, 2, 1⟩⟩, ⟨.str, "\n", ⟨"", 1, 3, 2⟩⟩]
      spans ∧
    (∀ span ∈ spans, span.1 < span.2) ∧
    spans.Pairwise (fun earlier later => earlier.2 ≤ later.1) ∧
    ∀ i < 10, (∀ span ∈ spans, ¬ (span.1 ≤ i ∧ i < span.2)) →
      IsIdle [0x61, 0x3D, 0x22, 0x5C, 0x6E, 0x22, 0x3B, 0x2F, 0x2F, 0xFF] spans i :=
  have h : (Source.ofBytes [0x61, 0x3D, 0x22, 0x5C, 0x6E, 0x22, 0x3B, 0x2F, 0x2F, 0xFF]).tokens "" =
      .ok [⟨.ident, "a", ⟨"", 1, 1, 0⟩⟩, ⟨.op .assign, "=", ⟨"", 1, 2, 1⟩⟩,
        ⟨.str, "\n", ⟨"", 1, 3, 2⟩⟩, .newline ⟨"", 1, 7, 6⟩, .eof ⟨"", 1, 11, 10⟩] := by
    decide +kernel
  exists_spans h

/-- The literal of a string need not be among the bytes of the source, even without an escape: a byte
that is part of no character turns into U+FFFD. -/
theorem Source.tokens_stray :
    (Source.ofBytes [0x22, 0xFF, 0x22]).tokens "" = .ok [⟨.str, "\uFFFD", ⟨"", 1, 1, 0⟩⟩,
      .newline ⟨"", 1, 4, 3⟩, .eof ⟨"", 1, 4, 3⟩] ∧
    ¬ ∃ start stop, StandsBetween [0x22, 0xFF, 0x22] (Source.ofString "\uFFFD").bytes start stop := by
  refine ⟨by decide +kernel, ?_⟩
  rintro ⟨start, stop, front, back, hbytes, -, -⟩
  have hshown : (Source.ofString "\uFFFD").bytes = [0xEF, 0xBF, 0xBD] := by decide +kernel
  have hmem : (0xEF : UInt8) ∈ [0x22, 0xFF, 0x22] := by
    rw [hbytes, hshown]
    simp
  exact absurd hmem (by decide)

end Frontend
