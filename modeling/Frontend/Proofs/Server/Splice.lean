import Frontend.Proofs.List
import Frontend.Server.Document

/-!
# Edits of bytes

A text whose lines all end in line feeds is addressed in two ways: by bytes from its start, and by lines
and the bytes of a line. This module translates between the two, and shows that replacing a range of a
document is a cut in its bytes.
-/

namespace Frontend.TextEdit

variable {text line front : Bytes} {before rest : List Bytes} {b c : UInt8} {p : TextPosition} {n : Nat}
variable {m : Nat}

/-- The text with a line feed in place of every line end: a carriage return, with the line feed behind it
if there is one, counts as one line end. -/
def lineFeeds : Bytes → Bytes
  | [] => []
  | [b] => [if b = carriageReturn then Frame.newline else b]
  | b :: c :: rest =>
    if b = carriageReturn then
      Frame.newline :: if c = Frame.newline then lineFeeds rest else lineFeeds (c :: rest)
    else b :: lineFeeds (c :: rest)

/-- The place of a byte: how many line feeds stand in front of it, and how many bytes it is behind the last
of them. -/
def placeOf (text : Bytes) (offset : Nat) : TextPosition where
  line := (text.take offset).count Frame.newline
  character := ((text.take offset).reverse.takeWhile (· != Frame.newline)).length

def linesOf (text : Bytes) : List Bytes := Text.splitAt (· == Frame.newline) text

/-- The place in a text that is meant by any place: a line behind the last one is the last one, and a
place behind the end of its line is the end of the line. -/
def clamp (text : Bytes) (p : TextPosition) : TextPosition :=
  let line := min p.line (text.count Frame.newline)
  { line, character := min p.character ((linesOf text).getD line []).length }

/-- How many bytes stand in front of a place. -/
def offsetOf (text : Bytes) (p : TextPosition) : Nat :=
  Number.total (((linesOf text).take p.line).map (·.length + 1)) + p.character

/-! ## Line ends -/

theorem unifyLines_cons_cons (b c : UInt8) (rest : Bytes) : unifyLines (b :: c :: rest) =
    if b = carriageReturn ∧ c = Frame.newline then unifyLines (c :: rest)
    else (if b = carriageReturn then Frame.newline else b) :: unifyLines (c :: rest) := by
  unfold unifyLines
  by_cases h : b = carriageReturn ∧ c = Frame.newline
  · simp [h.1, h.2]
  · have hkept : ¬ b = carriageReturn ∨ ¬ c = Frame.newline := Decidable.not_and_iff_or_not.mp h
    simp [h, hkept]

theorem unifyLines_cons_of_ne (h : b ≠ carriageReturn) (rest : Bytes) :
    unifyLines (b :: rest) = b :: unifyLines rest := by
  cases rest with
  | nil => simp [unifyLines, h]
  | cons c rest => rw [unifyLines_cons_cons, if_neg fun hb => h hb.1, if_neg h]

/-- Leaving out carriage returns in front of line feeds and turning the others into line feeds is the same
as turning line ends into line feeds. -/
theorem unifyLines_eq_lineFeeds (content : Bytes) : unifyLines content = lineFeeds content := by
  fun_induction lineFeeds content with
  | case1 => rfl
  | case2 b => simp [unifyLines, Frame.newline]
  | case3 c rest ih ihc =>
    rw [unifyLines_cons_cons]
    by_cases hc : c = Frame.newline
    · subst hc
      rw [if_pos ⟨rfl, rfl⟩, if_pos rfl, unifyLines_cons_of_ne (by decide), ih]
    · rw [if_neg fun h => hc h.2, if_pos rfl, if_neg hc, ihc]
  | case4 b c rest hb ih => rw [unifyLines_cons_of_ne hb, ih]

/-! ## Lines -/

theorem length_linesOf (text : Bytes) : (linesOf text).length = text.count Frame.newline + 1 := by
  unfold linesOf
  induction text with
  | nil => rfl
  | cons b text ih =>
    rw [Text.splitAt_cons, List.count_cons]
    split
    · rw [List.length_cons, ih]
    · cases hs : Text.splitAt (· == Frame.newline) text with
      | nil => exact absurd hs (Text.splitAt_ne_nil _ _)
      | cons line lines =>
        rw [hs] at ih
        exact ih

theorem newline_not_mem_line (h : line ∈ linesOf text) : Frame.newline ∉ line := by
  unfold linesOf at h
  induction text generalizing line with
  | nil =>
    obtain rfl := List.mem_singleton.mp h
    exact List.not_mem_nil
  | cons b text ih =>
    rw [Text.splitAt_cons] at h
    split at h
    · rcases List.mem_cons.mp h with rfl | h
      · exact List.not_mem_nil
      · exact ih h
    next hb =>
      cases hs : Text.splitAt (· == Frame.newline) text with
      | nil => exact absurd hs (Text.splitAt_ne_nil _ _)
      | cons first lines =>
        rw [hs] at ih h
        rcases List.mem_cons.mp h with rfl | h
        · rw [List.mem_cons, not_or]
          exact ⟨fun he => hb (beq_iff_eq.mpr he.symm), ih List.mem_cons_self⟩
        · exact ih (List.mem_cons_of_mem first h)

/-- A text is the lines in front of one of its lines, that line, and the lines behind it. -/
theorem join_linesOf (h : linesOf text = before ++ line :: rest) :
    before.flatMap (· ++ [Frame.newline]) ++ line ++ rest.flatMap (Frame.newline :: ·) = text := by
  cases before with
  | nil => exact Text.join_splitAt h
  | cons first before =>
    rw [← Text.join_splitAt h]
    clear h
    induction before generalizing first with
    | nil => simp
    | cons second before ih =>
      rw [List.flatMap_cons, List.append_assoc, List.append_assoc, ← List.append_assoc (List.flatMap _ _), ih]
      simp

/-- Up to the last line of a text, every line is there. -/
theorem exists_line (h : n ≤ text.count Frame.newline) :
    ∃ (before : List Bytes) (line : Bytes) (rest : List Bytes), linesOf text = before ++ line :: rest ∧
      before.length = n := by
  have hlt : n < (linesOf text).length := by
    rw [length_linesOf]
    exact Nat.lt_succ_of_le h
  refine ⟨(linesOf text).take n, (linesOf text)[n], (linesOf text).drop (n + 1), ?_, ?_⟩
  · rw [← List.drop_eq_getElem_cons hlt, List.take_append_drop]
  · rw [List.length_take]
    exact Nat.min_eq_left (Nat.le_of_lt hlt)

/-! ## Places -/

/-- The place behind some lines and the beginning of another. -/
theorem placeOf_append (hbefore : ∀ l ∈ before, Frame.newline ∉ l) (hfront : Frame.newline ∉ front) (back : Bytes) :
    placeOf (before.flatMap (· ++ [Frame.newline]) ++ front ++ back)
      (before.flatMap (· ++ [Frame.newline]) ++ front).length = ⟨before.length, front.length⟩ := by
  have hlines : (before.flatMap (· ++ [Frame.newline])).count Frame.newline = before.length := by
    induction before with
    | nil => rfl
    | cons l before ih =>
      obtain ⟨hl, hbefore⟩ := List.forall_mem_cons.mp hbefore
      rw [List.flatMap_cons, List.count_append, List.count_append, ih hbefore, List.count_eq_zero.mpr hl]
      simp [Nat.add_comm]
  have hends : ((before.flatMap (· ++ [Frame.newline])).reverse).takeWhile (· != Frame.newline) = [] := by
    rcases List.eq_nil_or_concat before with rfl | ⟨init, last, rfl⟩
    · rfl
    · simp
  have hall : ∀ b ∈ front.reverse, (b != Frame.newline) = true := by
    intro b hb
    exact bne_iff_ne.mpr fun he => hfront (he ▸ List.mem_reverse.mp hb)
  unfold placeOf
  rw [List.take_left, List.count_append, hlines, List.count_eq_zero.mpr hfront, List.reverse_append,
    List.takeWhile_append_of_pos hall, hends, List.append_nil, List.length_reverse, Nat.add_zero]

/-- Any place means one in a line that is there. -/
theorem exists_clamp (text : Bytes) (p : TextPosition) : ∃ (before : List Bytes) (line : Bytes) (rest : List Bytes),
    linesOf text = before ++ line :: rest ∧ before.length = min p.line ((linesOf text).length - 1) ∧
      clamp text p = ⟨before.length, min p.character line.length⟩ := by
  obtain ⟨before, line, rest, hlines, hlength⟩ := exists_line (Nat.min_le_right p.line (text.count Frame.newline))
  refine ⟨before, line, rest, hlines, ?_, ?_⟩
  · rw [length_linesOf, Nat.add_sub_cancel, hlength]
  · have hline : (linesOf text).getD before.length [] = line := by simp [hlines]
    unfold clamp
    rw [← hlength]
    dsimp only
    rw [hline]

/-- The bytes in front of a place in a line, and those behind it. -/
theorem cut_line (h : linesOf text = before ++ line :: rest) (n : Nat) :
    let offset := offsetOf text ⟨before.length, min n line.length⟩
    text.take offset = before.flatMap (· ++ [Frame.newline]) ++ line.take n ∧
      text.drop offset = line.drop n ++ rest.flatMap (Frame.newline :: ·) ∧
      offset ≤ text.length ∧ placeOf text offset = ⟨before.length, min n line.length⟩ := by
  intro offset
  have htext : text = before.flatMap (· ++ [Frame.newline]) ++ line.take n ++
      (line.drop n ++ rest.flatMap (Frame.newline :: ·)) := by
    rw [List.append_assoc, ← List.append_assoc (line.take n), List.take_append_drop, ← List.append_assoc,
      join_linesOf h]
  have hoffset : offset = (before.flatMap (· ++ [Frame.newline]) ++ line.take n).length := by
    change (((linesOf text).take before.length).map (·.length + 1)).sum + min n line.length = _
    simp only [h, List.take_left, List.length_append, List.length_flatMap, List.length_take, List.length_singleton]
  have hlines : ∀ l ∈ before ++ line :: rest, Frame.newline ∉ l := fun l hl => newline_not_mem_line (h ▸ hl)
  have hbefore : ∀ l ∈ before, Frame.newline ∉ l := fun l hl => hlines l (List.mem_append_left _ hl)
  have hfront : Frame.newline ∉ line.take n := fun hmem =>
    hlines line (List.mem_append_right _ List.mem_cons_self) (List.mem_of_mem_take hmem)
  have hplace := placeOf_append hbefore hfront (line.drop n ++ rest.flatMap (Frame.newline :: ·))
  rw [← htext, ← hoffset, List.length_take] at hplace
  refine ⟨?_, ?_, ?_, hplace⟩
  · nth_rewrite 1 [htext]
    rw [hoffset, List.take_left]
  · nth_rewrite 1 [htext]
    rw [hoffset, List.drop_left]
  · calc
      offset ≤ offset + (line.drop n ++ rest.flatMap (Frame.newline :: ·)).length := Nat.le_add_right _ _
      _ = text.length := by rw [hoffset, ← List.length_append, ← htext]

/-- Further on in a text there are more line feeds in front, or more bytes behind the last of them. -/
theorem placeOf_ne (hlt : m < n) (hn : n ≤ text.length) : placeOf text m ≠ placeOf text n := by
  intro h
  obtain ⟨hline, hcharacter⟩ := TextPosition.mk.inj h
  obtain ⟨mid, hmid⟩ := List.take_prefix_take_left (l := text) (Nat.le_of_lt hlt)
  rw [← hmid, List.count_append] at hline
  have hno : Frame.newline ∉ mid := List.count_eq_zero.mp (by omega)
  have hall : ∀ b ∈ mid.reverse, (b != Frame.newline) = true := by
    intro b hb
    exact bne_iff_ne.mpr fun he => hno (he ▸ List.mem_reverse.mp hb)
  rw [← hmid, List.reverse_append, List.takeWhile_append_of_pos hall, List.length_append, List.length_reverse] at hcharacter
  have hlength := congrArg List.length hmid
  rw [List.length_append, List.length_take, List.length_take] at hlength
  omega

/-- Every place that a text has is that of one byte only. -/
theorem placeOf_injective (hm : m ≤ text.length) (hn : n ≤ text.length) (h : placeOf text m = placeOf text n) :
    m = n := by
  rcases Nat.lt_trichotomy m n with hlt | heq | hgt
  · exact absurd h (placeOf_ne hlt hn)
  · exact heq
  · exact absurd h.symm (placeOf_ne hgt hm)

/-- Replacing a range is a cut in the bytes of the text with line feeds for line ends. The new text takes
the place of what stands between two offsets, whichever of them comes first: those whose places are the
places of the range, brought to a line that is there and to at most the length of that line. -/
theorem replace_eq_splice (content : Bytes) (range : TextRange) (new : Bytes) :
    let text := lineFeeds content
    let start := offsetOf text (clamp text range.start)
    let finish := offsetOf text (clamp text range.finish)
    replace content range new = text.take start ++ new ++ text.drop finish ∧
      (∀ n, n = start ↔ n ≤ text.length ∧ placeOf text n = clamp text range.start) ∧
      (∀ n, n = finish ↔ n ≤ text.length ∧ placeOf text n = clamp text range.finish) := by
  intro text start finish
  have hlines : lines content = linesOf text := by
    rw [lines, unifyLines_eq_lineFeeds]
    rfl
  obtain ⟨before, line, rest, hstart, hline, hclamp⟩ := exists_clamp text range.start
  obtain ⟨before', line', rest', hfinish, hline', hclamp'⟩ := exists_clamp text range.finish
  obtain ⟨htake, -, hle, hplace⟩ := cut_line hstart range.start.character
  obtain ⟨-, hdrop, hle', hplace'⟩ := cut_line hfinish range.finish.character
  rw [← hclamp] at htake hle hplace
  rw [← hclamp'] at hdrop hle' hplace'
  refine ⟨?_, fun n => ⟨?_, fun h => placeOf_injective h.1 hle (h.2.trans hplace.symm)⟩,
    fun n => ⟨?_, fun h => placeOf_injective h.1 hle' (h.2.trans hplace'.symm)⟩⟩
  · have hfront : ((linesOf text).take before.length).flatMap (· ++ [Frame.newline]) ++
        ((linesOf text).getD before.length []).take range.start.character = text.take start := by
      rw [htake, hstart]
      simp
    have hbehind : (linesOf text).drop (before'.length + 1) = rest' := by
      rw [hfinish, ← List.drop_drop, List.drop_left, List.drop_one, List.tail_cons]
    have hback : ((linesOf text).getD before'.length []).drop range.finish.character ++
        ((linesOf text).drop (before'.length + 1)).flatMap (Frame.newline :: ·) = text.drop finish := by
      rw [hdrop, hbehind, hfinish]
      simp
    unfold replace
    dsimp only
    rw [hlines, ← hline, ← hline', hfront, List.append_assoc _ (List.drop _ _), hback]
  · rintro rfl
    exact ⟨hle, hplace⟩
  · rintro rfl
    exact ⟨hle', hplace'⟩

end Frontend.TextEdit
