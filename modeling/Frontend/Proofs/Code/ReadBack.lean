import Frontend.Instruction.Read
import Frontend.Proofs.List
import Frontend.Proofs.Word.Spelling
import Mathlib.Data.List.Induction
import Mathlib.Data.List.TakeWhile

/-!
# Reading printed code

Printed code can be read again, and the instructions that are read are the ones that were printed, as
long as every operand is a clean word. Annotations are skipped, whatever their text is.

A text of RA code may be put together line by line, with annotations and blank lines anywhere. Reading
it gives back exactly the instructions that were written, each with the number of its line, whatever
the string operands hold. The operands are spelled as literals are, or are bare words.
-/

namespace Frontend

variable {cs : List Char} {w : String} {op : Opcode}
variable {c : Char} {i : Instruction}

/-- The instructions of code, without its annotations. -/
def Code.instructions (code : Code) : List Instruction :=
  code.filterMap fun
    | .instr i => some i
    | _ => none

/-- An item that can be read again. Passages from elsewhere are not looked into. -/
def CodeItem.Readable : CodeItem → Prop
  | .instr i => i.op ≠ .invalid ∧ ∀ w ∈ i.args, Word.Clean w
  | .note _ => True
  | .passage _ => False

@[simp] theorem Code.instructions_nil : Code.instructions [] = [] := rfl

@[simp] theorem Code.instructions_instr (i : Instruction) (code : Code) :
    Code.instructions (.instr i :: code) = i :: Code.instructions code := rfl

@[simp] theorem Code.instructions_note (text : String) (code : Code) :
    Code.instructions (.note text :: code) = Code.instructions code := rfl

@[simp] theorem Code.instructions_append (a b : Code) :
    Code.instructions (a ++ b) = Code.instructions a ++ Code.instructions b := by
  simp [Code.instructions]

namespace Code

open OperandState

/-! ## Operands -/

theorem splitOperands_cons (s : OperandState) (current : List Char) (c : Char)
    (rest : List Char) (h : (s.step c).2 = false) :
    splitOperands s current (c :: rest) = splitOperands (s.step c).1 (c :: current) rest := by
  rw [splitOperands]
  simp [h]

/-- Characters that mean nothing to the reader in its present state are gathered. -/
theorem splitOperands_inert (s : OperandState) :
    ∀ (cs current rest : List Char), (∀ c ∈ cs, s.step c = (s, false)) →
      splitOperands s current (cs ++ rest) = splitOperands s (cs.reverse ++ current) rest := by
  intro cs
  induction cs with
  | nil => intros; rfl
  | cons c cs ih =>
    intro current rest h
    have hc := h c (by simp)
    rw [List.cons_append, splitOperands_cons _ _ _ _ (by rw [hc]), hc]
    rw [ih (c :: current) rest (fun d hd => h d (List.mem_cons_of_mem _ hd))]
    simp

/-- A hexadecimal digit is a decimal digit or one of six letters. -/
theorem mem_toDigits_sixteen (n : Nat) : ∀ c ∈ Nat.toDigits 16 n, c ∈ "0123456789abcdef".toList := by
  induction n using Nat.strongRecOn with
  | ind n ih =>
    intro c hc
    have small : ∀ k < 16, Nat.digitChar k ∈ "0123456789abcdef".toList := by decide
    rw [Nat.toDigits_eq_if (by decide)] at hc
    split at hc
    · rename_i hn
      rw [List.mem_singleton.mp hc]
      exact small n hn
    · rename_i hn
      rcases List.mem_append.mp hc with hc | hc
      · exact ih (n / 16) (by omega) c hc
      · rw [List.mem_singleton.mp hc]
        exact small _ (Nat.mod_lt _ (by decide))

theorem mem_hex (width n : Nat) : ∀ c ∈ Text.hex width n, c ∈ "0123456789abcdef".toList := by
  intro c hc
  simp only [Text.hex, List.mem_append] at hc
  rcases hc with hc | hc
  · rw [List.eq_of_mem_replicate hc]
    decide
  · exact mem_toDigits_sixteen n c hc

/-- A piece of a quoted text: a character that stands for itself, or a backslash, one more character
and digits. -/
inductive Piece : List Char → Prop where
  | plain {c : Char} (hq : c ≠ '\x22') (hb : c ≠ '\\') (hn : c ≠ '\n') : Piece [c]
  | escaped {d : Char} {ds : List Char} (hd : d ≠ '\n')
      (hds : ∀ e ∈ ds, e ∈ "0123456789abcdef".toList) : Piece ('\\' :: d :: ds)

theorem piece_quoteChar (c : Char) : Piece (Text.quoteChar c) := by
  unfold Text.quoteChar
  split
  · rename_i h
    refine .escaped ?_ (by simp)
    rintro rfl
    exact absurd h (by decide)
  · rename_i h
    simp only [Bool.or_eq_true, beq_iff_eq, not_or] at h
    split
    · rename_i hp
      refine .plain h.1 h.2 ?_
      rintro rfl
      exact absurd hp (by decide)
    · split
      all_goals first
        | exact .escaped (by decide) (by simp)
        | skip
      split
      · exact .escaped (by decide) (mem_hex _ _)
      · split
        · exact .escaped (by decide) (mem_hex _ _)
        · exact .escaped (by decide) (mem_hex _ _)

theorem piece_quoteLetter (l : Letter) : Piece (Text.quoteLetter l) := by
  cases l with
  | char c => exact piece_quoteChar c
  | stray b => exact .escaped (by decide) (mem_hex _ _)

theorem Piece.newline_not_mem (h : Piece cs) : '\n' ∉ cs := by
  cases h with
  | plain hq hb hn => simpa using Ne.symm hn
  | escaped hd hds =>
    simp only [List.mem_cons, not_or]
    exact ⟨by decide, fun e => hd e.symm, fun e => absurd (hds _ e) (by decide)⟩

/-- The reader inside of a string. -/
def inString : OperandState := { quoted := true }

theorem step_inString (hq : c ≠ '\x22') (hb : c ≠ '\\') : inString.step c = (inString, false) := by
  simp [inString, OperandState.step, hq, hb]

theorem Piece.splitOperands (h : Piece cs) (current rest : List Char) :
    splitOperands inString current (cs ++ rest) = splitOperands inString (cs.reverse ++ current) rest := by
  cases h with
  | plain hq hb hn =>
    apply splitOperands_inert
    intro e he
    rw [List.mem_singleton.mp he]
    exact step_inString hq hb
  | @escaped d ds hd hds =>
    -- the backslash takes the character behind it along, whatever it is
    have first : Code.splitOperands inString current ('\\' :: d :: (ds ++ rest)) =
        Code.splitOperands inString (d :: '\\' :: current) (ds ++ rest) := by
      rw [splitOperands_cons _ _ _ _ (by decide), splitOperands_cons _ _ _ _ (by rfl)]
      rfl
    have inert : ∀ e ∈ ds, inString.step e = (inString, false) := by
      intro e he
      have all : ∀ e ∈ "0123456789abcdef".toList, e ≠ '\x22' ∧ e ≠ '\\' := by decide
      exact step_inString (all e (hds e he)).1 (all e (hds e he)).2
    rw [List.cons_append, List.cons_append, first, splitOperands_inert _ _ _ _ inert]
    simp

theorem splitOperands_pieces {ps : List (List Char)} (h : ∀ p ∈ ps, Piece p) (current rest : List Char) :
    splitOperands inString current (ps.flatten ++ rest) =
      splitOperands inString (ps.flatten.reverse ++ current) rest := by
  induction ps generalizing current with
  | nil => rfl
  | cons p ps ih =>
    rw [List.flatten_cons, List.append_assoc, (h p (by simp)).splitOperands, ih fun q hq => h q (by simp [hq])]
    simp

/-- A word that the reader takes up as one operand: it is gathered as a whole, stays on its line and has
no white space at its ends. -/
structure Whole (w : String) : Prop where
  gathered : ∀ current rest, splitOperands {} current (w.toList ++ rest) =
    splitOperands {} (w.toList.reverse ++ current) rest
  trimmed : Text.trimList (' ' :: w.toList) = w.toList
  oneLine : '\n' ∉ w.toList

theorem trimList_space_cons (hfirst : ∀ c, cs.head? = some c → Text.isBlank c = false)
    (hlast : ∀ c, cs.getLast? = some c → Text.isBlank c = false) : Text.trimList (' ' :: cs) = cs := by
  unfold Text.trimList Text.dropEndWhile
  rw [List.dropWhile_cons_of_pos (by decide)]
  have front : cs.dropWhile Text.isBlank = cs := by
    cases cs with
    | nil => rfl
    | cons c cs => rw [List.dropWhile_cons_of_neg (by simp [hfirst c rfl])]
  have back : cs.reverse.dropWhile Text.isBlank = cs.reverse := by
    cases hr : cs.reverse with
    | nil => rfl
    | cons c rest =>
      have : cs.getLast? = some c := by rw [← List.head?_reverse, hr]; rfl
      rw [List.dropWhile_cons_of_neg (by simp [hlast c this])]
  rw [front, back, List.reverse_reverse]

theorem whole_of_plain (h : Word.Plain w) : Whole w := by
  refine ⟨fun current rest => ?_, trimList_space_cons ?_ ?_, fun hn => ?_⟩
  · apply splitOperands_inert
    intro c hc
    obtain ⟨hq, hcomma, -⟩ := h c hc
    simp [OperandState.step, hq, hcomma]
  · exact fun c hc => (h c (List.mem_of_head? hc)).2.2
  · exact fun c hc => (h c (List.mem_of_getLast? hc)).2.2
  · exact absurd (h _ hn).2.2 (by decide)

/-- Pieces between two quotes are one operand, whatever they hold. -/
theorem whole_of_pieces (ps : List (List Char)) (hw : w.toList = '\x22' :: (ps.flatten ++ ['\x22']))
    (h : ∀ p ∈ ps, Piece p) : Whole w := by
  refine ⟨fun current rest => ?_, ?_, ?_⟩
  · have opening : ∀ cs, splitOperands {} current ('\x22' :: cs) =
        splitOperands inString ('\x22' :: current) cs := by
      intro cs
      rw [splitOperands_cons _ _ _ _ (by decide)]
      rfl
    have closing : ∀ current cs, splitOperands inString current ('\x22' :: cs) =
        splitOperands {} ('\x22' :: current) cs := by
      intro current cs
      rw [splitOperands_cons _ _ _ _ (by decide)]
      rfl
    rw [hw, List.cons_append, opening, List.append_assoc, splitOperands_pieces h]
    rw [List.cons_append, List.nil_append, closing]
    simp
  · rw [hw]
    apply trimList_space_cons
    · rintro c ⟨⟩
      decide
    · intro c hc
      rw [← List.cons_append, List.getLast?_append_of_ne_nil _ (by simp)] at hc
      cases hc
      decide
  · rw [hw]
    have inner : '\n' ∉ ps.flatten := by
      intro hn
      obtain ⟨p, hp, hn⟩ := List.mem_flatten.mp hn
      exact (h p hp).newline_not_mem hn
    simp [inner]

theorem whole_of_clean (h : Word.Clean w) : Whole w := by
  rcases h with h | ⟨s, rfl⟩
  · exact whole_of_plain h
  · refine whole_of_pieces (s.toList.map Text.quoteChar) ?_ ?_
    · rw [Word.toList_quote, List.flatMap_def]
    · intro p hp
      obtain ⟨c, -, rfl⟩ := List.mem_map.mp hp
      exact piece_quoteChar c

theorem whole_quoteSource (src : Source) : Whole (Text.quoteSource src) := by
  refine whole_of_pieces (src.map Text.quoteLetter) ?_ ?_
  · rw [Text.quoteSource, String.toList_ofList, List.flatMap_def]
  · intro p hp
    obtain ⟨l, -, rfl⟩ := List.mem_map.mp hp
    exact piece_quoteLetter l

/-- White space at the end of the operands is not looked at. -/
theorem splitOperands_blank_end {b : Char} (hb : Text.isBlank b = true) :
    ∀ (cs : List Char) (s : OperandState) (current : List Char),
      splitOperands s current (cs ++ [b]) = splitOperands s current cs := by
  have hq : b ≠ '\x22' := by rintro rfl; exact absurd hb (by decide)
  have hcomma : b ≠ ',' := by rintro rfl; exact absurd hb (by decide)
  have hslash : b ≠ '\\' := by rintro rfl; exact absurd hb (by decide)
  intro cs
  induction cs with
  | nil =>
    intro s current
    have quiet : (s.step b).2 = false ∧ (s.step b).1.quoted = s.quoted := by
      unfold OperandState.step
      split
      · simp
      · simp [hq, hcomma, hslash]
    rw [List.nil_append, splitOperands_cons _ _ _ _ quiet.1]
    simp only [splitOperands, quiet.2, List.reverse_cons, Text.trimList, Text.dropEndWhile]
    congr 4
    rw [List.dropWhile_append]
    split
    · rename_i he
      simp only [List.isEmpty_iff] at he
      simp [he, hb]
    · rw [List.reverse_append, List.reverse_singleton, List.singleton_append,
        List.dropWhile_cons_of_pos (by simpa using hb)]
  | cons c cs ih =>
    intro s current
    simp only [List.cons_append, splitOperands]
    split
    · rw [ih]
    · rw [ih]

theorem splitOperands_dropEnd (cs : List Char) (s : OperandState) (current : List Char) :
    splitOperands s current (Text.dropEndWhile Text.isBlank cs) = splitOperands s current cs := by
  induction cs using List.reverseRecOn with
  | nil => rfl
  | append_singleton cs b ih =>
    unfold Text.dropEndWhile at ih ⊢
    rw [List.reverse_append, List.reverse_singleton, List.singleton_append]
    by_cases hb : Text.isBlank b = true
    · rw [List.dropWhile_cons_of_pos hb, ih, splitOperands_blank_end hb]
    · rw [List.dropWhile_cons_of_neg hb]
      simp

/-- Operands with a comma and a space between them are found again. -/
theorem splitOperands_join : ∀ args : List String, args ≠ [] → (∀ w ∈ args, Whole w) →
      splitOperands {} [] (' ' :: (Text.joinWith ", " args).toList) = some args := by
  intro args
  induction args with
  | nil => intro h; exact absurd rfl h
  | cons w args ih =>
    intro _ hwhole
    have hw := hwhole w (by simp)
    have start : ∀ rest, splitOperands {} [] (' ' :: (w.toList ++ rest)) =
        splitOperands {} (w.toList.reverse ++ [' ']) rest := by
      intro rest
      rw [splitOperands_cons _ _ _ _ (by decide), ← hw.gathered]
      rfl
    have whole : Text.trimList (w.toList.reverse ++ [' ']).reverse = w.toList := by
      rw [List.reverse_append, List.reverse_reverse]
      exact hw.trimmed
    cases args with
    | nil =>
      have h := start []
      rw [List.append_nil] at h
      rw [Text.joinWith, String.intercalate_singleton, h]
      simp only [splitOperands, whole, Bool.false_eq_true, if_false, String.ofList_toList]
    | cons v args =>
      have ih' := ih (by simp) (fun x hx => hwhole x (List.mem_cons_of_mem _ hx))
      have comma : ∀ current rest, splitOperands {} current (',' :: rest) =
          (splitOperands {} [] rest).map
            (String.ofList (Text.trimList current.reverse) :: ·) := by
        intro current rest
        rw [splitOperands]
        rfl
      have unroll : (Text.joinWith ", " (w :: v :: args)).toList =
          w.toList ++ ',' :: ' ' :: (Text.joinWith ", " (v :: args)).toList := by
        simp [Text.joinWith, String.intercalate_cons_cons]
      rw [unroll, start, comma, ih', whole]
      simp

/-! ## Lines -/

theorem dropEndWhile_append_cons {p : Char → Bool} (h : p c = false) (xs ys : List Char) :
    Text.dropEndWhile p (xs ++ c :: ys) = xs ++ c :: Text.dropEndWhile p ys := by
  unfold Text.dropEndWhile
  rw [List.reverse_append, List.reverse_cons, List.append_assoc, List.dropWhile_append]
  split
  · rename_i he
    simp only [List.isEmpty_iff] at he
    rw [he, List.singleton_append, List.dropWhile_cons_of_neg (by simp [h])]
    simp
  · simp

/-- The names of operations are plain words without colons. -/
theorem name_spelling (op : Opcode) : (∀ c ∈ op.name.toList, c ≠ ':' ∧ c ≠ '\n' ∧ Text.isBlank c = false) ∧
      op.name.toList.head? ≠ some ';' ∧ op.name.toList ≠ [] := by
  cases op <;> decide

theorem ofName?_name (h : op ≠ .invalid) : Opcode.ofName? op.name = some op := by
  cases op <;> first | exact absurd rfl h | decide

theorem trimList_of_not_blank (h : ∀ c ∈ cs, Text.isBlank c = false) : Text.trimList cs = cs := by
  have keep : ∀ ds : List Char, (∀ c ∈ ds, Text.isBlank c = false) →
      ds.dropWhile Text.isBlank = ds := by
    intro ds hds
    cases ds with
    | nil => rfl
    | cons d ds => rw [List.dropWhile_cons_of_neg (by simp [hds d (by simp)])]
  unfold Text.trimList Text.dropEndWhile
  rw [keep cs h, keep _ (fun c hc => h c (List.mem_reverse.mp hc)), List.reverse_reverse]

theorem takeWhile_name (op : Opcode) (rest : List Char) :
    (op.name.toList ++ ':' :: rest).takeWhile (· != ':') = op.name.toList := by
  rw [List.takeWhile_append_of_pos (fun c hc => by simp [((name_spelling op).1 c hc).1])]
  simp

theorem dropWhile_name (op : Opcode) (rest : List Char) :
    (op.name.toList ++ ':' :: rest).dropWhile (· != ':') = ':' :: rest := by
  rw [List.dropWhile_append_of_pos (fun c hc => by simp [((name_spelling op).1 c hc).1])]
  simp

/-- What a line with operands is read as. -/
theorem readLine_operands (number : Nat) (h : op ≠ .invalid) (rest : List Char) {args : List String}
    (hargs : splitOperands {} [] rest = some args) :
    readLine number (String.ofList (op.name.toList ++ ':' :: rest)) = .ok (some ⟨{ op, args }, number⟩) := by
  obtain ⟨letters, first, nonempty⟩ := name_spelling op
  have trimmed : Text.trimList (op.name.toList ++ ':' :: rest) =
      op.name.toList ++ ':' :: Text.dropEndWhile Text.isBlank rest := by
    unfold Text.trimList
    cases hn : op.name.toList with
    | nil => exact absurd hn nonempty
    | cons c cs =>
      rw [List.cons_append,
        List.dropWhile_cons_of_neg (by simp [(letters c (by simp [hn])).2.2]), ← List.cons_append,
        dropEndWhile_append_cons (by decide)]
  unfold readLine
  rw [String.toList_ofList, trimmed]
  simp only
  split
  · rename_i he
    exact absurd he (by simp)
  · rename_i cs he
    refine absurd ?_ first
    cases hn : op.name.toList with
    | nil => exact absurd hn nonempty
    | cons c ds =>
      rw [hn, List.cons_append, List.cons.injEq] at he
      rw [List.head?_cons, he.1]
  · rw [takeWhile_name, dropWhile_name, String.ofList_toList, Text.trim,
      trimList_of_not_blank (fun c hc => (letters c hc).2.2), String.ofList_toList, ofName?_name h]
    simp only [splitOperands_dropEnd, hargs]

/-- What a line without operands is read as. -/
theorem readLine_name (number : Nat) (h : op ≠ .invalid) : readLine number op.name = .ok (some ⟨{ op }, number⟩) := by
  cases op <;> first | exact absurd rfl h | rfl

theorem readLine_render (number : Nat) (hop : i.op ≠ .invalid) (hargs : ∀ w ∈ i.args, Whole w) :
    readLine number i.render = .ok (some ⟨i, number⟩) := by
  obtain ⟨op, args⟩ := i
  unfold Instruction.render
  cases args with
  | nil => exact readLine_name number hop
  | cons w args =>
    have spelled : op.name ++ ": " ++ Text.joinWith ", " (w :: args) =
        String.ofList (op.name.toList ++ ':' :: ' ' :: (Text.joinWith ", " (w :: args)).toList) := by
      apply String.toList_injective
      simp
    simp only [List.isEmpty_cons, Bool.false_eq_true, if_false]
    rw [spelled]
    exact readLine_operands number hop _ (splitOperands_join _ (by simp) hargs)

theorem readLine_noteLine (number : Nat) (text : String) : readLine number (CodeItem.noteLine text) = .ok none := by
  have first : ∃ rest, Text.trimList (CodeItem.noteLine text).toList = ';' :: rest := by
    unfold CodeItem.noteLine Text.trimList
    refine ⟨Text.dropEndWhile Text.isBlank (' ' :: (Text.replaceChar '\n' " " text).toList), ?_⟩
    rw [← List.nil_append (';' :: Text.dropEndWhile _ _), ← dropEndWhile_append_cons (by decide)]
    rw [String.toList_append]
    rw [show "; ".toList = [';', ' '] from rfl]
    rfl
  obtain ⟨rest, h⟩ := first
  unfold readLine
  rw [h]
  rfl

/-! ## Texts -/

theorem splitAt_append_stop {α : Type} {stop : α → Bool} {x : α} (hx : stop x = true) :
    ∀ (line rest : List α), (∀ y ∈ line, stop y = false) →
      Text.splitAt stop (line ++ x :: rest) = line :: Text.splitAt stop rest := by
  intro line
  induction line with
  | nil =>
    intro rest _
    rw [List.nil_append, Text.splitAt_cons, if_pos hx]
  | cons y line ih =>
    intro rest h
    rw [List.cons_append, Text.splitAt_cons, h y (by simp), ih rest (fun z hz => h z (by simp [hz]))]
    rfl

theorem lines_cons {line : String} (h : '\n' ∉ line.toList) (rest : String) :
    Text.lines (line ++ "\n" ++ rest) = line :: Text.lines rest := by
  unfold Text.lines Text.splitOn
  have spelled : (line ++ "\n" ++ rest).toList = line.toList ++ '\n' :: rest.toList := by simp
  rw [spelled, splitAt_append_stop (by decide) _ _ (by
    intro c hc
    simp only [beq_eq_false_iff_ne]
    rintro rfl
    exact h hc)]
  simp

theorem newline_not_mem_join : ∀ args : List String, (∀ w ∈ args, Whole w) →
      '\n' ∉ (Text.joinWith ", " args).toList := by
  intro args
  induction args with
  | nil => simp [Text.joinWith]
  | cons w args ih =>
    intro h
    have hw := (h w (by simp)).oneLine
    have hrest := ih fun v hv => h v (by simp [hv])
    cases args with
    | nil => simpa [Text.joinWith] using hw
    | cons v args =>
      simp only [Text.joinWith, String.intercalate_cons_cons, String.toList_append,
        List.mem_append, not_or] at hrest ⊢
      exact ⟨⟨hw, by decide⟩, hrest⟩

theorem newline_not_mem_render (h : ∀ w ∈ i.args, Whole w) : '\n' ∉ i.render.toList := by
  have name : '\n' ∉ i.op.name.toList := fun hn => ((name_spelling i.op).1 _ hn).2.1 rfl
  unfold Instruction.render
  split
  · exact name
  · simp only [String.toList_append, List.mem_append, not_or]
    exact ⟨⟨name, by decide⟩, newline_not_mem_join _ h⟩

theorem newline_not_mem_noteLine (text : String) : '\n' ∉ (CodeItem.noteLine text).toList := by
  unfold CodeItem.noteLine Text.replaceChar
  simp only [String.toList_append, List.mem_append, not_or]
  refine ⟨by decide, ?_⟩
  generalize text.toList = cs
  induction cs with
  | nil => simp
  | cons c cs ih =>
    simp only [List.map_cons, String.join_cons, String.toList_append, List.mem_append, not_or]
    refine ⟨?_, ih⟩
    split
    · decide
    · rename_i hc
      simp only [beq_iff_eq] at hc
      simp [Ne.symm hc]

theorem render_cons (item : CodeItem) (code : Code) :
    Code.render (item :: code) = item.render ++ Code.render code := by
  simp [Code.render]

/-- Reading the lines of printed items from a line number on gives their instructions. -/
theorem readLines_render : ∀ (code : Code) (number : Nat), (∀ item ∈ code, item.Readable) →
      ∃ placed, readLines number (Text.lines (Code.render code)) = .ok placed ∧
        placed.map (·.instr) = code.instructions := by
  intro code
  induction code with
  | nil =>
    intro number _
    exact ⟨[], rfl, rfl⟩
  | cons item code ih =>
    intro number h
    obtain ⟨placed, hplaced, hmap⟩ := ih (number + 1) fun x hx => h x (by simp [hx])
    have hitem := h item (by simp)
    rw [render_cons]
    cases item with
    | instr i =>
      obtain ⟨hop, hclean⟩ := hitem
      have hargs : ∀ w ∈ i.args, Whole w := fun w hw => whole_of_clean (hclean w hw)
      refine ⟨⟨i, number⟩ :: placed, ?_, by simp [hmap]⟩
      rw [CodeItem.render, lines_cons (newline_not_mem_render hargs), readLines,
        readLine_render number hop hargs, hplaced]
      rfl
    | note text =>
      refine ⟨placed, ?_, by simp [hmap]⟩
      rw [CodeItem.render, lines_cons (newline_not_mem_noteLine text), readLines, readLine_noteLine, ← hplaced]
      rfl
    | passage text => exact absurd hitem id

/-- Printed code is read as its instructions. -/
theorem read_render {code : Code} (h : ∀ item ∈ code, item.Readable) :
    ∃ placed, Code.read code.render = .ok placed ∧ placed.map (·.instr) = code.instructions :=
  readLines_render code 1 h

end Code

/-! ## Lines of code -/

namespace Spelling

/-- The operand for a text that is given as bytes, well-formed or not. -/
def ofBytes (bytes : List UInt8) : String := Text.quoteSource (Source.ofBytes bytes)

/-- A letter of a bare word: a letter, a digit, `_` or `%`. Beyond ASCII everything but white space counts
as a letter. -/
def isWordChar (c : Char) : Bool :=
  c.isAlphanum || c == '_' || c == '%' || (0x80 ≤ c.toNat && !Text.isBlank c)

/-- An operand as instructions have them: a literal, an empty container or a bare word. -/
inductive Spelled : String → Prop where
  | int (n : Int) : Spelled (ofInt n)
  | double (v : Binary64) : Spelled (ofDouble v)
  | bool (b : Bool) : Spelled (ofBool b)
  | text (s : String) : Spelled (ofText s)
  | bytes (bs : List UInt8) : Spelled (ofBytes bs)
  | null : Spelled null
  | emptyList : Spelled emptyList
  | emptyDict : Spelled emptyDict
  | word (w : String) (h : ∀ c ∈ w.toList, isWordChar c = true) : Spelled w

theorem plain_of_isWordChar (h : ∀ c ∈ w.toList, isWordChar c = true) : Word.Plain w := by
  intro c hc
  have hw := h c hc
  refine ⟨?_, ?_, ?_⟩
  · rintro rfl
    exact absurd hw (by decide)
  · rintro rfl
    exact absurd hw (by decide)
  · simp only [isWordChar, Char.isAlphanum] at hw
    delta Char.isAlpha Char.isUpper Char.isLower at hw
    simp only [Char.isDigit, Bool.or_eq_true, Bool.and_eq_true, decide_eq_true_eq, beq_iff_eq, Bool.not_eq_true'] at hw
    rcases hw with ((hw | rfl) | rfl) | ⟨-, hw⟩
    · have range : 48 ≤ c.toNat ∧ c.toNat ≤ 122 := by
        have code : ∀ a b : UInt32, a ≤ c.val → c.val ≤ b → a.toNat ≤ c.toNat ∧ c.toNat ≤ b.toNat :=
          fun _ _ ha hb => ⟨ha, hb⟩
        rcases hw with (hw | hw) | hw
        all_goals
          have := code _ _ hw.1 hw.2
          simp at this
          omega
      simp [Text.isBlank]
      omega
    · decide
    · decide
    · exact hw

theorem Spelled.whole (h : Spelled w) : Code.Whole w := by
  cases h with
  | int n => exact Code.whole_of_plain (Word.numeral_ofInt n).plain
  | double v => exact Code.whole_of_plain (Word.numeral_ofDouble v).plain
  | bool b => cases b <;> exact Code.whole_of_plain (by decide)
  | text s => exact Code.whole_of_clean (Word.clean_quote s)
  | bytes bs => exact Code.whole_quoteSource _
  | null => exact Code.whole_of_plain (by decide)
  | emptyList => exact Code.whole_of_plain (by decide)
  | emptyDict => exact Code.whole_of_plain (by decide)
  | word w h => exact Code.whole_of_plain (plain_of_isWordChar h)

end Spelling

/-- A line of a text of code. -/
inductive CodeLine where
  | instr (i : Instruction)
  | note (text : String)
  | blank (space : String)
  deriving DecidableEq, Repr

namespace CodeLine

def text : CodeLine → String
  | instr i => i.render
  | note text => CodeItem.noteLine text
  | blank space => space

def instr? : CodeLine → Option Instruction
  | instr i => some i
  | _ => none

/-- A line as it can stand in code: its operation is known and its operands are spelled as operands are;
a blank line holds white space only. -/
def WellFormed : CodeLine → Prop
  | instr i => i.op ≠ .invalid ∧ ∀ w ∈ i.args, Spelling.Spelled w
  | note _ => True
  | blank space => ∀ c ∈ space.toList, Text.isBlank c = true ∧ c ≠ '\n'

/-- The instructions of lines, numbered from a line on. -/
def placed (number : Nat) (lines : List CodeLine) : List PlacedInstruction :=
  (lines.zipIdx number).filterMap fun (line, n) => line.instr?.map (⟨·, n⟩)

variable {line : CodeLine} {lines : List CodeLine}

theorem placed_cons (number : Nat) (line : CodeLine) (lines : List CodeLine) : placed number (line :: lines) =
      (line.instr?.map fun i => ⟨i, number⟩).toList ++ placed (number + 1) lines := by
  unfold placed
  rw [List.zipIdx_cons, List.filterMap_cons]
  dsimp only
  cases line.instr? <;> rfl

theorem WellFormed.oneLine (h : line.WellFormed) : '\n' ∉ line.text.toList := by
  cases line with
  | instr i => exact Code.newline_not_mem_render fun w hw => (h.2 w hw).whole
  | note text => exact Code.newline_not_mem_noteLine text
  | blank space => exact fun hn => (h _ hn).2 rfl

theorem readLine_blank (number : Nat) {space : String} (h : ∀ c ∈ space.toList, Text.isBlank c = true) :
    Code.readLine number space = .ok none := by
  have empty : Text.trimList space.toList = [] := by
    rw [Text.trimList, List.dropWhile_eq_nil_iff.mpr h]
    rfl
  unfold Code.readLine
  rw [empty]

theorem WellFormed.readLine (h : line.WellFormed) (number : Nat) :
    Code.readLine number line.text = .ok (line.instr?.map (⟨·, number⟩)) := by
  cases line with
  | instr i => exact Code.readLine_render number h.1 fun w hw => (h.2 w hw).whole
  | note text => exact Code.readLine_noteLine number text
  | blank space => exact readLine_blank number fun c hc => (h c hc).1

/-- Lines are read one after another, each with the number it has. -/
theorem readLines_text (number : Nat) (h : ∀ line ∈ lines, line.WellFormed) :
    Code.readLines number (lines.map text) = .ok (placed number lines) := by
  induction lines generalizing number with
  | nil => rfl
  | cons line lines ih =>
    have rest := ih (number + 1) fun l hl => h l (List.mem_cons_of_mem line hl)
    rw [List.map_cons, Code.readLines, (h line List.mem_cons_self).readLine number, placed_cons]
    cases line.instr? with
    | none => exact rest
    | some i =>
      change (do return _ :: (← Code.readLines (number + 1) (lines.map text))) = _
      rw [rest]
      rfl

end CodeLine

namespace Text

/-- Lines that are joined by line breaks are found again. -/
theorem lines_joinWith : ∀ {parts : List String}, parts ≠ [] → (∀ part ∈ parts, '\n' ∉ part.toList) →
    lines (joinWith "\n" parts) = parts
  | [], hne, _ => absurd rfl hne
  | [part], _, h => by
    have single : splitAt (· == '\n') part.toList = [part.toList] := by
      apply splitAt_eq_singleton
      intro c hc
      simp only [beq_eq_false_iff_ne]
      rintro rfl
      exact h part List.mem_cons_self hc
    rw [joinWith, String.intercalate_singleton, lines, splitOn, single]
    simp
  | part :: next :: parts, _, h => by
    have rest := @lines_joinWith (next :: parts) (by simp)
      fun p hp => h p (List.mem_cons_of_mem part hp)
    rw [joinWith, String.intercalate_cons_cons, Code.lines_cons (h part List.mem_cons_self)]
    rw [joinWith] at rest
    rw [rest]

end Text

namespace Code

/-- Reading a text of code gives exactly the instructions of its lines, in order and with their line
numbers. -/
theorem read_joinWith_text {lines : List CodeLine} (h : ∀ line ∈ lines, line.WellFormed) :
    read (Text.joinWith "\n" (lines.map CodeLine.text)) = .ok (CodeLine.placed 1 lines) := by
  by_cases hne : lines = []
  · subst hne
    rfl
  · have oneLine : ∀ part ∈ lines.map CodeLine.text, '\n' ∉ part.toList := by
      intro part hpart
      obtain ⟨line, hline, rfl⟩ := List.mem_map.mp hpart
      exact (h line hline).oneLine
    rw [read, Text.lines_joinWith (by simpa using hne) oneLine]
    exact CodeLine.readLines_text 1 h

/-- A string operand with a comma, a quote, a backslash and a byte that is part of no character, behind
an annotation and a blank line. -/
def sampleLines : List CodeLine :=
  [.note "x: 1\nPUT: 2", .blank "\t",
    .instr ⟨.put, [Spelling.ofBytes [44, 34, 92, 255, 59], "%t0"]⟩, .instr ⟨.finish, []⟩]

theorem read_sampleLines :
    (∀ line ∈ sampleLines, line.WellFormed) ∧
    read (Text.joinWith "\n" (sampleLines.map CodeLine.text)) =
      .ok [⟨⟨.put, [Spelling.ofBytes [44, 34, 92, 255, 59], "%t0"]⟩, 3⟩, ⟨⟨.finish, []⟩, 4⟩] := by
  have wellFormed : ∀ line ∈ sampleLines, line.WellFormed := by
    unfold sampleLines
    simp only [List.forall_mem_cons, CodeLine.WellFormed, true_and]
    exact ⟨by decide, ⟨by decide, .bytes _, .word "%t0" (by decide), by simp⟩,
      ⟨by decide, by simp⟩, by simp⟩
  exact ⟨wellFormed, read_joinWith_text wellFormed⟩

end Code

end Frontend
