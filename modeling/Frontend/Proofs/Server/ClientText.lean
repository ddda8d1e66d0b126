import Mathlib
import Frontend.Proofs.List
import Frontend.Proofs.Text.Bytes
import Frontend.Server.Basic

/-!
# The text of the client

An editor keeps the text of a document and tells the server what it changes. This module says what such
a change means on the side of the editor, where a place is a line and a number of UTF-16 units in it,
and shows that the server has the same text after every change.

The server does not tell a change that names the empty range at the start of a document from one that
names no range, and it counts bytes where the editor counts units. `Understood` leaves both out, and
the last section shows what happens to them.
-/

namespace Frontend

variable {c : Char} {text front back final : List Char} {s s' : Server} {m : ClientMessage}
variable {cs : List Change} {f : Document → Document} {α : Type} {p : Params α} {ms : List ClientMessage}

/-! ## The text of a client -/

namespace ClientText

/-- The text of a client, as it is sent. -/
def encode (text : List Char) : Bytes := .ofText (String.ofList text)

/-- How many units of UTF-16 a character takes. -/
def units (c : Char) : Nat := if c.toNat < 0x10000 then 1 else 2

def linesOf (text : List Char) : List (List Char) := Text.splitAt (· == '\n') text

/-- What stands behind the last line end. -/
def lastLine (text : List Char) : List Char := (linesOf text).getLastD []

/-- The place behind a text: how many line ends it has, and how many units follow the last of them. -/
def place (front : List Char) : TextPosition where
  line := (linesOf front).length - 1
  character := ((lastLine front).map units).sum

/-- Whether a character belongs to ASCII. -/
def isAscii (c : Char) : Bool := c.toNat < 128

/-- A change of a client: a range, if it names one, the length that it gives for the range, and the
new text. -/
structure Change where
  range : Option TextRange := none
  rangeLength : Nat := 0
  text : List Char
  deriving DecidableEq

/-- A change as the server receives it. A range that is not named is all zeros there. -/
def Change.sent (c : Change) : TextChange where
  range := c.range.getD {}
  rangeLength := c.rangeLength
  text := encode c.text

/-- What a change means to the client. One without a range gives the whole text; one with a range
replaces what stands between its two places. -/
inductive Edits : List Char → Change → List Char → Prop
  | whole (old new : List Char) : Edits old { text := new } new
  | part (front cut back new : List Char) (rangeLength : Nat) :
    Edits (front ++ cut ++ back)
      { range := some ⟨place front, place (front ++ cut)⟩, rangeLength, text := new }
      (front ++ new ++ back)

/-- Changes that the server takes as the client means them. A change that names a range has to be told
from a change that names none, its lines have to end in line feeds, and in front of its places, the
lines have to be ASCII. -/
structure Understood (text : List Char) (c : Change) : Prop where
  named : c.range = some {} → c.rangeLength = 0 → text = []
  lineFeeds : c.range.isSome → '\r' ∉ text
  ascii : ∀ r ∈ c.range, ∀ front back, text = front ++ back →
    place front = r.start ∨ place front = r.finish → (lastLine front).all isAscii

/-- Changes that are made one after another, all of them understood. -/
inductive Follows : List Char → List Change → List Char → Prop
  | nil (text : List Char) : Follows text [] text
  | cons {text next final : List Char} {c : Change} {cs : List Change} (hc : Edits text c next)
    (hu : Understood text c) (hcs : Follows next cs final) : Follows text (c :: cs) final

/-! ## Characters and bytes -/

/-- The bytes of an array, read one after another. -/
theorem toList_loop (bs : ByteArray) (i : Nat) (read : List UInt8) :
    ByteArray.toList.loop bs i read = read.reverse ++ bs.data.toList.drop i := by
  fun_induction ByteArray.toList.loop bs i read with
  | case1 i read hi ih =>
    have hl : i < bs.data.toList.length := by simpa using hi
    rw [ih, List.drop_eq_getElem_cons hl]
    simp [ByteArray.get!, hi]
  | case2 i read hi =>
    have hd : bs.data.toList.drop i = [] := List.drop_eq_nil_of_le (by
      simpa using Nat.le_of_not_lt hi)
    rw [hd, List.append_nil]

/-- The bytes of a text are those of its characters. -/
theorem encode_eq (text : List Char) : encode text = text.flatMap String.utf8EncodeChar := by
  rw [encode, Bytes.ofText, String.toUTF8_eq_toByteArray, String.toByteArray_ofList, ByteArray.toList, toList_loop]
  simp [List.utf8Encode, List.data_toByteArray]

theorem encode_append (a b : List Char) : encode (a ++ b) = encode a ++ encode b := by
  simp only [encode_eq, List.flatMap_append]

theorem encode_cons (c : Char) (text : List Char) :
    encode (c :: text) = String.utf8EncodeChar c ++ encode text := by
  simp only [encode_eq, List.flatMap_cons]

@[simp] theorem encode_nil : encode [] = [] := by
  rw [encode_eq, List.flatMap_nil]

/-- A byte that is not the number of a character below 128 is no byte of a text without it. -/
theorem not_mem_encode {b : UInt8} (hb : b.toNat = c.toNat) (hlt : b.toNat < 128) (h : c ∉ text) :
    b ∉ encode text := by
  rw [encode_eq, List.mem_flatMap]
  rintro ⟨d, hd, hbd⟩
  have hcd : c.toNat = d.toNat := hb ▸ toNat_of_mem_utf8EncodeChar hbd hlt
  exact h (Char.toNat_inj.mp hcd ▸ hd)

/-- An ASCII character takes one byte. -/
theorem length_utf8EncodeChar_of_isAscii (h : isAscii c) : (String.utf8EncodeChar c).length = 1 := by
  have hc : c.val.toNat ≤ 127 := Nat.le_of_lt_succ (of_decide_eq_true h)
  simp only [String.utf8EncodeChar, if_pos hc, List.length_singleton]

/-- An ASCII text has as many units as bytes. -/
theorem length_encode_of_isAscii (h : text.all isAscii) : (encode text).length = (text.map units).sum := by
  induction text with
  | nil => simp
  | cons c text ih =>
    obtain ⟨hc, ht⟩ : isAscii c ∧ text.all isAscii := by simpa using h
    have hu : units c = 1 := if_pos (Nat.lt_trans (of_decide_eq_true hc) (by decide))
    rw [encode_cons, List.length_append, length_utf8EncodeChar_of_isAscii hc, ih ht, List.map_cons,
      List.sum_cons, hu]

/-! ## The lines of the server -/

/-- Without carriage returns, there is nothing to unify. -/
theorem unifyLines_eq {content : Bytes} (h : TextEdit.carriageReturn ∉ content) :
    TextEdit.unifyLines content = content := by
  have hzip : ((content.zip (content.drop 1 ++ [0])).map Prod.fst) = content :=
    List.map_fst_zip (by simp; omega)
  have hne : ∀ x ∈ content.zip (content.drop 1 ++ [0]), x.1 ≠ TextEdit.carriageReturn := by
    intro x hx he
    exact h (he ▸ (List.of_mem_zip (a := x.1) (b := x.2) hx).1)
  simp only [TextEdit.unifyLines]
  rw [List.filter_eq_self.mpr fun x hx => by simp [hne x hx]]
  calc
    _ = (content.zip (content.drop 1 ++ [0])).map Prod.fst :=
      List.map_congr_left fun x hx => by simp [hne x hx]
    _ = content := hzip

/-- The lines of the server are those of the client. -/
theorem splitAt_encode (text : List Char) :
    Text.splitAt (· == Frame.newline) (encode text) = (linesOf text).map encode := by
  induction text with
  | nil => simp [linesOf]
  | cons c text ih =>
    rw [linesOf, Text.splitAt_cons, encode_cons]
    split
    next hc =>
      obtain rfl : c = '\n' := eq_of_beq hc
      have hnl : String.utf8EncodeChar '\n' = [Frame.newline] := by decide
      rw [hnl, List.singleton_append, Text.splitAt_cons, ih]
      simp [linesOf]
    next hc =>
      have hne : ∀ b ∈ String.utf8EncodeChar c, (b == Frame.newline) = false := by
        intro b hb
        rw [beq_eq_false_iff_ne]
        rintro rfl
        have hn := toNat_of_mem_utf8EncodeChar hb (by decide)
        exact hc (beq_iff_eq.mpr (Char.toNat_inj.mp hn.symm))
      cases hs : Text.splitAt (· == '\n') text with
      | nil => exact absurd hs (Text.splitAt_ne_nil _ text)
      | cons line lines =>
        rw [linesOf, hs, List.map_cons] at ih
        have hone : Text.splitAt (· == Frame.newline) (String.utf8EncodeChar c) =
            [] ++ [String.utf8EncodeChar c] := Text.splitAt_eq_singleton hne
        rw [Text.splitAt_append hone ih]
        simp [Text.prepend, encode_cons]

/-- A text is its lines up to the last, and the last. -/
theorem linesOf_eq (text : List Char) : linesOf text = (linesOf text).dropLast ++ [lastLine text] := by
  have h : linesOf text ≠ [] := Text.splitAt_ne_nil _ text
  rw [lastLine, List.getLastD_eq_getLast?, List.getLast?_eq_getLast_of_ne_nil h, Option.getD_some,
    List.dropLast_append_getLast h]

/-- Where two texts meet, the server has the lines of the first up to the place behind it, and then
those of the second. -/
theorem lines_encode_append (h : '\r' ∉ front ++ back) : ∃ (init : List Bytes) (first : Bytes) (rest : List Bytes),
      TextEdit.lines (encode (front ++ back)) = init ++ (encode (lastLine front) ++ first) :: rest ∧
      init.length = (place front).line ∧
      init.flatMap (· ++ [Frame.newline]) ++ encode (lastLine front) = encode front ∧
      first ++ rest.flatMap (Frame.newline :: ·) = encode back := by
  have hcr : TextEdit.carriageReturn ∉ encode (front ++ back) :=
    not_mem_encode (by decide) (by decide) h
  have hfront : Text.splitAt (· == Frame.newline) (encode front) =
      (linesOf front).dropLast.map encode ++ [encode (lastLine front)] := by
    rw [splitAt_encode]
    nth_rw 1 [linesOf_eq front]
    rw [List.map_append, List.map_singleton]
  cases hback : Text.splitAt (· == Frame.newline) (encode back) with
  | nil => exact absurd hback (Text.splitAt_ne_nil _ _)
  | cons first rest =>
    refine ⟨(linesOf front).dropLast.map encode, first, rest, ?_, ?_, ?_, ?_⟩
    · rw [TextEdit.lines, unifyLines_eq hcr, encode_append, Text.splitAt_append hfront hback]
    · rw [List.length_map, List.length_dropLast, place]
    · exact Text.join_splitAt_init hfront
    · exact Text.join_splitAt hback

/-! ## One change -/

/-- What stands behind the last line end belongs to the text. -/
theorem mem_of_mem_lastLine (hc : c ∈ lastLine text) : c ∈ text := by
  rw [← Text.join_splitAt_init (linesOf_eq text)]
  exact List.mem_append_right _ hc

/-- In an ASCII text with line feeds, only the empty range at the start is misunderstood. -/
theorem understood_of_isAscii {c : Change} (hcr : '\r' ∉ text) (ha : text.all isAscii)
    (hr : c.range ≠ some {}) : Understood text c where
  named h := absurd h hr
  lineFeeds _ := hcr
  ascii r _ front back htext _ := by
    rw [htext, List.all_append, Bool.and_eq_true] at ha
    exact List.all_eq_true.mpr fun d hd => List.all_eq_true.mp ha.1 d (mem_of_mem_lastLine hd)

/-- What the server finds in front of a place, and behind it. -/
theorem around_place (hcr : '\r' ∉ front ++ back) (ha : (lastLine front).all isAscii) :
    let ls := TextEdit.lines (encode (front ++ back))
    let n := min (place front).line (ls.length - 1)
    (ls.take n).flatMap (· ++ [Frame.newline]) ++ (ls.getD n []).take (place front).character =
        encode front ∧
      (ls.getD n []).drop (place front).character ++ (ls.drop (n + 1)).flatMap (Frame.newline :: ·) =
        encode back := by
  intro ls n
  obtain ⟨init, first, rest, hls, hlen, hfront, hback⟩ := lines_encode_append hcr
  have hn : n = init.length := by
    simp only [n, ls, hls, ← hlen, List.length_append, List.length_cons]
    omega
  have hc : (place front).character = (encode (lastLine front)).length :=
    (length_encode_of_isAscii ha).symm
  have hline : ls.getD n [] = encode (lastLine front) ++ first := by
    simp [ls, hls, hn]
  have htake : ls.take n = init := by simp [ls, hls, hn]
  have hdrop : ls.drop (n + 1) = rest := by
    simp [ls, hls, hn, List.drop_append]
  rw [hline, htake, hdrop, hc, List.take_left, List.drop_left]
  exact ⟨hfront, hback⟩

/-- The server replaces what stands between two places. -/
theorem replace_encode {cut : List Char} (new : List Char) (hcr : '\r' ∉ front ++ cut ++ back)
    (hs : (lastLine front).all isAscii) (hf : (lastLine (front ++ cut)).all isAscii) :
    TextEdit.replace (encode (front ++ cut ++ back)) ⟨place front, place (front ++ cut)⟩ (encode new) =
      encode (front ++ new ++ back) := by
  obtain ⟨-, hback⟩ := around_place hcr hf
  rw [List.append_assoc] at hcr
  obtain ⟨hfront, -⟩ := around_place hcr hs
  rw [← List.append_assoc] at hfront
  rw [TextEdit.replace, hfront, List.append_assoc _ (List.drop _ _), hback, encode_append, encode_append]

/-- A change that is understood does to the text of the server what it does to that of the client. -/
theorem apply_sent {next : List Char} {c : Change} (hc : Edits text c next) (hu : Understood text c) :
    TextEdit.apply (encode text) c.sent = encode next := by
  cases hc with
  | whole old new => rfl
  | part front cut back new rangeLength =>
    by_cases hw : TextEdit.isWhole (Change.sent
        { range := some ⟨place front, place (front ++ cut)⟩, rangeLength, text := new })
    · -- The range is all zeros, which is right only for the empty text.
      obtain ⟨hr, hl⟩ : (⟨place front, place (front ++ cut)⟩ : TextRange) = {} ∧ rangeLength = 0 := by
        simpa [TextEdit.isWhole, Change.sent] using hw
      have hempty := hu.named (congrArg some hr) hl
      simp only [List.append_eq_nil_iff] at hempty
      obtain ⟨⟨rfl, rfl⟩, rfl⟩ := hempty
      rw [TextEdit.apply, if_pos hw]
      simp [Change.sent]
    · rw [TextEdit.apply, if_neg hw]
      refine replace_encode new (hu.lineFeeds rfl) ?_ ?_
      · exact hu.ascii _ rfl front (cut ++ back) (List.append_assoc ..) (.inl rfl)
      · exact hu.ascii _ rfl (front ++ cut) back rfl (.inr rfl)

/-- Changes that are understood, one after another. -/
theorem foldl_apply_sent (h : Follows text cs final) :
    (cs.map Change.sent).foldl TextEdit.apply (encode text) = encode final := by
  induction h with
  | nil text => rfl
  | cons hc hu _ ih => rw [List.map_cons, List.foldl_cons, apply_sent hc hu, ih]

/-! ## The server -/

/-- A message by which a client tells of changes of a document. -/
structure Revision where
  uri : String
  changes : List Change
  version : Int

def Revision.SentAs (r : Revision) (m : ClientMessage) : Prop :=
  m.method = "textDocument/didChange" ∧
    m.params.bind Params.changed.read? = some (r.uri, r.changes.map Change.sent, r.version)

/-- A document of the server after a revision, not yet analysed. -/
def Revision.revised (r : Revision) (d : Document) : Document :=
  { d with
    content := (r.changes.map Change.sent).foldl TextEdit.apply d.content
    version := r.version }

/-- The changes of one document in a series of revisions. -/
def changesOf (uri : String) (rs : List Revision) : List Change :=
  (rs.filter (·.uri == uri)).flatMap Revision.changes

theorem Follows.split {ds : List Change} (h : Follows text (cs ++ ds) final) :
    ∃ next, Follows text cs next ∧ Follows next ds final := by
  induction cs generalizing text with
  | nil => exact ⟨text, .nil text, h⟩
  | cons c cs ih =>
    cases h with
    | cons hc hu hcs =>
      obtain ⟨next, h₁, h₂⟩ := ih hcs
      exact ⟨next, .cons hc hu h₁, h₂⟩

end ClientText

namespace Server

open ClientText

/-- Handles messages one after another. -/
def handleAll (s : Server) : List ClientMessage → Except String Server
  | [] => .ok s
  | m :: ms => s.handle m >>= fun (s, _) => s.handleAll ms

def content? (s : Server) (uri : String) : Option Bytes := (s.document? uri).map (·.content)

/-- Every document is kept under its own address. -/
def Filed (s : Server) : Prop := ∀ uri d, s.document? uri = some d → d.uri = uri

/-- Analysing a document leaves its address and its text as they are. -/
theorem analyze_content (d : Document) (w : World) (lang : Language) (builtins : Registry) :
    (d.analyze w lang builtins).content = d.content ∧ (d.analyze w lang builtins).uri = d.uri := by
  simp only [Document.analyze]
  repeat' split
  all_goals exact ⟨rfl, rfl⟩

/-- A document that is kept is found again, and no other is touched. -/
theorem document?_keep (s : Server) (d : Document) (uri : String) : (s.keep d).document? uri =
      if uri = d.uri then some (d.analyze s.world s.lang s.builtins) else s.document? uri := by
  have hu := (analyze_content d s.world s.lang s.builtins).2
  simp only [Server.keep, Server.document?, hu, lookup_cons_eq]
  split
  · rfl
  next h =>
    rw [lookup_filter (fun name => name != d.uri)]
    simp [h]

theorem filed_keep (h : s.Filed) (d : Document) : (s.keep d).Filed := by
  intro uri e he
  rw [document?_keep] at he
  split at he
  next hu =>
    obtain rfl := Option.some.inj he
    rw [(analyze_content d _ _ _).2, hu]
  next => exact h uri e he

/-- What a revision does to the documents. -/
theorem document?_revise (h : s.Filed) (hf : ∀ d, (f d).uri = d.uri) (uri uri' : String) :
    (s.revise uri f).1.document? uri' =
      if uri' = uri then (s.document? uri).map fun d => (f d).analyze s.world s.lang s.builtins
      else s.document? uri' := by
  simp only [revise]
  cases hd : s.document? uri with
  | none =>
    split
    next hu => simpa [hu] using hd
    next => rfl
  | some d =>
    have hu : (f d).uri = uri := (hf d).trans (h uri d hd)
    simp only [Option.map_some, Option.getD_some, document?_keep, hu]

theorem filed_revise (h : s.Filed) (hf : ∀ d, (f d).uri = d.uri) (uri : String) : (s.revise uri f).1.Filed := by
  intro uri' e he
  rw [document?_revise h hf] at he
  split at he
  next hu =>
    obtain ⟨d, hd, rfl⟩ := Option.map_eq_some_iff.mp he
    rw [(analyze_content _ _ _ _).2, hf, hu]
    exact h uri d hd
  next => exact h uri' e he

/-- A request that is answered leaves the server as it is. -/
theorem answered_eq_ok {f : α → Except String Json} {sent : List Json} (h : s.answered m p f = .ok (s', sent)) :
    s' = s := by
  unfold answered at h
  split at h
  · exact (Prod.mk.inj (Except.ok.inj h)).1.symm
  next a _ =>
    obtain ⟨j, -, h⟩ := bind_ok h
    exact (Prod.mk.inj (Except.ok.inj h)).1.symm

/-- A notification whose parameters cannot be read leaves the server as it is. -/
theorem noted_eq_ok {params : Option Json} {f : α → Except String (Server × List Json)} {sent : List Json}
    (h : s.noted p params f = .ok (s', sent)) : s' = s ∨ ∃ a, f a = .ok (s', sent) := by
  unfold noted at h
  cases hp : params.bind p.read? with
  | none =>
    rw [hp] at h
    exact .inl (Prod.mk.inj (Except.ok.inj h)).1.symm
  | some a =>
    rw [hp] at h
    exact .inr ⟨a, h⟩

/-- Every message leaves the documents under their own addresses. -/
theorem filed_handle {sent : List Json} (hs : s.Filed) (h : s.handle m = .ok (s', sent)) : s'.Filed := by
  unfold handle at h
  split at h
  case h_1 => exact answered_eq_ok h ▸ hs
  case h_2 => exact (Prod.mk.inj (Except.ok.inj h)).1 ▸ hs
  case h_3 =>
    obtain rfl | ⟨⟨uri, content, version⟩, ha⟩ := noted_eq_ok h
    · exact hs
    · dsimp only at ha
      obtain ⟨path, -, ha⟩ := bind_ok ha
      exact (Prod.mk.inj (Except.ok.inj ha)).1 ▸ filed_keep hs _
  case h_4 =>
    obtain rfl | ⟨⟨uri, changes, version⟩, ha⟩ := noted_eq_ok h
    · exact hs
    · have hr := filed_revise hs (f := fun d =>
        { d with content := changes.foldl TextEdit.apply d.content, version }) (fun _ => rfl) uri
      rw [Except.ok.inj ha] at hr
      exact hr
  case h_5 =>
    obtain rfl | ⟨uri, ha⟩ := noted_eq_ok h
    · exact hs
    · obtain rfl := (Prod.mk.inj (Except.ok.inj ha)).1
      intro uri' d hd
      rw [document?, lookup_filter (fun name => name != uri)] at hd
      split at hd
      · exact hs uri' d hd
      · exact nomatch hd
  case h_6 =>
    obtain rfl | ⟨⟨uri, content⟩, ha⟩ := noted_eq_ok h
    · exact hs
    · dsimp only at ha
      split at ha
      · exact (Prod.mk.inj (Except.ok.inj ha)).1 ▸ hs
      · have hr := filed_revise hs (f := fun d => { d with content, version := d.version + 1 })
          (fun _ => rfl) uri
        rw [Except.ok.inj ha] at hr
        exact hr
  case h_7 => exact answered_eq_ok h ▸ hs
  case h_8 => exact answered_eq_ok h ▸ hs
  all_goals exact (Prod.mk.inj (Except.ok.inj h)).1 ▸ hs

theorem handleAll_cons_eq_ok : s.handleAll (m :: ms) = .ok s' ↔
      ∃ next sent, s.handle m = .ok (next, sent) ∧ next.handleAll ms = .ok s' := by
  rw [handleAll]
  cases s.handle m with
  | error e => simp [bind, Except.bind]
  | ok r =>
    obtain ⟨next, sent⟩ := r
    simp [bind, Except.bind]

/-- A server that starts without documents always has them under their own addresses. -/
theorem filed_handleAll (hs : s.Filed) (h : s.handleAll ms = .ok s') : s'.Filed := by
  induction ms generalizing s with
  | nil => exact Except.ok.inj h ▸ hs
  | cons m ms ih =>
    obtain ⟨next, sent, hm, hms⟩ := handleAll_cons_eq_ok.mp h
    exact ih (filed_handle hs hm) hms

/-- A message that tells of a revision does to a document what the client did to it. -/
theorem content?_handle {uri : String} {r : Revision} (hs : s.Filed) (hm : r.SentAs m)
    (ht : s.content? uri = some (encode text)) (hf : Follows text (changesOf uri [r]) final) :
    ∃ s' sent, s.handle m = .ok (s', sent) ∧ s'.content? uri = some (encode final) := by
  obtain ⟨hmethod, hparams⟩ := hm
  have hh : s.handle m = .ok (s.revise r.uri r.revised) := by
    simp only [handle, hmethod, noted, hparams, Option.map_some, Option.getD_some]
    rfl
  refine ⟨(s.revise r.uri r.revised).1, (s.revise r.uri r.revised).2, hh, ?_⟩
  rw [content?, document?_revise hs (f := r.revised) fun _ => rfl]
  split
  next hu =>
    subst hu
    obtain ⟨d, hd, hcontent⟩ := Option.map_eq_some_iff.mp ht
    have hchanges : changesOf r.uri [r] = r.changes := by simp [changesOf]
    rw [hchanges] at hf
    simp only [hd, Option.map_some, analyze_content, Revision.revised, hcontent, foldl_apply_sent hf]
  next hu =>
    have hchanges : changesOf uri [r] = [] := by simp [changesOf, Ne.symm hu]
    rw [hchanges] at hf
    cases hf
    exact ht

/-- **The text of the server is the text of the client.** When a document is open and both have the same
text, they have the same text after every series of changes of documents, as long as the changes of this
one are understood. -/
theorem same_text_of_revisions {start s : Server} {before ms : List ClientMessage}
    {rs : List Revision} {uri : String} {text final : List Char} (hstart : start.documents = [])
    (hbefore : start.handleAll before = .ok s) (ht : s.content? uri = some (encode text))
    (hms : List.Forall₂ Revision.SentAs rs ms) (hf : Follows text (changesOf uri rs) final) :
    ∃ s', s.handleAll ms = .ok s' ∧ s'.content? uri = some (encode final) := by
  have hs : s.Filed := filed_handleAll (fun uri d hd => by simp [document?, hstart] at hd) hbefore
  clear hbefore
  induction hms generalizing s text with
  | nil =>
    cases hf
    exact ⟨s, rfl, ht⟩
  | @cons r m rs ms hm _ ih =>
    have hsplit : changesOf uri (r :: rs) = changesOf uri [r] ++ changesOf uri rs := by
      simp only [changesOf, ← List.flatMap_append, ← List.filter_append, List.singleton_append]
    rw [hsplit] at hf
    obtain ⟨middle, hfirst, hrest⟩ := hf.split
    obtain ⟨next, sent, hnext, hcontent⟩ := content?_handle hs hm ht hfirst
    obtain ⟨s', hs', hfinal⟩ := ih hcontent hrest (filed_handle hs hnext)
    exact ⟨s', handleAll_cons_eq_ok.mpr ⟨next, sent, hnext, hs'⟩, hfinal⟩

def sampleOpening : ClientMessage where
  method := "textDocument/didOpen"
  params := some (.obj [("textDocument", .obj [
    ("uri", .str "file:///a"), ("version", .num "1"), ("text", .str "a = 1\nb = 2")])])

/-- A message that replaces a part of its second line. -/
def sampleRevision : ClientMessage where
  method := "textDocument/didChange"
  params := some (.obj [ ("textDocument", .obj [("uri", .str "file:///a"), ("version", .num "2")]),
    ("contentChanges", .arr [.obj [ ("range", .obj [ ("start", .obj [("line", .num "1"), ("character", .num "4")]),
        ("end", .obj [("line", .num "1"), ("character", .num "5")])]), ("text", .str "30")]])])

def sampleChange : Change where
  range := some ⟨⟨1, 4⟩, ⟨1, 5⟩⟩
  text := "30".toList

theorem same_text_of_sampleRevision :
    ∃ s s', ({} : Server).handleAll [sampleOpening] = .ok s ∧ s.handleAll [sampleRevision] = .ok s' ∧
      s'.content? "file:///a" = some (encode "a = 1\nb = 30".toList) := by
  let d : Document :=
    { uri := "file:///a", path := "/a", content := encode "a = 1\nb = 2".toList, version := 1 }
  have hparams : sampleOpening.params.bind Params.opened.read? =
      some ("file:///a", encode "a = 1\nb = 2".toList, 1) := by decide +kernel
  have hopen : ({} : Server).handleAll [sampleOpening] = .ok (({} : Server).keep d) := by
    have hpath : pathOf "file:///a" = .ok "/a" := by decide +kernel
    refine handleAll_cons_eq_ok.mpr ⟨_, (({} : Server).keep d).published "file:///a", ?_, rfl⟩
    have hmethod : sampleOpening.method = "textDocument/didOpen" := rfl
    simp only [handle, hmethod, noted, hparams, hpath, Option.map_some, Option.getD_some]
    rfl
  have htext : (({} : Server).keep d).content? "file:///a" =
      some (encode "a = 1\nb = 2".toList) := by
    rw [content?, document?_keep, if_pos rfl, Option.map_some, (analyze_content ..).1]
  have hsent : List.Forall₂ Revision.SentAs
      [{ uri := "file:///a", changes := [sampleChange], version := 2 }] [sampleRevision] :=
    .cons ⟨rfl, by decide +kernel⟩ .nil
  have hedit : Edits "a = 1\nb = 2".toList sampleChange "a = 1\nb = 30".toList :=
    .part "a = 1\nb = ".toList "2".toList [] "30".toList 0
  have hfollows : Follows "a = 1\nb = 2".toList
      (changesOf "file:///a" [{ uri := "file:///a", changes := [sampleChange], version := 2 }])
      "a = 1\nb = 30".toList :=
    .cons hedit (understood_of_isAscii (by decide) (by decide) (by decide)) (.nil _)
  obtain ⟨s', hs', hcontent⟩ := same_text_of_revisions rfl hopen htext hsent hfollows
  exact ⟨_, s', hopen, hs', hcontent⟩

end Server

/-! ## Changes that are misunderstood -/

namespace ClientText

/-- The change that puts a text somewhere without taking anything away. -/
def insertion (front new : List Char) : Change where
  range := some ⟨place front, place front⟩
  text := new

theorem edits_insertion (front back new : List Char) :
    Edits (front ++ back) (insertion front new) (front ++ new ++ back) := by
  simpa [insertion] using Edits.part front [] back new 0

/-- Whatever is put at the start of a document takes the place of all of it. -/
theorem apply_insertion_start (text new : List Char) :
    TextEdit.apply (encode text) (insertion [] new).sent = encode new := rfl

/-- Two changes that the server does not make as the client does: one puts a text at the start of a
document, the other behind a character that is not ASCII. -/
theorem apply_insertion_ne :
    (Edits ['b'] (insertion [] ['a']) ['a', 'b'] ∧
      TextEdit.apply (encode ['b']) (insertion [] ['a']).sent ≠ encode ['a', 'b']) ∧
    Edits ['é'] (insertion ['é'] ['a']) ['é', 'a'] ∧
      TextEdit.apply (encode ['é']) (insertion ['é'] ['a']).sent ≠ encode ['é', 'a'] := by
  refine ⟨⟨edits_insertion [] ['b'] ['a'], ?_⟩, edits_insertion ['é'] [] ['a'], ?_⟩
  · rw [apply_insertion_start, encode_eq, encode_eq]
    decide
  · simp only [Change.sent, insertion, encode_eq]
    decide

end ClientText

end Frontend
