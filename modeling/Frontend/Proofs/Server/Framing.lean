import Frontend.Proofs.Code.ReadBack
import Frontend.Proofs.Server.ClientText

/-!
# Frames on a stream

A message is written with its length in front, and what is read back from a stream of frames is what
was written, whatever the messages are made of. What is read from a stream that nobody vouches for is
told by its header lines alone: those up to the first blank one, or up to the first that announces a
length that is no number.

A length is taken as it is announced. One that is negative, or larger than there can be room for, is
not answered as a fault of the frame: it ends the server.
-/

namespace Frontend.Frame

variable {line bytes rest body : Bytes}
variable {text : List Char} {lines : List Bytes} {head : Header} {n : Int}

/-! ## Lines of a stream -/

/-- Lines, each with the byte that ends it. -/
def ended (lines : List Bytes) : Bytes := lines.flatMap (· ++ [newline])

@[simp] theorem ended_cons (line : Bytes) (lines : List Bytes) :
    ended (line :: lines) = line ++ newline :: ended lines := by
  simp [ended]

/-- The first line of a stream is what stands in front of its first newline. -/
theorem line?_line (h : newline ∉ line) (rest : Bytes) : line? (line ++ newline :: rest) = some (line, rest) := by
  have hline : ∀ b ∈ line, (b != newline) = true := fun b hb =>
    bne_iff_ne.mpr fun he => h (he ▸ hb)
  rw [line?, List.dropWhile_append_of_pos hline, List.takeWhile_append_of_pos hline]
  simp

theorem line?_eq_some (h : line? bytes = some (line, rest)) : newline ∉ line ∧ bytes = line ++ newline :: rest := by
  have hcut := List.takeWhile_append_dropWhile (p := (· != newline)) (l := bytes)
  rw [line?] at h
  split at h
  · cases h
  next stop tail heq =>
    cases h
    have hstop : stop = newline := by
      have hne := List.head_dropWhile_not (p := (· != newline)) (l := bytes) (by simp [heq])
      simpa [heq] using hne
    refine ⟨fun hmem => ?_, by conv_lhs => rw [← hcut, heq, hstop]⟩
    simpa using List.mem_takeWhile_imp hmem

theorem line?_eq_none : line? bytes = none ↔ newline ∉ bytes := by
  have hdrop : line? bytes = none ↔ bytes.dropWhile (· != newline) = [] := by
    rw [line?]
    cases bytes.dropWhile (· != newline) <;> simp
  rw [hdrop, List.dropWhile_eq_nil_iff]
  constructor
  · intro h hmem
    simpa using h newline hmem
  · intro h b hb
    exact bne_iff_ne.mpr fun he => h (he ▸ hb)

/-! ## Header lines -/

/-- ASCII text is read from its bytes. -/
theorem shown_encode (h : text.all ClientText.isAscii) :
    (Source.ofBytes (ClientText.encode text)).shown = String.ofList text := by
  have hread : Source.ofBytes (ClientText.encode text) = text.map .char := by
    induction text with
    | nil => rw [ClientText.encode_nil, Source.ofBytes, List.map_nil]
    | cons c text ih =>
      obtain ⟨hc, ht⟩ : ClientText.isAscii c ∧ text.all ClientText.isAscii := by simpa using h
      have hlt : c.toNat < 128 := of_decide_eq_true hc
      have hbyte : String.utf8EncodeChar c = [UInt8.ofNat c.toNat] := by
        rw [← Char.ofNat_toNat c, Source.utf8EncodeChar_ofNat (.inl (by omega)),
          if_pos (by simpa using Nat.le_of_lt_succ hlt)]
        simp
      have hhead : ∀ rest, Source.decodeHead (UInt8.ofNat c.toNat) rest = some (c, 0) := by
        intro rest
        have hnat : (UInt8.ofNat c.toNat).toNat = c.toNat := by
          rw [UInt8.toNat_ofNat']
          omega
        unfold Source.decodeHead
        rw [if_pos (UInt8.lt_iff_toNat_lt.mpr (by rw [hnat]; exact hlt)), hnat, Char.ofNat_toNat]
      rw [ClientText.encode_cons, hbyte, List.singleton_append, Source.ofBytes, hhead]
      simp [ih ht]
  rw [hread, Source.shown, List.map_map]
  congr 1
  exact List.map_id text

theorem headerLine_return : headerLine (ClientText.encode ['\r']) = .blank := by
  have htext : lineText (ClientText.encode ['\r']) = "" := by
    rw [lineText, shown_encode (by decide)]
    decide
  rw [headerLine, htext]
  rfl

/-- The length that a header line announces. -/
def HeaderLine.length? : HeaderLine → Option Int
  | .length n => some n
  | _ => none

/-- Whether the header goes on behind a line. -/
def HeaderLine.goesOn : HeaderLine → Bool
  | .length _ | .other => true
  | .blank | .wrong => false

/-- The length that header lines announce: that of the last line that names one, `n` if none does. -/
def announced (n : Int) (lines : List Bytes) : Int :=
  ((lines.filterMap fun line => (headerLine line).length?).getLast?).getD n

theorem announced_cons (n : Int) (line : Bytes) (lines : List Bytes) :
    announced n (line :: lines) = announced ((headerLine line).length?.getD n) lines := by
  cases hl : (headerLine line).length? with
  | none => simp [announced, hl]
  | some m => simp [announced, hl, List.getLast?_cons]

/-- Lines behind which the header goes on. -/
structure AreHeads (lines : List Bytes) : Prop where
  oneLine : ∀ line ∈ lines, newline ∉ line
  goesOn : ∀ line ∈ lines, (headerLine line).goesOn

theorem AreHeads.nil : AreHeads [] := ⟨by simp, by simp⟩

theorem AreHeads.cons (hl : newline ∉ line) (hgo : (headerLine line).goesOn) (h : AreHeads lines) :
    AreHeads (line :: lines) :=
  ⟨List.forall_mem_cons.mpr ⟨hl, h.oneLine⟩, List.forall_mem_cons.mpr ⟨hgo, h.goesOn⟩⟩

/-- What a stream begins with: header lines up to a blank one, header lines up to one with a length
that is no number, or nothing but header lines, the last of them not ended. -/
inductive Begins : Bytes → Header → Prop
  | complete {lines : List Bytes} {blank : Bytes} (rest : Bytes) (h : AreHeads lines)
    (hl : newline ∉ blank) (hblank : headerLine blank = .blank) :
    Begins (ended lines ++ (blank ++ newline :: rest)) (.complete (announced 0 lines) rest)
  | faulty {lines : List Bytes} {wrong : Bytes} (rest : Bytes) (h : AreHeads lines)
    (hl : newline ∉ wrong) (hwrong : headerLine wrong = .wrong) :
    Begins (ended lines ++ (wrong ++ newline :: rest)) (.faulty rest)
  | starved {lines : List Bytes} {rest : Bytes} (h : AreHeads lines) (hr : newline ∉ rest) :
    Begins (ended lines ++ rest) .starved

section HeaderBy

variable {say : Bytes → HeaderLine}

theorem headerBy_line (h : newline ∉ line) (n : Int) (rest : Bytes) : headerBy say n (line ++ newline :: rest) =
      match say line with
      | .blank => .complete n rest
      | .wrong => .faulty rest
      | .length m => headerBy say m rest
      | .other => headerBy say n rest := by
  rw [headerBy]
  split
  next hnone => rw [line?_line h] at hnone; cases hnone
  next hsome =>
    rw [line?_line h] at hsome
    cases hsome
    rfl

theorem headerBy_of_not_mem (h : newline ∉ bytes) (n : Int) : headerBy say n bytes = .starved := by
  rw [headerBy]
  split
  next => rfl
  next hsome => rw [line?_eq_none.mpr h] at hsome; cases hsome

end HeaderBy

/-- Lines behind which the header goes on are passed over, and the last length among them is kept. -/
theorem headerBy_ended (h : AreHeads lines) (n : Int) (rest : Bytes) :
    headerBy headerLine n (ended lines ++ rest) = headerBy headerLine (announced n lines) rest := by
  induction lines generalizing n with
  | nil => rfl
  | cons line lines ih =>
    obtain ⟨hl, hls⟩ := List.forall_mem_cons.mp h.oneLine
    obtain ⟨hgo, hgos⟩ := List.forall_mem_cons.mp h.goesOn
    rw [ended_cons, List.append_assoc, List.cons_append, headerBy_line hl, announced_cons, ← ih ⟨hls, hgos⟩]
    cases hsay : headerLine line with
    | blank | wrong => simp [hsay, HeaderLine.goesOn] at hgo
    | length m | other => rfl

theorem Begins.header (h : Begins bytes head) : header bytes = head := by
  cases h with
  | complete rest h hl hblank => rw [Frame.header, headerBy_ended h, headerBy_line hl, hblank]
  | faulty rest h hl hwrong => rw [Frame.header, headerBy_ended h, headerBy_line hl, hwrong]
  | starved h hr => rw [Frame.header, headerBy_ended h, headerBy_of_not_mem hr]

/-- Every stream is header lines, and then a line that ends the header or no further line. -/
theorem exists_heads (bytes : Bytes) : ∃ lines rest, AreHeads lines ∧ bytes = ended lines ++ rest ∧
    (newline ∉ rest ∨ ∃ line behind, rest = line ++ newline :: behind ∧ newline ∉ line ∧
      (headerLine line).goesOn = false) := by
  induction hn : bytes.length using Nat.strong_induction_on generalizing bytes with
  | h n ih =>
    cases hline : line? bytes with
    | none => exact ⟨[], bytes, .nil, rfl, .inl (line?_eq_none.mp hline)⟩
    | some cut =>
      obtain ⟨line, behind⟩ := cut
      obtain ⟨hl, hbytes⟩ := line?_eq_some hline
      cases hgo : (headerLine line).goesOn with
      | false => exact ⟨[], bytes, .nil, rfl, .inr ⟨line, behind, hbytes, hl, hgo⟩⟩
      | true =>
        obtain ⟨lines, rest, heads, hbehind, hend⟩ :=
          ih behind.length (hn ▸ length_lt_of_line? hline) behind rfl
        refine ⟨line :: lines, rest, .cons hl hgo heads, ?_, hend⟩
        rw [hbytes, hbehind, ended_cons, List.append_assoc, List.cons_append]

/-- Every stream begins in one of the three ways. -/
theorem exists_begins (bytes : Bytes) : ∃ head, Begins bytes head := by
  obtain ⟨lines, rest, heads, rfl, hr | ⟨line, behind, rfl, hl, hstop⟩⟩ := exists_heads bytes
  · exact ⟨_, .starved heads hr⟩
  · cases hsay : headerLine line with
    | blank => exact ⟨_, .complete behind heads hl hsay⟩
    | wrong => exact ⟨_, .faulty behind heads hl hsay⟩
    | length m | other => simp [hsay, HeaderLine.goesOn] at hstop

/-- The header of a stream is what the stream begins with. -/
theorem header_eq_iff : header bytes = head ↔ Begins bytes head := by
  obtain ⟨found, hfound⟩ := exists_begins bytes
  constructor
  · rintro rfl
    rwa [hfound.header]
  · exact Begins.header

/-! ## What is read from any stream -/

/-- What the first frame of a stream gives: a message as long as the last header line for it
announced, a fault of the header, or nothing as long as the stream is too short. A length that is
negative or larger than there can be room for gives neither. -/
inductive Reads : Bytes → Reading → Prop
  | message {bytes body rest : Bytes} (hb : Begins bytes (.complete body.length (body ++ rest)))
    (hne : body ≠ []) (hroom : body.length ≤ maxLength) : Reads bytes (.message body rest)
  | unannounced {bytes rest : Bytes} (hb : Begins bytes (.complete 0 rest)) :
    Reads bytes (.faulty rest)
  | wrong {bytes rest : Bytes} (hb : Begins bytes (.faulty rest)) : Reads bytes (.faulty rest)
  | unended {bytes : Bytes} (hb : Begins bytes .starved) : Reads bytes (.starved false)
  | short {bytes part : Bytes} {n : Nat} (hb : Begins bytes (.complete n part))
    (hlt : part.length < n) (hroom : n ≤ maxLength) : Reads bytes (.starved (!part.isEmpty))
  | abort {bytes rest : Bytes} {n : Int} (hb : Begins bytes (.complete n rest))
    (hn : n < 0 ∨ maxLength < n) : Reads bytes .abort

theorem read_of_complete (h : header bytes = .complete n rest) : read bytes = if n = 0 then .faulty rest
      else if n < 0 ∨ maxLength < n then .abort
      else if rest.length < n.toNat then .starved (!rest.isEmpty)
      else .message (rest.take n.toNat) (rest.drop n.toNat) := by
  rw [read, h]

theorem read_of_message (h : header bytes = .complete body.length (body ++ rest)) (hne : body ≠ [])
    (hroom : body.length ≤ maxLength) : read bytes = .message body rest := by
  have hpos := List.length_pos_iff.mpr hne
  rw [read_of_complete h, if_neg (by omega), if_neg (by omega), if_neg (by simp)]
  simp

theorem reads_read (bytes : Bytes) : Reads bytes (read bytes) := by
  rw [read]
  split
  next hb => exact .unended (header_eq_iff.mp hb)
  next hb => exact .wrong (header_eq_iff.mp hb)
  next n rest hb =>
    have hb := header_eq_iff.mp hb
    split
    next hz => exact .unannounced (hz ▸ hb)
    split
    next hn => exact .abort hb hn
    next hz hn =>
      obtain ⟨k, rfl⟩ := Int.eq_ofNat_of_zero_le (by omega : 0 ≤ n)
      rw [Int.toNat_natCast]
      split
      next hlt => exact .short hb hlt (by omega)
      next hlt =>
        have hk : (rest.take k).length = k := List.length_take_of_le (by omega)
        have hne : rest.take k ≠ [] := List.ne_nil_of_length_pos (by omega)
        refine .message ?_ hne (by rw [hk]; omega)
        rwa [hk, List.take_append_drop]

theorem Reads.read {r : Reading} (h : Reads bytes r) : read bytes = r := by
  cases h with
  | message hb hne hroom => exact read_of_message hb.header hne hroom
  | unannounced hb => rw [read_of_complete hb.header, if_pos rfl]
  | wrong hb => rw [Frame.read, hb.header]
  | unended hb => rw [Frame.read, hb.header]
  | short hb hlt hroom =>
    rw [read_of_complete hb.header, if_neg (by omega), if_neg (by omega), if_pos (by simpa using hlt)]
  | abort hb hn =>
    have hmax : maxLength = 281474976710656 := rfl
    rw [read_of_complete hb.header, if_neg (by omega), if_pos hn]

/-- Every reading is told by what the stream begins with, and a length without room is the only
one that is answered neither with a message nor with a fault. -/
theorem read_eq_iff (bytes : Bytes) (r : Reading) : read bytes = r ↔ Reads bytes r := by
  constructor
  · rintro rfl
    exact reads_read bytes
  · exact Reads.read

/-- A header that announces a negative length. -/
def negativeHeader : Bytes := ClientText.encode "Content-Length: -1\r\n\r\n".toList

/-- A negative length is not answered with a fault: it ends the server. -/
theorem abort_of_negativeHeader : read negativeHeader = .abort ∧
    Server.serve {} [] [negativeHeader] = ([[]], .abort Server.noRoom) := by
  have hbytes : negativeHeader = ended [ClientText.encode "Content-Length: -1\r".toList] ++
      (ClientText.encode ['\r'] ++ newline :: []) := by
    simp only [negativeHeader, ClientText.encode_eq]
    decide
  have hsay : headerLine (ClientText.encode "Content-Length: -1\r".toList) = .length (-1) := by
    have htext : lineText (ClientText.encode "Content-Length: -1\r".toList) =
        "Content-Length: -1" := by
      rw [lineText, shown_encode (by decide)]
      decide
    rw [headerLine, htext]
    decide
  have heads : AreHeads [ClientText.encode "Content-Length: -1\r".toList] :=
    .cons (ClientText.not_mem_encode (c := '\n') rfl (by decide) (by decide)) (by rw [hsay]; rfl) .nil
  have hread : read negativeHeader = .abort := by
    rw [hbytes]
    refine Reads.read (.abort (.complete [] heads
      (ClientText.not_mem_encode (c := '\n') rfl (by decide) (by decide)) headerLine_return) (.inl ?_))
    rw [announced_cons, hsay]
    decide
  refine ⟨hread, ?_⟩
  have hdrain : ∀ s : Server, s.feed [] negativeHeader = (s, [], .ended (.abort Server.noRoom)) := by
    intro s
    rw [Server.feed, List.nil_append, Server.drain, hread]
  rw [Server.serve, hdrain]

/-! ## Frames as they are written -/

/-- The number of a length line is read as it is written. -/
theorem integer?_ofNat {n : Nat} (h : n ≤ 9223372036854775807) : integer? (Text.ofNat n) = some (n : Int) := by
  have hdigits := List.all_eq_true.mp (Word.all_isDigit_toDigits n)
  have hne : (Nat.toDigits 10 n).isEmpty = false := by simp [Nat.toDigits_ne_nil]
  unfold integer?
  rw [Text.toList_ofNat]
  split
  next negative digits heq =>
    have hsign : (negative, digits) = (false, Nat.toDigits 10 n) := by
      rw [← heq]
      split
      next ds hds => exact absurd (hdigits '-' (by simp [hds])) (by decide)
      next ds hds => exact absurd (hdigits '+' (by simp [hds])) (by decide)
      next => rfl
    cases hsign
    rw [if_neg (by simp [hne, Word.all_isDigit_toDigits]), Word.digitsValue_toDigits]
    simp only [Bool.false_eq_true, if_false]
    rw [if_pos (by omega)]

/-- The text of the line that tells the length of a message, up to the newline. -/
def lengthLine (n : Nat) : List Char := (lengthName ++ " " ++ Text.ofNat n).toList ++ ['\r']

theorem write_eq (body : Bytes) : write body = ClientText.encode (lengthLine body.length) ++
      newline :: (ClientText.encode ['\r'] ++ newline :: body) := by
  have hend : ClientText.encode "\r\n\r\n".toList =
      ClientText.encode ['\r'] ++ newline :: (ClientText.encode ['\r'] ++ [newline]) := by
    simp only [ClientText.encode_eq]
    decide
  have hhead : (lengthName ++ " " ++ Text.ofNat body.length ++ "\r\n\r\n").toList =
      (lengthName ++ " " ++ Text.ofNat body.length).toList ++ "\r\n\r\n".toList :=
    String.toList_append ..
  have hof : ∀ s, Bytes.ofText s = ClientText.encode s.toList := fun s => by
    rw [ClientText.encode, String.ofList_toList]
  rw [write, hof, hhead, ClientText.encode_append, hend, lengthLine, ClientText.encode_append]
  simp

/-- A line end is trimmed off a text that neither begins nor ends with white space. -/
theorem trimList_append_return (hne : text ≠ []) (hfirst : Text.isBlank (text.head hne) = false)
    (hlast : Text.isBlank (text.getLast hne) = false) : Text.trimList (text ++ ['\r']) = text := by
  have hfront : (text ++ ['\r']).dropWhile Text.isBlank = text ++ ['\r'] := by
    cases text with
    | nil => exact absurd rfl hne
    | cons c text => exact List.dropWhile_cons_of_neg (by simpa using hfirst)
  rw [Text.trimList, hfront]
  conv_lhs => rw [← List.dropLast_append_getLast hne, List.append_assoc, List.singleton_append,
    Code.dropEndWhile_append_cons hlast]
  exact List.dropLast_append_getLast hne

theorem inert_of_isDigit {c : Char} (h : Text.isDigit c = true) :
    c ≠ '\n' ∧ Text.isBlank c = false ∧ ClientText.isAscii c = true := by
  obtain ⟨hlow, hhigh⟩ : '0' ≤ c ∧ c ≤ '9' := by simpa [Text.isDigit] using h
  have hlow : 48 ≤ c.toNat := hlow
  have hhigh : c.toNat ≤ 57 := hhigh
  refine ⟨?_, ?_, ?_⟩
  · rintro rfl
    exact absurd hlow (by decide)
  · simp only [Text.isBlank]
    simp
    omega
  · simp only [ClientText.isAscii, decide_eq_true_eq]
    omega

/-- The characters of a length line are those of its name, a space, digits and a carriage return. -/
theorem lengthLine_eq (n : Nat) : lengthLine n = (lengthName.toList ++ ' ' :: Nat.toDigits 10 n) ++ ['\r'] := by
  rw [lengthLine, String.toList_append, String.toList_append, Text.toList_ofNat]
  simp

theorem newline_not_mem_lengthLine (n : Nat) : newline ∉ ClientText.encode (lengthLine n) := by
  refine ClientText.not_mem_encode (c := '\n') rfl (by decide) ?_
  rw [lengthLine_eq]
  intro hmem
  have hdigits := List.all_eq_true.mp (Word.all_isDigit_toDigits n)
  simp only [List.mem_append, List.mem_cons] at hmem
  obtain (hmem | hmem | hmem) | hmem := hmem
  · exact absurd hmem (by decide)
  · exact absurd hmem (by decide)
  · exact absurd rfl (inert_of_isDigit (hdigits _ hmem)).1
  · exact absurd hmem (by decide)

theorem lineText_lengthLine (n : Nat) :
    lineText (ClientText.encode (lengthLine n)) = lengthName ++ " " ++ Text.ofNat n := by
  have hdigits := List.all_eq_true.mp (Word.all_isDigit_toDigits n)
  have hascii : (lengthLine n).all ClientText.isAscii := by
    simp only [lengthLine_eq, List.all_append, List.all_cons, Bool.and_eq_true]
    exact ⟨⟨by decide, by decide,
      List.all_eq_true.mpr fun c hc => (inert_of_isDigit (hdigits c hc)).2.2⟩, by decide⟩
  have hlast : Text.isBlank
      ((lengthName.toList ++ ' ' :: Nat.toDigits 10 n).getLast (by simp)) = false := by
    rw [List.getLast_append_of_ne_nil _ (by simp), List.getLast_cons Nat.toDigits_ne_nil]
    exact (inert_of_isDigit (hdigits _ (List.getLast_mem _))).2.1
  rw [lineText, shown_encode hascii, Text.trim, String.toList_ofList, lengthLine_eq,
    trimList_append_return (by simp) (by simp [lengthName]; decide) hlast]
  rw [← String.toList_inj, String.toList_ofList, String.toList_append, String.toList_append, Text.toList_ofNat]
  simp

theorem headerLine_lengthLine {n : Nat} (h : n ≤ 9223372036854775807) :
    headerLine (ClientText.encode (lengthLine n)) = .length n := by
  have hdigits := List.all_eq_true.mp (Word.all_isDigit_toDigits n)
  have htrim : Text.trim (" " ++ Text.ofNat n) = Text.ofNat n := by
    rw [Text.trim, String.toList_append, Text.toList_ofNat, ← String.toList_inj,
      String.toList_ofList, Text.toList_ofNat]
    exact Code.trimList_space_cons
      (fun c hc => (inert_of_isDigit (hdigits c (List.mem_of_head? hc))).2.1)
      fun c hc => (inert_of_isDigit (hdigits c (List.mem_of_getLast? hc))).2.1
  have hne : (lengthName ++ (" " ++ Text.ofNat n)).isEmpty = false := by
    simp [lengthName]
  rw [headerLine, lineText_lengthLine, String.append_assoc]
  simp [hne, Text.dropHead?_append, htrim, integer?_ofNat h]

/-- The frame of a message begins with the length of the message, whatever follows the frame. -/
theorem begins_write (h : body.length ≤ maxLength) (rest : Bytes) :
    Begins (write body ++ rest) (.complete body.length (body ++ rest)) := by
  have hmax : maxLength = 281474976710656 := rfl
  have hsay := headerLine_lengthLine (n := body.length) (by omega)
  have heads : AreHeads [ClientText.encode (lengthLine body.length)] :=
    .cons (newline_not_mem_lengthLine _) (by rw [hsay]; rfl) .nil
  have hb := Begins.complete (body ++ rest) heads
    (ClientText.not_mem_encode (c := '\n') rfl (by decide) (by decide)) headerLine_return
  have hlength : announced 0 [ClientText.encode (lengthLine body.length)] = body.length := by
    simp [hsay, HeaderLine.length?, announced]
  have hbytes : write body ++ rest = ended [ClientText.encode (lengthLine body.length)] ++
      (ClientText.encode ['\r'] ++ newline :: (body ++ rest)) := by
    rw [write_eq]
    simp [ended]
  rwa [hbytes, ← hlength]

/-- The first frame of a stream is read as it was written, whatever follows it. -/
theorem read_write_append (hne : body ≠ []) (h : body.length ≤ maxLength) (rest : Bytes) :
    read (write body ++ rest) = .message body rest :=
  read_of_message (begins_write h rest).header hne h

theorem Begins.length_lt (h : Begins bytes (.complete n rest)) : rest.length < bytes.length := by
  generalize hhead : Header.complete n rest = head at h
  cases h with
  | complete rest' h hl hblank =>
    cases hhead
    simp only [List.length_append, List.length_cons]
    omega
  | faulty | starved => cases hhead

theorem length_lt_of_read (h : read bytes = .message body rest) : rest.length < bytes.length := by
  have hreads := reads_read bytes
  rw [h] at hreads
  cases hreads with
  | message hb hne hroom =>
    have hlt := hb.length_lt
    rw [List.length_append] at hlt
    omega

/-- What reading frame after frame gives. -/
structure Readings where
  /-- The messages, each behind the bytes that were taken from the stream for it. -/
  messages : List (Bytes × Bytes)
  /-- The bytes that no message was taken from. -/
  left : Bytes
  /-- What the last reading gave. -/
  last : Reading
  deriving DecidableEq

/-- Reads frame after frame as long as there are messages. -/
def readAll (bytes : Bytes) : Readings :=
  match h : read bytes with
  | .message body rest =>
    have := length_lt_of_read h
    let more := readAll rest
    { more with messages := (bytes.take (bytes.length - rest.length), body) :: more.messages }
  | last => { messages := [], left := bytes, last }
termination_by bytes.length

theorem readAll_nil : readAll [] = { messages := [], left := [], last := .starved false } := by
  have hempty : Begins (ended [] ++ []) .starved := .starved .nil (by simp)
  have hread : read [] = .starved false := Reads.read (.unended hempty)
  rw [readAll]
  split
  next h => rw [hread] at h; cases h
  next => rw [hread]

theorem readAll_write_append (hne : body ≠ []) (h : body.length ≤ maxLength) (rest : Bytes) :
    readAll (write body ++ rest) =
      { readAll rest with messages := (write body, body) :: (readAll rest).messages } := by
  have hread := read_write_append hne h rest
  rw [readAll]
  split
  next hm =>
    rw [hread] at hm
    cases hm
    simp
  next hno => exact absurd hread (hno _ _)

/-- The messages of a stream of frames are read back as they were written, whatever they are made of.
Each of them takes its own frame from the stream, and the stream ends behind the last one. (There
is room for every message that can be written.) -/
theorem readAll_flatMap_write (bodies : List Bytes)
    (h : ∀ body ∈ bodies, body ≠ [] ∧ body.length ≤ maxLength) :
    readAll (bodies.flatMap write) =
      { messages := bodies.map fun body => (write body, body), left := [], last := .starved false } := by
  induction bodies with
  | nil => exact readAll_nil
  | cons body bodies ih =>
    obtain ⟨⟨hne, hroom⟩, hrest⟩ := List.forall_mem_cons.mp h
    rw [List.flatMap_cons, readAll_write_append hne hroom, ih hrest, List.map_cons]

/-- Messages of line ends, of a whole header and of bytes that are no text. -/
def sampleBodies : List Bytes :=
  [[10, 13, 10], "Content-Length: 7\r\n\r\n".toList.flatMap String.utf8EncodeChar, [255, 0]]

theorem readAll_sampleBodies : (∀ body ∈ sampleBodies, body ≠ [] ∧ body.length ≤ maxLength) ∧
    readAll (sampleBodies.flatMap write) =
      { messages := sampleBodies.map fun body => (write body, body), left := [],
        last := .starved false } :=
  have h : ∀ body ∈ sampleBodies, body ≠ [] ∧ body.length ≤ maxLength := by decide
  ⟨h, readAll_flatMap_write sampleBodies h⟩

end Frontend.Frame
