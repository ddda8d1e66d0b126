import Frontend.Lowering.Operand
import Frontend.Proofs.Word.Basic

/-!
# Words for literals

Every way in which a literal is spelled gives a clean word that stands for itself, also when the sign
of a number literal is turned around. Names give plain words.
-/

namespace Frontend.Word

variable {w : String} {c : Char}
variable {n : Nat} {d : Decimal.Digits}

/-- The characters that numbers are written with. -/
def isNumeralChar (c : Char) : Bool := c.isDigit || "+-.eInfNa".toList.contains c

/-- A word that is written like a number. -/
def Numeral (w : String) : Prop := ∀ c ∈ w.toList, isNumeralChar c = true

/-- A word whose characters may all occur in names. -/
def Name (w : String) : Prop := ∀ c ∈ w.toList, TokenKind.isNameChar c = true

theorem Numeral.cases (h : Numeral w) (hc : c ∈ w.toList) :
    (48 ≤ c.toNat ∧ c.toNat ≤ 57) ∨ c ∈ "+-.eInfNa".toList := by
  have hn := h c hc
  simp only [isNumeralChar, Bool.or_eq_true, List.contains_iff_mem] at hn
  rcases hn with hd | hl
  · simp only [Char.isDigit, Bool.and_eq_true, decide_eq_true_eq] at hd
    exact .inl ⟨hd.1, hd.2⟩
  · exact .inr hl

theorem Numeral.plain (h : Numeral w) : Plain w := by
  intro c hc
  rcases h.cases hc with hd | hl
  · refine ⟨?_, ?_, ?_⟩
    · rintro rfl
      exact absurd hd.1 (by decide)
    · rintro rfl
      exact absurd hd.1 (by decide)
    · simp [Text.isBlank]
      omega
  · revert c
    have all : ∀ c ∈ "+-.eInfNa".toList,
        c ≠ '\x22' ∧ c ≠ ',' ∧ Text.isBlank c = false := by decide
    exact fun c _ hl => all c hl

theorem Numeral.constant (h : Numeral w) : Constant w := by
  apply constant_of_bare
  · intro hc
    rcases h.cases hc with hd | hl
    · exact absurd hd.2 (by decide)
    · exact absurd hl (by decide)
  · intro hc
    rcases h.cases hc with hd | hl
    · exact absurd hd.1 (by decide)
    · exact absurd hl (by decide)

theorem numeral_append {v : String} (hv : Numeral v) (hw : Numeral w) : Numeral (v ++ w) := by
  intro c hc
  rw [String.toList_append, List.mem_append] at hc
  exact hc.elim (hv c) (hw c)

theorem numeral_of_isDigit {cs : List Char} (h : ∀ c ∈ cs, c.isDigit = true) : Numeral (String.ofList cs) := by
  intro c hc
  rw [String.toList_ofList] at hc
  simp [isNumeralChar, h c hc]

theorem isDigit_of_mem_toDigits_ten : ∀ c ∈ Nat.toDigits 10 n, c.isDigit = true :=
  fun _ hc => Nat.isDigit_of_mem_toDigits (by decide) (by decide) hc

theorem numeral_ofInt (n : Int) : Numeral (Spelling.ofInt n) := by
  cases n with
  | ofNat k => exact numeral_of_isDigit isDigit_of_mem_toDigits_ten
  | negSucc k =>
    intro c hc
    simp only [Spelling.ofInt, Text.ofInt, String.toList_ofList, List.mem_cons] at hc
    rcases hc with rfl | hc
    · decide
    · simp [isNumeralChar, isDigit_of_mem_toDigits_ten c hc]

/-- The digits of a double are decimal digits. -/
theorem isDigit_of_mem_shortest (m : Nat) (q : Int) : ∀ c ∈ (Decimal.shortest m q).digits, c.isDigit = true := by
  intro c hc
  unfold Decimal.shortest at hc
  split at hc
  · simp at hc
  · simp only [Text.dropEndWhile, List.mem_reverse] at hc
    have hr := List.mem_reverse.mp ((List.dropWhile_suffix _).subset hc)
    exact isDigit_of_mem_toDigits_ten c hr

theorem isNumeralChar_of_isDigit (h : c.isDigit = true) : isNumeralChar c = true := by
  simp [isNumeralChar, h]

theorem isNumeralChar_of_mem_padTwo (h : c ∈ Decimal.padTwo n) : isNumeralChar c = true := by
  unfold Decimal.padTwo at h
  split at h
  · rcases List.mem_cons.mp h with rfl | h
    · decide
    · exact isNumeralChar_of_isDigit (isDigit_of_mem_toDigits_ten c h)
  · exact isNumeralChar_of_isDigit (isDigit_of_mem_toDigits_ten c h)

theorem isNumeralChar_of_mem_scientific (hd : ∀ c ∈ d.digits, c.isDigit = true) (h : c ∈ Decimal.scientific d) :
    isNumeralChar c = true := by
  unfold Decimal.scientific at h
  simp only [List.append_assoc, List.mem_append] at h
  rcases h with h | h | h | h
  · exact isNumeralChar_of_isDigit (hd c (List.mem_of_mem_take h))
  · split at h
    · simp at h
    · rcases List.mem_cons.mp h with rfl | h
      · decide
      · exact isNumeralChar_of_isDigit (hd c (List.mem_of_mem_tail h))
  · simp only [List.mem_cons, List.not_mem_nil, or_false] at h
    rcases h with rfl | rfl
    · decide
    · split <;> decide
  · exact isNumeralChar_of_mem_padTwo h

theorem isNumeralChar_of_mem_positional (hd : ∀ c ∈ d.digits, c.isDigit = true) (h : c ∈ Decimal.positional d) :
    isNumeralChar c = true := by
  have zero : ∀ n, c ∈ List.replicate n '0' → isNumeralChar c = true := by
    intro n hc
    rw [List.eq_of_mem_replicate hc]
    decide
  unfold Decimal.positional at h
  split at h
  · rw [List.mem_singleton.mp h]
    decide
  · split at h
    · simp only [List.mem_cons, List.mem_append] at h
      rcases h with rfl | rfl | h | h
      · decide
      · decide
      · exact zero _ h
      · exact isNumeralChar_of_isDigit (hd c h)
    · simp only at h
      split at h
      · rcases List.mem_append.mp h with h | h
        · exact isNumeralChar_of_isDigit (hd c h)
        · exact zero _ h
      · simp only [List.mem_append, List.mem_cons] at h
        rcases h with h | rfl | h
        · exact isNumeralChar_of_isDigit (hd c (List.mem_of_mem_take h))
        · decide
        · exact isNumeralChar_of_isDigit (hd c (List.mem_of_mem_drop h))

theorem numeral_decimal (v : Binary64) : Numeral (Decimal.ofDouble v) := by
  cases v with
  | nan => unfold Numeral; decide
  | infinite negative => cases negative <;> (unfold Numeral; decide)
  | finite negative m q =>
    intro c hc
    simp only [Decimal.ofDouble, String.toList_ofList, List.mem_append] at hc
    rcases hc with hc | hc
    · split at hc
      · rw [List.mem_singleton.mp hc]
        decide
      · simp at hc
    · have hd := isDigit_of_mem_shortest m q
      simp only [Decimal.general] at hc
      split at hc
      · exact isNumeralChar_of_mem_scientific hd hc
      · exact isNumeralChar_of_mem_positional hd hc

theorem numeral_ofDouble (v : Binary64) : Numeral (Spelling.ofDouble v) := by
  unfold Spelling.ofDouble
  simp only
  split
  · exact numeral_decimal v
  · exact numeral_append (numeral_decimal v) (by unfold Numeral; decide)

/-- Turning the sign of a number around gives a number. -/
theorem numeral_opposite (h : Numeral w) : Numeral (match Text.dropHead? w "-" with
      | some rest => rest
      | none => "-" ++ w) := by
  split
  case h_1 rest hr =>
    unfold Text.dropHead? at hr
    split at hr
    · cases hr
      intro c hc
      rw [String.toList_ofList] at hc
      exact h c (List.mem_of_mem_drop hc)
    · cases hr
  case h_2 => exact numeral_append (by unfold Numeral; decide) h

theorem toList_quote (s : String) :
    (Text.quote s).toList = '\x22' :: (s.toList.flatMap Text.quoteChar ++ ['\x22']) := by
  simp [Text.quote]

/-- A quoted text ends with a quote, and a raw id with a digit. -/
theorem constant_quote (s : String) : Constant (Text.quote s) := by
  constructor
  · rintro ⟨n, h⟩
    have hl := congrArg String.toList h
    rw [toList_quote, toList_temp] at hl
    simp at hl
  · rintro n ⟨base, h⟩
    have hl := congrArg String.toList h
    rw [toList_quote, toList_numbered] at hl
    have hlast := congrArg List.getLast? hl
    rw [← List.cons_append, List.getLast?_append_of_ne_nil _ (by simp)] at hlast
    rw [List.getLast?_append_of_ne_nil _ (by simp)] at hlast
    rw [List.getLast?_singleton, List.getLast?_cons_of_ne_nil Nat.toDigits_ne_nil] at hlast
    have hm := List.mem_of_getLast? hlast.symm
    exact absurd (isDigit_of_mem_toDigits_ten _ hm) (by decide)

theorem clean_quote (s : String) : Clean (Text.quote s) := .inr ⟨s, rfl⟩

theorem Name.plain (h : Name w) : Plain w := by
  intro c hc
  have hn := h c hc
  simp only [TokenKind.isNameChar, TokenKind.isNameStart, Text.isDigit, Bool.or_eq_true,
    Bool.and_eq_true, decide_eq_true_eq, beq_iff_eq] at hn
  have code : ∀ a b : Char, a ≤ c ∧ c ≤ b → a.toNat ≤ c.toNat ∧ c.toNat ≤ b.toNat :=
    fun _ _ hab => hab
  have range : c.toNat = 95 ∨ (97 ≤ c.toNat ∧ c.toNat ≤ 122) ∨
      (65 ≤ c.toNat ∧ c.toNat ≤ 90) ∨ (48 ≤ c.toNat ∧ c.toNat ≤ 57) := by
    rcases hn with ((rfl | hn) | hn) | hn
    · exact .inl (by decide)
    · exact .inr (.inl (code _ _ hn))
    · exact .inr (.inr (.inl (code _ _ hn)))
    · exact .inr (.inr (.inr (code _ _ hn)))
  refine ⟨?_, ?_, ?_⟩
  · rintro rfl
    revert range
    decide
  · rintro rfl
    revert range
    decide
  · simp [Text.isBlank]
    omega

theorem name_of_isName {s : String} (h : TokenKind.isName s = true) : Name s := by
  intro c hc
  unfold TokenKind.isName at h
  split at h
  · cases h
  · rename_i d rest heq
    rw [heq] at hc
    simp only [Bool.and_eq_true, List.all_eq_true] at h
    rcases List.mem_cons.mp hc with rfl | hc
    · simp [TokenKind.isNameChar, h.1]
    · exact h.2 c hc

/-! ## Whole numbers in words

The words of whole numbers are read as the numbers they were written for, also after their sign was
changed. Raw ids and temporaries are not read as numbers. -/

theorem digitsValue_toDigits (n : Nat) : Text.digitsValue (Nat.toDigits 10 n) = n := by
  have same : Text.digitsValue (Nat.toDigits 10 n) = Nat.ofDigitChars 10 (Nat.toDigits 10 n) 0 := by
    unfold Text.digitsValue Nat.ofDigitChars
    congr 1
    funext sofar c
    rw [Nat.mul_comm]
    rfl
  rw [same, Nat.ofDigitChars_ten_toDigits]

theorem all_isDigit_toDigits (n : Nat) : (Nat.toDigits 10 n).all Text.isDigit = true := by
  rw [List.all_eq_true]
  intro c hc
  have hd := isDigit_of_mem_toDigits_ten c hc
  simp only [Char.isDigit, Bool.and_eq_true, decide_eq_true_eq] at hd
  simp only [Text.isDigit, Bool.and_eq_true, decide_eq_true_eq]
  exact hd

/-- Digits, perhaps behind a minus, are read as the number they were written for. -/
theorem readInt?_toDigits (n : Nat) (negative : Bool) (w : String)
    (hw : w.toList = (if negative then ['-'] else []) ++ Nat.toDigits 10 n) :
    Decimal.readInt? w = some (if negative then -(n : Int) else n) := by
  have sign : Decimal.readSign w.toList = (negative, Nat.toDigits 10 n) := by
    rw [hw]
    cases negative with
    | true => rfl
    | false =>
      have digits := all_isDigit_toDigits n
      cases hd : Nat.toDigits 10 n with
      | nil => rfl
      | cons c cs =>
        rw [hd] at digits
        have hc : Text.isDigit c = true := by
          simp only [List.all_cons, Bool.and_eq_true] at digits
          exact digits.1
        simp only [Bool.false_eq_true, if_false, List.nil_append]
        unfold Decimal.readSign
        split
        · rename_i heq
          cases heq
          exact absurd hc (by decide)
        · rename_i heq
          cases heq
          exact absurd hc (by decide)
        · rfl
  have nonempty : (Nat.toDigits 10 n).isEmpty = false := by
    simp
  unfold Decimal.readInt?
  rw [sign]
  simp only [nonempty, all_isDigit_toDigits, digitsValue_toDigits, Bool.not_true, Bool.or_self,
    Bool.false_eq_true, if_false]

theorem readInt?_ofInt (n : Int) : Decimal.readInt? (Spelling.ofInt n) = some n := by
  cases n with
  | ofNat k =>
    rw [readInt?_toDigits k false _ (by simp [Spelling.ofInt, Text.ofInt])]
    rfl
  | negSucc k =>
    rw [readInt?_toDigits (k + 1) true _ (by simp [Spelling.ofInt, Text.ofInt])]
    rfl

theorem wrapWord_of_inWord {n : Int} (h : Decimal.inWord n = true) : Decimal.wrapWord n = n := by
  unfold Decimal.inWord at h
  simp only [Bool.and_eq_true, decide_eq_true_eq] at h
  have half : Number.twoTo 63 = 9223372036854775808 := rfl
  have whole : Number.twoTo 64 = 18446744073709551616 := rfl
  unfold Decimal.wrapWord
  rw [whole]
  rw [half] at h
  exact Int.bmod_eq_of_le (by omega) (by omega)

theorem readWord?_ofInt {n : Int} (h : Decimal.inWord n = true) :
    Decimal.readWord? (Spelling.ofInt n) = some n := by
  unfold Decimal.readWord?
  rw [readInt?_ofInt]
  simp [h]

/-- The word of a number with its sign changed. -/
def opposite (w : String) : String :=
  match Text.dropHead? w "-" with
  | some rest => rest
  | none => "-" ++ w

theorem readInt?_opposite (n : Int) : Decimal.readInt? (opposite (Spelling.ofInt n)) = some (-n) := by
  cases n with
  | ofNat k =>
    have digits := all_isDigit_toDigits k
    have plus : Text.dropHead? (Spelling.ofInt (.ofNat k)) "-" = none := by
      unfold Text.dropHead? Text.startsWith
      rw [if_neg]
      simp only [Spelling.ofInt, Text.ofInt, String.toList_ofList]
      cases hd : Nat.toDigits 10 k with
      | nil => simp
      | cons c cs =>
        rw [hd] at digits
        simp only [List.all_cons, Bool.and_eq_true] at digits
        intro hn
        simp at hn
        rw [← hn] at digits
        exact absurd digits.1 (by decide)
    unfold opposite
    rw [plus]
    rw [readInt?_toDigits k true _ (by simp [Spelling.ofInt, Text.ofInt])]
    rfl
  | negSucc k =>
    have minus : Text.dropHead? (Spelling.ofInt (.negSucc k)) "-" =
        some (String.ofList (Nat.toDigits 10 (k + 1))) := by
      unfold Text.dropHead? Text.startsWith
      simp only [Spelling.ofInt, Text.ofInt, String.toList_ofList]
      rfl
    unfold opposite
    rw [minus]
    rw [readInt?_toDigits (k + 1) false _ (by simp)]
    rfl

theorem readWord?_opposite {n : Int} (h : Decimal.inWord (-n) = true) :
    Decimal.readWord? (opposite (Spelling.ofInt n)) = some (-n) := by
  unfold Decimal.readWord?
  rw [readInt?_opposite]
  simp [h]

/-- A word with a letter that is neither a digit nor a sign in front is not read as a number. -/
theorem readInt?_eq_none (hc : c ∈ w.toList) (hd : Text.isDigit c = false) (hs : c ≠ '-' ∧ c ≠ '+') :
    Decimal.readInt? w = none := by
  have kept : c ∈ (Decimal.readSign w.toList).2 := by
    unfold Decimal.readSign
    split
    · rename_i heq
      rw [heq] at hc
      exact (List.mem_cons.mp hc).resolve_left hs.1
    · rename_i heq
      rw [heq] at hc
      exact (List.mem_cons.mp hc).resolve_left hs.2
    · exact hc
  have digits : (Decimal.readSign w.toList).2.all Text.isDigit = false := by
    rw [List.all_eq_false]
    exact ⟨c, kept, by simp [hd]⟩
  unfold Decimal.readInt?
  simp [digits]

theorem readInt?_numbered (h : IsNumbered w n) : Decimal.readInt? w = none :=
  readInt?_eq_none (underscore_mem_of_isNumbered h) (by decide) (by decide)

theorem readInt?_temp (n : Nat) : Decimal.readInt? (temp n) = none := by
  have percent : '%' ∈ (temp n).toList := by
    rw [toList_temp]
    exact List.mem_cons_self
  exact readInt?_eq_none percent (by decide) (by decide)

theorem readWord?_numbered (base : String) (n : Nat) : Decimal.readWord? (numbered base n) = none := by
  rw [Decimal.readWord?, readInt?_numbered (isNumbered_numbered base n)]
  rfl

theorem readWord?_temp (n : Nat) : Decimal.readWord? (temp n) = none := by
  rw [Decimal.readWord?, readInt?_temp]
  rfl

end Frontend.Word
