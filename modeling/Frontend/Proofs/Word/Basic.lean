import Frontend.Instruction.Basic
import Frontend.Supply
import Mathlib.Data.List.Basic

/-!
# Words of the code

The operands of instructions are words. Temporaries, labels and raw ids are made from counters: two
of them are equal only when their numbers are, and no word belongs to two of the three families. A
word that holds no comma, no quote and no white space can be printed between commas and found again;
so can a quoted text.
-/

namespace Frontend.Word

/-- The raw id that is made of a base and a number. -/
def numbered (base : String) (n : Nat) : String := base ++ "_" ++ Text.ofNat n

/-- The temporary with a number. -/
def temp (n : Nat) : String := "%t" ++ Text.ofNat n

def label (n : Nat) : String := "%L" ++ Text.ofNat n

def IsTemp (w : String) : Prop := ∃ n, w = temp n

/-- A word that is a raw id with the given number. -/
def IsNumbered (w : String) (n : Nat) : Prop := ∃ base, w = numbered base n

/-- What holds of all letters of a word is decided letter by letter of the word, not of the alphabet. -/
instance decidableForallLetter (w : String) (p : Char → Prop) [DecidablePred p] :
    Decidable (∀ c ∈ w.toList, p c) :=
  List.decidableBAll p w.toList

/-- A word without commas, quotes and white space. -/
def Plain (w : String) : Prop :=
  ∀ c ∈ w.toList, c ≠ '\x22' ∧ c ≠ ',' ∧ Text.isBlank c = false

instance (w : String) : Decidable (Plain w) :=
  inferInstanceAs (Decidable (∀ c ∈ w.toList, c ≠ '\x22' ∧ c ≠ ',' ∧ Text.isBlank c = false))

/-- A word that survives being printed as an operand. -/
def Clean (w : String) : Prop := Plain w ∨ ∃ s, w = Text.quote s

/-- A word that stands for itself: neither a temporary nor a raw id. -/
def Constant (w : String) : Prop := ¬ IsTemp w ∧ ∀ n, ¬ IsNumbered w n

end Frontend.Word

namespace Frontend.Supply

theorem rid_eq (s : Supply) (name : String) :
    s.rid name = (Word.numbered name s.rids, { s with rids := s.rids + 1 }) := rfl

theorem functionRid_eq (s : Supply) (owner : Option String) (name : String) : ∃ base, s.functionRid owner name =
        (Word.numbered base s.rids, { s with rids := s.rids + 1 }) ∧
      base = "f_" ++ (owner.map (· ++ "_")).getD "" ++ name := by
  cases owner with
  | none => exact ⟨_, rfl, by simp⟩
  | some cls =>
    refine ⟨_, rfl, ?_⟩
    simp [String.append_assoc]

end Frontend.Supply

namespace Frontend.Text

theorem toList_ofNat (n : Nat) : (ofNat n).toList = Nat.toDigits 10 n := by
  simp [ofNat]

theorem isDigit_of_mem_ofNat {n : Nat} {c : Char} (h : c ∈ (ofNat n).toList) : c.isDigit = true := by
  rw [toList_ofNat] at h
  exact Nat.isDigit_of_mem_toDigits (by decide) (by decide) h

end Frontend.Text

namespace Frontend.Word

variable {m n : Nat} {w : String}

/-- The part behind the last occurrence of a separator is determined by the whole list. -/
theorem append_cons_inj {α : Type} {x : α} :
    ∀ {as bs ds es : List α}, as ++ x :: ds = bs ++ x :: es → x ∉ ds → x ∉ es → as = bs ∧ ds = es := by
  intro as
  induction as with
  | nil =>
    intro bs ds es h hd he
    cases bs with
    | nil => simpa using h
    | cons b bs =>
      simp only [List.nil_append, List.cons_append, List.cons.injEq] at h
      exact absurd (h.2 ▸ by simp) hd
  | cons a as ih =>
    intro bs ds es h hd he
    cases bs with
    | nil =>
      simp only [List.nil_append, List.cons_append, List.cons.injEq] at h
      exact absurd (h.2 ▸ by simp) he
    | cons b bs =>
      simp only [List.cons_append, List.cons.injEq] at h
      obtain ⟨h1, h2⟩ := ih h.2 hd he
      exact ⟨by rw [h.1, h1], h2⟩

theorem toList_numbered (base : String) (n : Nat) :
    (numbered base n).toList = base.toList ++ '_' :: Nat.toDigits 10 n := by
  simp [numbered, Text.toList_ofNat]

theorem toList_temp (n : Nat) : (temp n).toList = '%' :: 't' :: Nat.toDigits 10 n := by
  simp [temp, Text.toList_ofNat]

theorem toList_label (n : Nat) : (label n).toList = '%' :: 'L' :: Nat.toDigits 10 n := by
  simp [label, Text.toList_ofNat]

theorem numbered_inj {a b : String} (h : numbered a m = numbered b n) : a = b ∧ m = n := by
  have hl := congrArg String.toList h
  rw [toList_numbered, toList_numbered] at hl
  obtain ⟨hname, hdigits⟩ := append_cons_inj hl Nat.underscore_not_in_toDigits
    Nat.underscore_not_in_toDigits
  refine ⟨String.toList_inj.mp hname, ?_⟩
  rw [← Nat.ofDigitChars_ten_toDigits (n := m), hdigits, Nat.ofDigitChars_ten_toDigits]

theorem isNumbered_numbered (base : String) (n : Nat) : IsNumbered (numbered base n) n :=
  ⟨base, rfl⟩

theorem IsNumbered.unique (hm : IsNumbered w m) (hn : IsNumbered w n) : m = n := by
  obtain ⟨a, rfl⟩ := hm
  obtain ⟨b, hb⟩ := hn
  exact (numbered_inj hb).2

theorem temp_inj (h : temp m = temp n) : m = n := by
  have hl := congrArg String.toList h
  simp only [toList_temp, List.cons.injEq, true_and] at hl
  rw [← Nat.ofDigitChars_ten_toDigits (n := m), hl, Nat.ofDigitChars_ten_toDigits]

theorem label_inj (h : label m = label n) : m = n := by
  have hl := congrArg String.toList h
  simp only [toList_label, List.cons.injEq, true_and] at hl
  rw [← Nat.ofDigitChars_ten_toDigits (n := m), hl, Nat.ofDigitChars_ten_toDigits]

theorem underscore_mem_of_isNumbered (h : IsNumbered w n) : '_' ∈ w.toList := by
  obtain ⟨base, rfl⟩ := h
  rw [toList_numbered]
  simp

theorem underscore_not_mem_temp (n : Nat) : '_' ∉ (temp n).toList := by
  rw [toList_temp]
  simp

theorem underscore_not_mem_label (n : Nat) : '_' ∉ (label n).toList := by
  rw [toList_label]
  simp

theorem not_isNumbered_temp (m n : Nat) : ¬ IsNumbered (temp m) n := by
  intro h
  exact underscore_not_mem_temp m (underscore_mem_of_isNumbered h)

theorem not_isTemp_of_isNumbered (h : IsNumbered w n) : ¬ IsTemp w := by
  rintro ⟨m, rfl⟩
  exact not_isNumbered_temp m n h

theorem constant_label (n : Nat) : Constant (label n) := by
  refine ⟨?_, fun m h => underscore_not_mem_label n (underscore_mem_of_isNumbered h)⟩
  rintro ⟨m, h⟩
  have hl := congrArg String.toList h
  rw [toList_label, toList_temp] at hl
  simp at hl

/-- A word without underscores and percent signs stands for itself. -/
theorem constant_of_bare (hu : '_' ∉ w.toList) (hp : '%' ∉ w.toList) : Constant w := by
  refine ⟨?_, fun n h => hu (underscore_mem_of_isNumbered h)⟩
  rintro ⟨n, rfl⟩
  rw [toList_temp] at hp
  simp at hp

theorem plain_append {v : String} (hv : Plain v) (hw : Plain w) : Plain (v ++ w) := by
  intro c hc
  rw [String.toList_append, List.mem_append] at hc
  rcases hc with hc | hc
  · exact hv c hc
  · exact hw c hc

theorem plain_of_isDigit (h : ∀ c ∈ w.toList, c.isDigit = true) : Plain w := by
  intro c hc
  have hd := h c hc
  simp only [Char.isDigit, Bool.and_eq_true, decide_eq_true_eq] at hd
  have hn : 48 ≤ c.toNat ∧ c.toNat ≤ 57 := ⟨hd.1, hd.2⟩
  refine ⟨?_, ?_, ?_⟩
  · rintro rfl
    exact absurd hn.1 (by decide)
  · rintro rfl
    exact absurd hn.1 (by decide)
  · simp only [Text.isBlank]
    simp
    omega

theorem plain_ofNat (n : Nat) : Plain (Text.ofNat n) :=
  plain_of_isDigit fun _ => Text.isDigit_of_mem_ofNat

theorem plain_temp (n : Nat) : Plain (temp n) :=
  plain_append (by unfold Plain; decide) (plain_ofNat n)

theorem plain_label (n : Nat) : Plain (label n) :=
  plain_append (by unfold Plain; decide) (plain_ofNat n)

theorem plain_numbered {base : String} (h : Plain base) (n : Nat) : Plain (numbered base n) :=
  plain_append (plain_append h (by unfold Plain; decide)) (plain_ofNat n)

end Frontend.Word
