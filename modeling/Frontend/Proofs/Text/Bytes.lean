import Frontend.Text.Letter
import Mathlib.Data.List.Flatten
import Mathlib.Tactic.SplitIfs

/-!
# The bytes of a source text

A source text is read from bytes. Reading loses nothing: the bytes of its letters, one after another,
are the bytes that were read, and a newline byte is read as a newline wherever it stands.
-/

namespace Frontend

variable {b c : UInt8}

/-- The bytes that a letter stands for. -/
def Letter.bytes : Letter → List UInt8
  | .char c => String.utf8EncodeChar c
  | .stray b => [b]

theorem Letter.length_bytes (l : Letter) : l.bytes.length = l.width := by
  cases l with
  | char c => exact String.length_utf8EncodeChar c
  | stray b => rfl

/-- A byte below 128 stands for the character with its number, and for nothing else. -/
theorem toNat_of_mem_utf8EncodeChar {c : Char} (hb : b ∈ String.utf8EncodeChar c)
    (hlt : b.toNat < 128) : b.toNat = c.toNat := by
  rw [← Char.toNat_val]
  simp only [String.utf8EncodeChar] at hb
  split_ifs at hb <;> simp only [List.mem_cons, List.not_mem_nil, or_false] at hb
  · rw [hb, UInt8.toNat_ofNat']
    omega
  -- All bytes of the longer forms are at least 128.
  all_goals
    exfalso
    obtain rfl | rfl | rfl | rfl := hb <;> rw [UInt8.toNat_ofNat'] at hlt <;> omega

namespace Source

def bytes (src : Source) : List UInt8 := src.flatMap Letter.bytes

@[simp] theorem bytes_nil : bytes [] = [] := rfl

@[simp] theorem bytes_cons (l : Letter) (src : Source) : bytes (l :: src) = l.bytes ++ bytes src := rfl

@[simp] theorem bytes_append (a b : Source) : bytes (a ++ b) = bytes a ++ bytes b :=
  List.flatMap_append

theorem length_bytes (src : Source) : src.bytes.length = src.byteSize := by
  induction src with
  | nil => rfl
  | cons l src ih => rw [bytes_cons, List.length_append, ih, Letter.length_bytes, byteSize_cons]

/-! ## Characters of one to four bytes -/

/-- The bytes of a character that is given by its number. -/
theorem utf8EncodeChar_ofNat {n : Nat} (h : n.isValidChar) : String.utf8EncodeChar (Char.ofNat n) =
      if n ≤ 127 then [UInt8.ofNat n]
      else if n ≤ 2047 then [UInt8.ofNat (n / 64 % 32 + 192), UInt8.ofNat (n % 64 + 128)]
      else if n ≤ 65535 then
        [UInt8.ofNat (n / 4096 % 16 + 224), UInt8.ofNat (n / 64 % 64 + 128), UInt8.ofNat (n % 64 + 128)]
      else
        [UInt8.ofNat (n / 262144 % 8 + 240), UInt8.ofNat (n / 4096 % 64 + 128),
          UInt8.ofNat (n / 64 % 64 + 128), UInt8.ofNat (n % 64 + 128)] := by
  have hval : (Char.ofNat n).val.toNat = n := by
    rw [Char.ofNat, dif_pos h]
    rfl
  simp only [String.utf8EncodeChar, hval]

/-- A byte is known by its number. -/
theorem ofNat_eq {n : Nat} (h : n = b.toNat) : UInt8.ofNat n = b := by
  rw [h, UInt8.ofNat_toNat]

/-- Bounds on a byte are bounds on its number. -/
theorem bounds_toNat {low high : UInt8} (h : (decide (low ≤ b) && decide (b ≤ high)) = true) :
    low.toNat ≤ b.toNat ∧ b.toNat ≤ high.toNat := by
  rwa [Bool.and_eq_true, decide_eq_true_iff, decide_eq_true_iff, UInt8.le_iff_toNat_le, UInt8.le_iff_toNat_le] at h

theorem tail_bounds (h : isTail b = true) : 128 ≤ b.toNat ∧ b.toNat ≤ 191 :=
  bounds_toNat h

theorem encode_two (hb : 194 ≤ b.toNat ∧ b.toNat ≤ 223) (hc : isTail c = true) :
    String.utf8EncodeChar (Char.ofNat (b.toNat % 32 * 64 + tailBits c)) = [b, c] := by
  obtain ⟨hlow, hhigh⟩ := tail_bounds hc
  unfold tailBits
  rw [utf8EncodeChar_ofNat (.inl (by omega)), if_neg (by omega), if_pos (by omega),
    ofNat_eq (b := b) (by omega), ofNat_eq (b := c) (by omega)]

/-- The bounds on the second byte keep out overlong forms and surrogates. -/
theorem encode_three {d : UInt8} (hb : 224 ≤ b.toNat ∧ b.toNat ≤ 239)
    (hc : (if b.toNat = 224 then 160 else 128) ≤ c.toNat ∧
      c.toNat ≤ if b.toNat = 237 then 159 else 191) (hd : isTail d = true) :
    String.utf8EncodeChar (Char.ofNat (b.toNat % 16 * 4096 + tailBits c * 64 + tailBits d)) = [b, c, d] := by
  obtain ⟨hlow, hhigh⟩ := tail_bounds hd
  obtain ⟨hclow, hchigh⟩ := hc
  have hrange : 128 ≤ c.toNat ∧ c.toNat ≤ 191 := by
    constructor
    · split at hclow <;> omega
    · split at hchigh <;> omega
  have hfirst : b.toNat = 224 → 160 ≤ c.toNat := fun he => by rwa [if_pos he] at hclow
  have hvalid : (b.toNat % 16 * 4096 + c.toNat % 64 * 64 + d.toNat % 64).isValidChar := by
    by_cases he : b.toNat = 237
    · rw [if_pos he] at hchigh
      exact .inl (by omega)
    · by_cases hlt : b.toNat < 237
      · exact .inl (by omega)
      · exact .inr ⟨by omega, by omega⟩
  unfold tailBits
  rw [utf8EncodeChar_ofNat hvalid, if_neg (by omega), if_neg (by omega), if_pos (by omega),
    ofNat_eq (b := b) (by omega), ofNat_eq (b := c) (by omega), ofNat_eq (b := d) (by omega)]

/-- The bounds on the second byte keep out overlong forms and what lies beyond the last character. -/
theorem encode_four {d e : UInt8} (hb : 240 ≤ b.toNat ∧ b.toNat ≤ 244)
    (hc : (if b.toNat = 240 then 144 else 128) ≤ c.toNat ∧
      c.toNat ≤ if b.toNat = 244 then 143 else 191) (hd : isTail d = true) (he : isTail e = true) :
    String.utf8EncodeChar (Char.ofNat
      (b.toNat % 8 * 262144 + tailBits c * 4096 + tailBits d * 64 + tailBits e)) = [b, c, d, e] := by
  obtain ⟨hlow, hhigh⟩ := tail_bounds hd
  obtain ⟨hlow', hhigh'⟩ := tail_bounds he
  obtain ⟨hclow, hchigh⟩ := hc
  have hrange : 128 ≤ c.toNat ∧ c.toNat ≤ 191 := by
    constructor
    · split at hclow <;> omega
    · split at hchigh <;> omega
  have hfirst : b.toNat = 240 → 144 ≤ c.toNat := fun he => by rwa [if_pos he] at hclow
  have hlast : b.toNat = 244 → c.toNat ≤ 143 := fun he => by rwa [if_pos he] at hchigh
  unfold tailBits
  rw [utf8EncodeChar_ofNat (.inr ⟨by omega, by omega⟩), if_neg (by omega), if_neg (by omega),
    if_neg (by omega), ofNat_eq (b := b) (by omega), ofNat_eq (b := c) (by omega),
    ofNat_eq (b := d) (by omega), ofNat_eq (b := e) (by omega)]

theorem toNat_ite (b x y z : UInt8) :
    (if b == x then y else z).toNat = if b.toNat = x.toNat then y.toNat else z.toNat := by
  by_cases h : b = x
  · simp [h]
  · rw [if_neg (by simpa using h), if_neg fun he => h (UInt8.toNat_inj.mp he)]

/-- A character is read from its own bytes. -/
theorem utf8EncodeChar_of_decodeHead {rest : List UInt8} {c : Char} {extra : Nat}
    (h : decodeHead b rest = some (c, extra)) : String.utf8EncodeChar c ++ rest.drop extra = b :: rest := by
  unfold decodeHead at h
  split at h
  next hascii =>
    cases h
    have hlt : b.toNat < 128 := hascii
    rw [utf8EncodeChar_ofNat (.inl (by omega)), if_pos (by omega), UInt8.ofNat_toNat]
    rfl
  split at h
  next hlead =>
    split at h
    · obtain ⟨htail, ⟨⟩⟩ := Option.ite_none_right_eq_some.mp h
      rw [encode_two (bounds_toNat hlead) htail]
      rfl
    · cases h
  split at h
  next hlead =>
    split at h
    · obtain ⟨htail, ⟨⟩⟩ := Option.ite_none_right_eq_some.mp h
      rw [Bool.and_eq_true] at htail
      have hsecond := bounds_toNat htail.1
      rw [toNat_ite, toNat_ite] at hsecond
      rw [encode_three (bounds_toNat hlead) hsecond htail.2]
      rfl
    · cases h
  split at h
  next hlead =>
    split at h
    · obtain ⟨htail, ⟨⟩⟩ := Option.ite_none_right_eq_some.mp h
      rw [Bool.and_eq_true, Bool.and_eq_true] at htail
      have hsecond := bounds_toNat htail.1.1
      rw [toNat_ite, toNat_ite] at hsecond
      rw [encode_four (bounds_toNat hlead) hsecond htail.1.2 htail.2]
      rfl
    · cases h
  · cases h

/-- No byte is lost or changed when a text is read. -/
theorem bytes_ofBytes (bs : List UInt8) : (ofBytes bs).bytes = bs := by
  fun_induction ofBytes bs with
  | case1 => rfl
  | case2 b rest c extra h ih =>
    rw [bytes_cons, ih]
    exact utf8EncodeChar_of_decodeHead h
  | case3 b rest h ih =>
    rw [bytes_cons, ih]
    rfl

/-! ## Newlines -/

/-- A stray byte is none that a character could begin with. -/
theorem le_of_stray_mem {bs : List UInt8} (h : .stray b ∈ ofBytes bs) : 128 ≤ b.toNat := by
  fun_induction ofBytes bs with
  | case1 => cases h
  | case2 b' rest c extra hd ih => exact ih (by simpa using h)
  | case3 b' rest hd ih =>
    rcases List.mem_cons.mp h with he | hmem
    · cases he
      apply Nat.le_of_not_lt
      intro hlt
      have hascii : b < 128 := UInt8.lt_iff_toNat_lt.mpr hlt
      simp [decodeHead, hascii] at hd
    · exact ih hmem

/-- Only a newline has the byte of a newline. -/
theorem count_newline_bytes {src : Source} (h : ∀ b, .stray b ∈ src → 128 ≤ b.toNat) :
    src.bytes.count 10 = src.count (.char '\n') := by
  induction src with
  | nil => rfl
  | cons l src ih =>
    have hl : l.bytes.count 10 = if l == .char '\n' then 1 else 0 := by
      by_cases he : l = .char '\n'
      · subst he
        decide
      · rw [if_neg (by simpa using he), List.count_eq_zero]
        cases l with
        | stray b =>
          intro hmem
          have hb := h b List.mem_cons_self
          rw [← List.mem_singleton.mp hmem] at hb
          exact absurd hb (by decide)
        | char c =>
          intro hmem
          have hc := toNat_of_mem_utf8EncodeChar hmem (by decide)
          exact he (congrArg _ (Char.toNat_inj.mp hc.symm))
    rw [bytes_cons, List.count_append, hl, ih fun b hb => h b (List.mem_cons_of_mem l hb),
      List.count_cons, Nat.add_comm]

end Source

end Frontend
