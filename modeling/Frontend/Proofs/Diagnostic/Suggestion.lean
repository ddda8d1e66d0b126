import Mathlib.Order.Bounds.Basic
import Frontend.Proofs.Word.Spelling

/-!
# The name that was probably meant

The table of edit distances is kept as one row at a time. Here its last entry is shown to be the least number of
edits that lead from one name to the other, and the search to find the first of the nearest candidates.
-/

namespace Frontend.Suggestion

/-! ## Edits -/

/-- One character is inserted, deleted or replaced. -/
inductive Edit : List Char → List Char → Prop
  | insert (front back : List Char) (c : Char) : Edit (front ++ back) (front ++ c :: back)
  | delete (front back : List Char) (c : Char) : Edit (front ++ c :: back) (front ++ back)
  | replace (front back : List Char) (c d : Char) : Edit (front ++ c :: back) (front ++ d :: back)

/-- The first list becomes the second one in `n` edits. -/
inductive Edits : Nat → List Char → List Char → Prop
  | refl (a : List Char) : Edits 0 a a
  | more {n : Nat} {a b a' : List Char} (first : Edit a b) (rest : Edits n b a') : Edits (n + 1) a a'

/-- The least number of edits, by recursion on both lists: what is left when their first characters are brought
into agreement, or one of them is taken away. -/
def fewest : List Char → List Char → Nat
  | [], b => b.length
  | a, [] => a.length
  | c :: a, d :: b =>
    min (fewest a (d :: b) + 1) (min (fewest (c :: a) b + 1) (fewest a b + if c = d then 0 else 1))
termination_by a b => a.length + b.length

variable {a a' b b' : List Char} {m n : Nat}

theorem Edit.symm (h : Edit a b) : Edit b a := by
  cases h with
  | insert front back c => exact .delete front back c
  | delete front back c => exact .insert front back c
  | replace front back c d => exact .replace front back d c

theorem Edit.cons (h : Edit a b) (c : Char) : Edit (c :: a) (c :: b) := by
  cases h with
  | insert front back d => exact .insert (c :: front) back d
  | delete front back d => exact .delete (c :: front) back d
  | replace front back d e => exact .replace (c :: front) back d e

theorem Edit.reverse (h : Edit a b) : Edit a.reverse b.reverse := by
  cases h with
  | insert front back c => simpa using Edit.insert back.reverse front.reverse c
  | delete front back c => simpa using Edit.delete back.reverse front.reverse c
  | replace front back c d => simpa using Edit.replace back.reverse front.reverse c d

theorem Edits.map {f : List Char → List Char} (hf : ∀ {a b}, Edit a b → Edit (f a) (f b)) (h : Edits n a b) :
    Edits n (f a) (f b) := by
  induction h with
  | refl a => exact .refl _
  | more first _ ih => exact .more (hf first) ih

theorem Edits.cons (h : Edits n a b) (c : Char) : Edits n (c :: a) (c :: b) := h.map fun he => he.cons c

theorem Edits.trans (h : Edits m a b) (h' : Edits n b b') : Edits (m + n) a b' := by
  induction h with
  | refl a => rwa [Nat.zero_add]
  | more first _ ih => rw [Nat.add_right_comm]; exact .more first (ih h')

theorem Edits.symm (h : Edits n a b) : Edits n b a := by
  induction h with
  | refl a => exact .refl a
  | more first _ ih => exact ih.trans (.more first.symm (.refl _))

theorem Edits.min (h : Edits m a b) (h' : Edits n a b) : Edits (min m n) a b := by
  rcases le_total m n with hle | hle
  · rwa [min_eq_left hle]
  · rwa [min_eq_right hle]

theorem edits_zero : Edits 0 a b ↔ a = b := by
  constructor
  · rintro ⟨⟩
    rfl
  · rintro rfl
    exact .refl a

/-! ## The least number of edits -/

@[simp] theorem fewest_nil_left (b : List Char) : fewest [] b = b.length := by rw [fewest]

@[simp] theorem fewest_nil_right (a : List Char) : fewest a [] = a.length := by
  cases a with
  | nil => rw [fewest]
  | cons c a => rw [fewest]; simp

theorem fewest_cons_cons (c d : Char) (a b : List Char) : fewest (c :: a) (d :: b) =
    min (fewest a (d :: b) + 1) (min (fewest (c :: a) b + 1) (fewest a b + if c = d then 0 else 1)) := by
  rw [fewest]

theorem fewest_self (a : List Char) : fewest a a = 0 := by
  induction a with
  | nil => exact fewest_nil_left []
  | cons c a ih => rw [fewest_cons_cons, ih, if_pos rfl]; omega

theorem fewest_cons_le (c : Char) (a b : List Char) : fewest (c :: a) b ≤ fewest a b + 1 := by
  cases b with
  | nil => simp
  | cons d b => rw [fewest_cons_cons]; omega

theorem fewest_le_cons (c : Char) (a b : List Char) : fewest a b ≤ fewest (c :: a) b + 1 := by
  induction b with
  | nil => simp; omega
  | cons d b ih =>
    have hright : fewest a (d :: b) ≤ fewest a b + 1 := by
      cases a with
      | nil => simp
      | cons e a => rw [fewest_cons_cons]; omega
    rw [fewest_cons_cons]
    omega

theorem fewest_replace (c d : Char) (a b : List Char) : fewest (c :: a) b ≤ fewest (d :: a) b + 1 := by
  induction b with
  | nil => simp
  | cons e b ih =>
    rw [fewest_cons_cons, fewest_cons_cons]
    split <;> omega

/-- What one more edit costs at most is the same behind a common first character. -/
theorem fewest_cons_mono (h : ∀ b, fewest a b ≤ fewest a' b + 1) (c : Char) (b : List Char) :
    fewest (c :: a) b ≤ fewest (c :: a') b + 1 := by
  induction b with
  | nil => simpa using h []
  | cons d b ih =>
    have hall := h (d :: b)
    have htail := h b
    rw [fewest_cons_cons, fewest_cons_cons]
    omega

theorem Edit.fewest_le (h : Edit a a') (b : List Char) : fewest a b ≤ fewest a' b + 1 := by
  have behind {x y : List Char} (front : List Char) (hxy : ∀ b, fewest x b ≤ fewest y b + 1) :
      ∀ b, fewest (front ++ x) b ≤ fewest (front ++ y) b + 1 := by
    induction front with
    | nil => exact hxy
    | cons c front ih => exact fewest_cons_mono ih c
  cases h with
  | insert front back c => exact behind front (fewest_le_cons c back) b
  | delete front back c => exact behind front (fewest_cons_le c back) b
  | replace front back c d => exact behind front (fewest_replace c d back) b

/-- No fewer edits lead from one list to the other. -/
theorem Edits.fewest_le (h : Edits n a b) : fewest a b ≤ n := by
  induction h with
  | refl a => exact (fewest_self a).le
  | more first _ ih => exact (first.fewest_le _).trans (Nat.add_le_add_right ih 1)

/-- As many edits do. -/
theorem edits_fewest (a b : List Char) : Edits (fewest a b) a b := by
  fun_induction fewest a b with
  | case1 b =>
    induction b with
    | nil => exact .refl []
    | cons d b ih => exact .more (.insert [] [] d) (ih.cons d)
  | case2 a ha =>
    clear ha
    induction a with
    | nil => exact .refl []
    | cons c a ih => exact .more (.delete [] a c) ih
  | case3 c a d b hdelete hinsert hkeep =>
    have hreplace : Edits (fewest a b + if c = d then 0 else 1) (c :: a) (d :: b) := by
      split
      next he => exact he ▸ hkeep.cons c
      · exact .more (.replace [] a c d) (hkeep.cons d)
    exact .min (.more (.delete [] a c) hdelete) (.min (.more (.insert [] (c :: a) d) (hinsert.cons d)) hreplace)

theorem isLeast_fewest (a b : List Char) : IsLeast {n | Edits n a b} (fewest a b) :=
  ⟨edits_fewest a b, fun _ h => Edits.fewest_le h⟩

theorem fewest_comm (a b : List Char) : fewest a b = fewest b a :=
  le_antisymm (edits_fewest b a).symm.fewest_le (edits_fewest a b).symm.fewest_le

theorem fewest_triangle (a b b' : List Char) : fewest a b' ≤ fewest a b + fewest b b' :=
  ((edits_fewest a b).trans (edits_fewest b b')).fewest_le

theorem fewest_eq_zero : fewest a b = 0 ↔ a = b :=
  ⟨fun h => edits_zero.mp (h ▸ edits_fewest a b), fun h => h ▸ fewest_self a⟩

theorem fewest_reverse (a b : List Char) : fewest a.reverse b.reverse = fewest a b := by
  have hle (a b : List Char) : fewest a.reverse b.reverse ≤ fewest a b :=
    ((edits_fewest a b).map Edit.reverse).fewest_le
  refine le_antisymm (hle a b) ?_
  simpa using hle a.reverse b.reverse

/-! ## The table -/

/-- The row of the table for what the reversed list `p` holds, from the column of the reversed list `q` on. -/
def row (p : List Char) : List Char → List Char → List Nat
  | q, [] => [fewest p q]
  | q, d :: ds => fewest p q :: row p (d :: q) ds

theorem row_eq_cons (p q ds : List Char) : ∃ more, row p q ds = fewest p q :: more := by
  cases ds with
  | nil => exact ⟨[], rfl⟩
  | cons d ds => exact ⟨_, rfl⟩

theorem nextRow_row (p q ds : List Char) (c : Char) :
    fewest (c :: p) q :: nextRow c (fewest (c :: p) q) (row p q ds) ds = row (c :: p) q ds := by
  induction ds generalizing q with
  | nil => rfl
  | cons d ds ih =>
    obtain ⟨more, hmore⟩ := row_eq_cons p (d :: q) ds
    have hnext := ih (d :: q)
    rw [hmore] at hnext
    have hhere : fewest (c :: p) (d :: q) = min (fewest p (d :: q) + 1)
        (min (fewest (c :: p) q + 1) (fewest p q + if (c == d) = true then 0 else 1)) := by
      simp only [fewest_cons_cons, beq_iff_eq]
    simp only [row, hmore, nextRow, ← hhere, hnext]

theorem lastRow_row (target source p : List Char) :
    lastRow target source p.length (row p [] target) = row (source.reverse ++ p) [] target := by
  induction source generalizing p with
  | nil => rfl
  | cons c source ih =>
    have hrow := nextRow_row p [] target c
    rw [fewest_nil_right, List.length_cons] at hrow
    rw [lastRow, hrow, List.reverse_cons, List.append_assoc]
    exact ih (c :: p)

theorem row_nil (q ds : List Char) : row [] q ds = List.range' q.length (ds.length + 1) := by
  induction ds generalizing q with
  | nil => simp [row]
  | cons d ds ih => rw [row, ih, fewest_nil_left, List.length_cons, List.length_cons]; rfl

theorem getLast?_row (p q ds : List Char) : (row p q ds).getLast? = some (fewest p (ds.reverse ++ q)) := by
  induction ds generalizing q with
  | nil => rfl
  | cons d ds ih =>
    obtain ⟨more, hmore⟩ := row_eq_cons p (d :: q) ds
    have hlast := ih (d :: q)
    rw [hmore] at hlast
    rw [row, hmore, List.getLast?_cons_cons, hlast, List.reverse_cons, List.append_assoc]
    rfl

theorem distanceOf_eq (source target : List Char) : distanceOf source target = fewest source target := by
  have hrow := lastRow_row target source []
  rw [row_nil] at hrow
  rw [distanceOf, List.range_eq_range']
  change ((lastRow target source 0 (List.range' 0 (target.length + 1))).getLast?).getD 0 = _
  rw [show (0 : Nat) = ([] : List Char).length from rfl, hrow, getLast?_row, Option.getD_some, List.append_nil,
    List.append_nil, fewest_reverse]

/-! ## The nearest candidate -/

variable {name best : String} {candidates : List String} {bound limit : Int}

/-- The first of the candidates that are nearest to a name. -/
def IsNearest (name : String) (candidates : List String) (best : String) : Prop :=
  ∃ front back, candidates = front ++ best :: back ∧ (∀ x ∈ front, distance name best < distance name x) ∧
    ∀ x ∈ back, distance name best ≤ distance name x

theorem IsNearest.le (h : IsNearest name candidates best) : ∀ x ∈ candidates, distance name best ≤ distance name x := by
  obtain ⟨front, back, rfl, hfront, hback⟩ := h
  intro x hx
  rcases List.mem_append.mp hx with hx | hx
  · exact (hfront x hx).le
  · rcases List.mem_cons.mp hx with rfl | hx
    · exact le_rfl
    · exact hback x hx

/-- The search goes on with what it has found as long as nothing nearer comes. -/
theorem closest_of_le (h : ∀ x ∈ candidates, bound ≤ distance name x) (found : Option String) :
    closest name candidates bound found = found := by
  induction candidates with
  | nil => rfl
  | cons c candidates ih =>
    obtain ⟨hc, hmore⟩ := List.forall_mem_cons.mp h
    rw [closest, if_neg (Int.not_lt.mpr hc), ih hmore]

theorem closest_of_isNearest (h : IsNearest name candidates best) (hbound : (distance name best : Int) < bound)
    (found : Option String) : closest name candidates bound found = some best := by
  obtain ⟨front, back, rfl, hfront, hback⟩ := h
  induction front generalizing bound found with
  | nil =>
    rw [List.nil_append, closest, if_pos hbound]
    exact closest_of_le (fun x hx => Int.ofNat_le.mpr (hback x hx)) (some best)
  | cons c front ih =>
    obtain ⟨hc, hfront⟩ := List.forall_mem_cons.mp hfront
    rw [List.cons_append, closest]
    split
    · exact ih (Int.ofNat_lt.mpr hc) _ hfront
    · exact ih hbound _ hfront

theorem exists_isNearest (name : String) (hne : candidates ≠ []) : ∃ best, IsNearest name candidates best := by
  induction candidates with
  | nil => exact absurd rfl hne
  | cons c candidates ih =>
    by_cases hmore : candidates = []
    · exact ⟨c, [], [], by rw [hmore]; rfl, List.forall_mem_nil _, List.forall_mem_nil _⟩
    · obtain ⟨best, h⟩ := ih hmore
      rcases lt_or_ge (distance name best) (distance name c) with hlt | hle
      · obtain ⟨front, back, rfl, hfront, hback⟩ := h
        exact ⟨best, c :: front, back, rfl, List.forall_mem_cons.mpr ⟨hlt, hfront⟩, hback⟩
      · exact ⟨c, [], candidates, rfl, List.forall_mem_nil _, fun x hx => hle.trans (h.le x hx)⟩

section
variable (hword : Decimal.inWord (limit + 1) = true)
include hword

theorem similar?_of_far (h : ∀ x ∈ candidates, limit < distance name x) : similar? name candidates limit = none := by
  rw [similar?, Word.wrapWord_of_inWord hword]
  exact closest_of_le (fun x hx => Int.add_one_le_of_lt (h x hx)) none

theorem similar?_of_isNearest (h : IsNearest name candidates best) (hlimit : (distance name best : Int) ≤ limit) :
    similar? name candidates limit = some best := by
  rw [similar?, Word.wrapWord_of_inWord hword]
  exact closest_of_isNearest h (Int.lt_add_one_of_le hlimit) none

theorem similar?_eq_some_iff :
    similar? name candidates limit = some best ↔
      IsNearest name candidates best ∧ (distance name best : Int) ≤ limit := by
  refine ⟨fun h => ?_, fun h => similar?_of_isNearest hword h.1 h.2⟩
  have hne : candidates ≠ [] := by
    rintro rfl
    cases h
  obtain ⟨nearest, hnearest⟩ := exists_isNearest name hne
  rcases lt_or_ge limit (distance name nearest) with hfar | hle
  · have hnone := similar?_of_far hword fun x hx => hfar.trans_le (Int.ofNat_le.mpr (hnearest.le x hx))
    cases hnone.symm.trans h
  · have hsome := similar?_of_isNearest hword hnearest hle
    cases Option.some.inj (hsome.symm.trans h)
    exact ⟨hnearest, hle⟩

theorem similar?_eq_none_iff : similar? name candidates limit = none ↔ ∀ x ∈ candidates, limit < distance name x := by
  refine ⟨fun h x hx => ?_, similar?_of_far hword⟩
  obtain ⟨nearest, hnearest⟩ := exists_isNearest name (List.ne_nil_of_mem hx)
  by_contra hle
  have hsome := similar?_of_isNearest hword hnearest
    ((Int.ofNat_le.mpr (hnearest.le x hx)).trans (Int.not_lt.mp hle))
  cases h.symm.trans hsome

end

/-- The distance of two names is the least number of edits between their lower-case forms, and with that a
distance indeed. For every limit that is a word, but for the largest one, the search finds the first of the nearest
candidates if it is near enough, and nothing exactly if all of them are farther away. -/
theorem nearest_by_fewest_edits (name : String) (candidates : List String) {limit : Int}
    (hword : Decimal.inWord limit = true) (hlargest : limit ≠ 9223372036854775807) :
    (∀ a b, distance a b = fewest (Text.lower a).toList (Text.lower b).toList ∧
      IsLeast {n | Edits n (Text.lower a).toList (Text.lower b).toList} (distance a b) ∧
      distance a b = distance b a ∧ (∀ c, distance a c ≤ distance a b + distance b c) ∧
      (distance a b = 0 ↔ Text.lower a = Text.lower b)) ∧
    (∀ best, similar? name candidates limit = some best ↔
      IsNearest name candidates best ∧ (distance name best : Int) ≤ limit) ∧
    (similar? name candidates limit = none ↔ ∀ x ∈ candidates, limit < distance name x) := by
  have hdistance (a b : String) : distance a b = fewest (Text.lower a).toList (Text.lower b).toList :=
    distanceOf_eq _ _
  have hnext : Decimal.inWord (limit + 1) = true := by
    have half : Number.twoTo 63 = 9223372036854775808 := rfl
    simp only [Decimal.inWord, half, Bool.and_eq_true, decide_eq_true_eq] at hword ⊢
    omega
  refine ⟨fun a b => ⟨hdistance a b, ?_, ?_, fun c => ?_, ?_⟩, fun best => similar?_eq_some_iff hnext,
    similar?_eq_none_iff hnext⟩
  · rw [hdistance]
    exact isLeast_fewest _ _
  · rw [hdistance, hdistance, fewest_comm]
  · rw [hdistance, hdistance, hdistance]
    exact fewest_triangle _ _ _
  · rw [hdistance, fewest_eq_zero, String.toList_inj]

/-- Of two candidates that are equally near, the first one is found. -/
theorem isNearest_first_of_two : Decimal.inWord 2 = true ∧ (2 : Int) ≠ 9223372036854775807 ∧
    IsNearest "Kite" ["bit", "mite", "site"] "mite" := by
  have hnearest := (@nearest_by_fewest_edits "Kite" ["bit", "mite", "site"] 2 (by decide) (by decide)).2.1
  exact ⟨by decide, by decide, ((hnearest "mite").mp (by decide +kernel)).1⟩

/-- The bound above the largest limit is the smallest word, so nothing is below it. Typing errors are looked for
with limits of one and two. -/
theorem similar?_at_largest_limit : ¬∀ (name best : String) (candidates : List String) (limit : Int),
    Decimal.inWord limit = true → IsNearest name candidates best → (distance name best : Int) ≤ limit →
      similar? name candidates limit = some best := by
  intro h
  have hnearest : IsNearest "a" ["a"] "a" := ⟨[], [], rfl, List.forall_mem_nil _, List.forall_mem_nil _⟩
  have hfound := h "a" "a" ["a"] 9223372036854775807 (by decide) hnearest (by decide +kernel)
  have hnone : similar? "a" ["a"] 9223372036854775807 = none := by decide +kernel
  cases hnone.symm.trans hfound

end Frontend.Suggestion
