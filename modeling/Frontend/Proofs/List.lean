import Mathlib.Data.List.Basic
import Frontend.Text.Basic

/-!
# Lists

What the proofs about texts and files share: cutting a list at a separator and joining the parts
again, tables that are lists of names with values, and computations that may fail.
-/

namespace Frontend

/-! ## Cutting and joining -/

namespace Text

variable {α : Type} {stop : α → Bool} {p q : List α} {init : List (List α)} {last first : List α}
  {rest : List (List α)}

/-- The two parts that meet where texts are joined become one part. -/
theorem splitAt_append (hp : splitAt stop p = init ++ [last]) (hq : splitAt stop q = first :: rest) :
    splitAt stop (p ++ q) = init ++ (last ++ first) :: rest := by
  induction p generalizing init last with
  | nil =>
    cases init with
    | nil => obtain rfl : last = [] := by simpa using hp.symm
             simpa using hq
    | cons part parts => simp at hp
  | cons x p ih =>
    rw [List.cons_append, splitAt_cons]
    rw [splitAt_cons] at hp
    split at hp
    next hx =>
      rw [if_pos hx]
      cases init with
      | nil => exact absurd (List.cons.inj hp).2 (splitAt_ne_nil stop p)
      | cons part parts =>
        obtain ⟨rfl, hp'⟩ := List.cons.inj hp
        rw [ih hp', List.cons_append]
    next hx =>
      rw [if_neg hx]
      -- The part that takes the element in is the last one exactly when it is the only one.
      cases hs : splitAt stop p with
      | nil => exact absurd hs (splitAt_ne_nil stop p)
      | cons part parts =>
        rw [hs] at hp
        cases init with
        | nil =>
          obtain ⟨rfl, rfl⟩ : x :: part = last ∧ parts = [] := by simpa [prepend] using hp
          have hs' : splitAt stop p = [] ++ [part] := hs
          rw [ih hs']
          rfl
        | cons part' init =>
          obtain ⟨rfl, rfl⟩ : x :: part = part' ∧ parts = init ++ [last] := by
            simpa [prepend] using hp
          have hs' : splitAt stop p = (part :: init) ++ [last] := hs
          rw [ih hs']
          rfl

/-- A text without separators is its only part. -/
theorem splitAt_eq_singleton (h : ∀ x ∈ p, stop x = false) : splitAt stop p = [p] := by
  induction p with
  | nil => rfl
  | cons x p ih =>
    have hp := ih fun y hy => h y (List.mem_cons_of_mem x hy)
    rw [splitAt_cons, h x List.mem_cons_self, hp]
    rfl

/-- The parts of a text, with a separator in front of all but the first, are the text. -/
theorem join_splitAt [BEq α] [LawfulBEq α] {sep : α} (h : splitAt (· == sep) q = first :: rest) :
    first ++ rest.flatMap (sep :: ·) = q := by
  induction q generalizing first rest with
  | nil =>
    obtain ⟨rfl, rfl⟩ : [] = first ∧ [] = rest := by simpa using h
    rfl
  | cons x q ih =>
    cases hs : splitAt (· == sep) q with
    | nil => exact absurd hs (splitAt_ne_nil _ q)
    | cons part parts =>
      have hq := ih hs
      rw [splitAt_cons, hs] at h
      split at h
      next hx =>
        obtain ⟨rfl, rfl⟩ := List.cons.inj h
        rw [← hq, eq_of_beq hx]
        rfl
      next hx =>
        obtain ⟨rfl, rfl⟩ : x :: part = first ∧ parts = rest := by simpa [prepend] using h
        rw [← hq]
        rfl

/-- The parts of a text, with a separator behind all but the last, are the text. -/
theorem join_splitAt_init [BEq α] [LawfulBEq α] {sep : α}
    (h : splitAt (· == sep) p = init ++ [last]) : init.flatMap (· ++ [sep]) ++ last = p := by
  have key : ∀ (parts : List (List α)) (final : List α),
      parts.flatMap (· ++ [sep]) ++ final =
        (parts ++ [final]).headD [] ++ (parts ++ [final]).tail.flatMap (sep :: ·) := by
    intro parts final
    induction parts with
    | nil => simp
    | cons part parts ih =>
      rw [List.flatMap_cons, List.append_assoc, ih]
      cases parts <;> simp
  rw [key]
  cases init with
  | nil => exact join_splitAt h
  | cons part parts => exact join_splitAt h

end Text

/-! ## Tables -/

section Tables

variable {α β : Type} [BEq α] [LawfulBEq α]

/-- The value of a name in a table that starts with an entry. -/
theorem lookup_cons_eq [DecidableEq α] (key name : α) (value : β) (entries : List (α × β)) :
    ((key, value) :: entries).lookup name = if name = key then some value else entries.lookup name := by
  by_cases h : name = key
  · simp [h]
  · rw [List.lookup_cons, beq_eq_false_iff_ne.mpr h, if_neg h]

/-- Entries whose names a test refuses are left out, and no others. -/
theorem lookup_filter (keep : α → Bool) (name : α) (entries : List (α × β)) :
    (entries.filter fun e => keep e.1).lookup name = if keep name then entries.lookup name else none := by
  induction entries with
  | nil => simp
  | cons e entries ih =>
    obtain ⟨key, value⟩ := e
    rw [List.filter_cons]
    by_cases hname : name = key
    · subst hname
      cases hk : keep name with
      | true => simp
      | false => simpa [hk] using ih
    · have hb : (name == key) = false := beq_eq_false_iff_ne.mpr hname
      rw [List.lookup_cons, hb, ← ih]
      split
      · rw [List.lookup_cons, hb]
      · rfl

/-- A value that is found under a name is in the table. -/
theorem mem_of_lookup {name : α} {value : β} {entries : List (α × β)}
    (h : entries.lookup name = some value) : (name, value) ∈ entries := by
  obtain ⟨before, after, he, -⟩ := List.lookup_eq_some_iff.mp h
  rw [he]
  exact List.mem_append_right _ List.mem_cons_self

end Tables

/-! ## Computations that may fail -/

section Computations

variable {α β ε : Type} {f : α → Except ε β} {x : α} {xs : List α} {y : β} {ys : List β}

/-- What comes of two computations in a row. -/
theorem bind_ok {r : Except ε α} (h : (r >>= f) = .ok y) : ∃ x, r = .ok x ∧ f x = .ok y := by
  cases r with
  | error e => cases h
  | ok x => exact ⟨x, rfl, h⟩

/-- A series of computations succeeds when all of them do. -/
theorem mapM_cons_eq_ok (h : (x :: xs).mapM f = .ok ys) :
    ∃ z zs, f x = .ok z ∧ xs.mapM f = .ok zs ∧ ys = z :: zs := by
  rw [List.mapM_cons] at h
  obtain ⟨z, hz, h⟩ := bind_ok h
  obtain ⟨zs, hzs, h⟩ := bind_ok h
  exact ⟨z, zs, hz, hzs, (Except.ok.inj h).symm⟩

/-- Whatever a series of computations gives is the result of one of them. -/
theorem exists_of_mem_mapM (h : xs.mapM f = .ok ys) (hy : y ∈ ys) : ∃ x ∈ xs, f x = .ok y := by
  induction xs generalizing ys with
  | nil =>
    obtain rfl : [] = ys := by simpa [pure, Except.pure] using h
    exact nomatch hy
  | cons x xs ih =>
    obtain ⟨z, zs, hx, hxs, rfl⟩ := mapM_cons_eq_ok h
    obtain rfl | hy := List.mem_cons.mp hy
    · exact ⟨x, List.mem_cons_self, hx⟩
    · obtain ⟨x', hx', hf⟩ := ih hxs hy
      exact ⟨x', List.mem_cons_of_mem x hx', hf⟩

/-- Every computation of a series gives one of its results. -/
theorem exists_mem_of_mapM (h : xs.mapM f = .ok ys) (hx : x ∈ xs) : ∃ y ∈ ys, f x = .ok y := by
  induction xs generalizing ys with
  | nil => exact nomatch hx
  | cons x' xs ih =>
    obtain ⟨z, zs, hf, hxs, rfl⟩ := mapM_cons_eq_ok h
    obtain rfl | hx := List.mem_cons.mp hx
    · exact ⟨z, List.mem_cons_self, hf⟩
    · obtain ⟨y, hy, hf'⟩ := ih hxs hx
      exact ⟨y, List.mem_cons_of_mem z hy, hf'⟩

theorem toOption_eq_some {r : Except ε α} {a : α} : r.toOption = some a ↔ r = .ok a := by
  cases r <;> simp [Except.toOption]

/-- What a test finds in the result of a computation is there. -/
theorem exists_ok_of_any {r : Except ε α} {p : α → Bool} (h : r.toOption.any p = true) :
    ∃ x, r = .ok x ∧ p x = true := by
  cases r with
  | error e => cases h
  | ok x => exact ⟨x, rfl, h⟩

theorem exists_ok_of_isSome {r : Except ε α} (h : r.toOption.isSome = true) : ∃ x, r = .ok x :=
  (Option.isSome_iff_exists.mp h).imp fun _ => toOption_eq_some.mp

end Computations

end Frontend
