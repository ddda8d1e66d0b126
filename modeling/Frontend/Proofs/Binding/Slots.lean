import Frontend.Lowering.Function
import Frontend.Lowering.Call
import Mathlib.Data.List.Perm.Basic

/-!
# Where arguments go

The binding of a call is written down in closed form: what every parameter takes, given the positional
arguments and the arguments passed by name. Planning a call comes to that form step by step, and the
conditions under which no step fails are those under which a call is accepted.
-/

namespace Frontend

variable {q : Parameter} {f : Binding → Binding}

namespace Binding

/-! ## The closed form -/

/-- The parameters that take a single argument. -/
def ordinary (params : List Parameter) : List Parameter := params.filter (isOrdinary ·.kind)

/-- The parameters that positional arguments fill: those in front of the first collecting one. -/
def leading (params : List Parameter) : List Parameter := params.takeWhile (isOrdinary ·.kind)

/-- The place of the parameter that a name stands for: of the first ordinary parameter with the name. -/
def placeOf? (params : List Parameter) (name : String) : Option Nat :=
  params.findIdx? fun p => p.name == name && isOrdinary p.kind

/-- The positional argument that the ordinary parameter at a place takes. -/
def positionalAt (params : List Parameter) (given : List Argument) (i : Nat) : Option Argument :=
  if i < (leading params).length then given[i]? else none

/-- The first argument that is passed by name to the parameter at a place. -/
def namedAt (params : List Parameter) (keywords : List Argument) (i : Nat) : Option Argument :=
  keywords.find? fun a => placeOf? params a.name == some i

/-- What is bound to the ordinary parameter at a place. -/
def boundAt (params : List Parameter) (given keywords : List Argument) (i : Nat) : Option Argument :=
  (positionalAt params given i).or (namedAt params keywords i)

/-- What the parameter at a place takes: `*rest` the positional arguments that are left over, `**opts` the
arguments whose names stand for no parameter, and every other parameter what is bound to it. -/
def slot (params : List Parameter) (given keywords : List Argument) (i : Nat) (p : Parameter) : Binding :=
  match p.kind with
  | .restPositional => { param := p, rest := given.drop (leading params).length }
  | .restKeyword =>
    { param := p, rest := keywords.filter fun a => (placeOf? params a.name).isNone }
  | _ => { param := p, value := boundAt params given keywords i }

/-- What the parameters take, in order. -/
def slots (params : List Parameter) (given keywords : List Argument) : List Binding :=
  params.mapIdx (slot params given keywords)

/-- The arguments that a parameter takes. -/
def arguments (b : Binding) : List Argument := b.value.toList ++ b.rest

/-- Parameters in an order that a parameter list may have: behind `*rest` only such that have defaults, and
`**opts` at the end. The truth value tells whether `*rest` came before. -/
inductive Arranged : Bool → List Parameter → Prop where
  | nil {restSeen : Bool} : Arranged restSeen []
  | positional {p : Parameter} {ps : List Parameter} (hp : p.kind = .positional)
      (h : Arranged false ps) : Arranged false (p :: ps)
  | keyword {restSeen : Bool} {p : Parameter} {ps : List Parameter} (hp : p.kind = .keyword)
      (h : Arranged restSeen ps) : Arranged restSeen (p :: ps)
  | rest {p : Parameter} {ps : List Parameter} (hp : p.kind = .restPositional)
      (h : Arranged true ps) : Arranged false (p :: ps)
  | opts {restSeen : Bool} {p : Parameter} (hp : p.kind = .restKeyword) : Arranged restSeen [p]

/-- An argument passed by name has a parameter to go to, when those before it are bound: the name stands for
a parameter that nothing is bound to, or for none while there is `**opts`. -/
def KeywordFits (params : List Parameter) (given before : List Argument) (a : Argument) : Prop :=
  (∃ i, placeOf? params a.name = some i ∧ boundAt params given before i = none) ∨
    placeOf? params a.name = none ∧ ∃ p ∈ params, p.kind = .restKeyword

/-- The conditions under which arguments can be bound to parameters. -/
structure Accepts (t : SymbolTable) (params : List Parameter) (given keywords : List Argument) :
    Prop where
  room : (∃ p ∈ params, p.kind = .restPositional) ∨
    given.length ≤ (ordinary params).length
  named : ∀ before a after, keywords = before ++ a :: after → KeywordFits params given before a
  required : ∀ i p, params[i]? = some p → p.kind = .positional →
    (boundAt params given keywords i).isSome = true
  assignable : ∀ i p a, params[i]? = some p → isOrdinary p.kind = true →
    boundAt params given keywords i = some a → t.assignable p.type a.value.effective = true

variable {params ps : List Parameter} {p : Parameter} {given keywords before : List Argument}
  {a : Argument} {restSeen : Bool} {t : SymbolTable} {callee name : String} {bs : List Binding} {i : Nat}

@[simp] theorem param_slot : (slot params given keywords i p).param = p := by
  unfold slot
  split <;> rfl

theorem getElem?_slots : (slots params given keywords)[i]? = params[i]?.map (slot params given keywords i) :=
  List.getElem?_mapIdx

@[simp] theorem map_param_slots : (slots params given keywords).map (·.param) = params := by
  refine List.ext_getElem? fun i => ?_
  rw [List.getElem?_map, getElem?_slots, Option.map_map]
  cases params[i]? <;> simp

theorem exists_mem_slots (params : List Parameter) (given keywords : List Argument) (q : Parameter → Prop) :
    (∃ b ∈ slots params given keywords, q b.param) ↔ ∃ p ∈ params, q p := by
  constructor
  · rintro ⟨b, hb, hq⟩
    have hp := List.mem_map_of_mem (f := (·.param)) hb
    rw [map_param_slots] at hp
    exact ⟨b.param, hp, hq⟩
  · rintro ⟨p, hp, hq⟩
    have hp : p ∈ (slots params given keywords).map (·.param) := by rwa [map_param_slots]
    obtain ⟨b, hb, rfl⟩ := List.mem_map.mp hp
    exact ⟨b, hb, hq⟩

section
variable (hp : isOrdinary p.kind = true)
include hp

theorem slot_of_ordinary :
    slot params given keywords i p = { param := p, value := boundAt params given keywords i } := by
  unfold slot
  cases hk : p.kind <;> first | rfl | (rw [hk] at hp; cases hp)

/-! ## Positional arguments -/

theorem leading_cons : leading (p :: ps) = p :: leading ps :=
  List.takeWhile_cons_of_pos hp

theorem ordinary_cons : ordinary (p :: ps) = p :: ordinary ps :=
  List.filter_cons_of_pos hp

end

theorem leading_cons_rest (hp : p.kind = .restPositional) : leading (p :: ps) = [] :=
  List.takeWhile_cons_of_neg (by rw [hp]; decide)

/-- Without positional arguments every parameter is left unbound. -/
theorem positional_nil (params : List Parameter) :
    positional params [] = (params.map fun p => { param := p }, []) := by
  induction params with
  | nil => rfl
  | cons p ps ih =>
    unfold positional
    split <;> simp_all

/-- Behind `*rest` positional arguments fill nothing. -/
theorem slot_behind_rest (hp : p.kind = .restPositional) (hq : q.kind ≠ .restPositional) :
    slot (p :: ps) given [] i q = { param := q } := by
  unfold slot boundAt positionalAt namedAt
  rw [leading_cons_rest hp]
  split <;> simp_all

theorem Arranged.kind_ne (h : Arranged true ps) : ∀ q ∈ ps, q.kind ≠ .restPositional := by
  generalize hr : true = r at h
  induction h with
  | nil => simp
  | positional => cases hr
  | keyword hp _ ih => simpa [hp] using ih hr
  | rest => cases hr
  | opts hp => simp [hp]

section
variable (hp : isOrdinary p.kind = true)
include hp

/-- Behind the first ordinary parameter and the first positional argument, the rest goes its own way. -/
theorem slot_cons_succ : slot (p :: ps) given [] (i + 1) q = slot ps given.tail [] i q := by
  unfold slot boundAt positionalAt namedAt
  rw [leading_cons hp]
  cases given <;> simp

theorem slot_cons_zero : slot (p :: ps) given [] 0 p = { param := p, value := given.head? } := by
  rw [slot_of_ordinary hp]
  unfold boundAt positionalAt namedAt
  rw [leading_cons hp]
  cases given <;> simp

theorem slots_cons : slots (p :: ps) given [] = { param := p, value := given.head? } :: slots ps given.tail [] := by
  unfold slots
  rw [List.mapIdx_cons, slot_cons_zero hp]
  congr 1
  exact List.mapIdx_eq_mapIdx_iff.mpr fun i hi => slot_cons_succ hp

theorem positional_cons :
    positional (p :: ps) given = ({ param := p, value := given.head? } :: (positional ps given.tail).1,
      (positional ps given.tail).2) := by
  conv_lhs => unfold positional
  split
  · rename_i hk
    rw [hk] at hp
    cases hp
  · rename_i hk
    rw [hk] at hp
    cases hp
  · rfl
  · rfl

end

/-- Positional arguments come to the closed form. What is left over is what no ordinary parameter takes,
unless `*rest` takes it. -/
theorem positional_eq (h : Arranged false params) : positional params given = (slots params given [],
      if params.any (·.kind == .restPositional) then []
      else given.drop (ordinary params).length) := by
  generalize hr : false = r at h
  induction h generalizing given with
  | nil => rfl
  | @positional p ps hp h ih =>
    have hordinary : isOrdinary p.kind = true := by rw [hp]; rfl
    rw [positional_cons hordinary, ih rfl, slots_cons hordinary, ordinary_cons hordinary]
    simp [hp]
  | @keyword r p ps hp h ih =>
    have hordinary : isOrdinary p.kind = true := by rw [hp]; rfl
    rw [positional_cons hordinary, ih hr, slots_cons hordinary, ordinary_cons hordinary]
    simp [hp]
  | @rest p ps hp h =>
    have first : slot (p :: ps) given [] 0 p = { param := p, rest := given } := by
      unfold slot
      rw [hp, leading_cons_rest hp]
      rfl
    have others : ps.mapIdx (fun i => slot (p :: ps) given [] (i + 1)) = ps.map fun q => { param := q } := by
      refine List.ext_getElem? fun i => ?_
      rw [List.getElem?_mapIdx, List.getElem?_map]
      cases hq : ps[i]? with
      | none => rfl
      | some q => exact congrArg some (slot_behind_rest hp (h.kind_ne q (List.mem_of_getElem? hq)))
    unfold positional
    rw [hp]
    simp only [positional_nil]
    unfold slots
    rw [List.mapIdx_cons, first, others]
    simp [hp]
  | @opts r p hp =>
    unfold positional slots
    rw [hp]
    simp [positional, slot, hp, ordinary, isOrdinary]

/-! ## Arguments passed by name -/

/-- The bindings of a parameter list are looked through like the list. -/
theorem findIdx?_slots (name : String) :
    (slots params given keywords).findIdx? (isNamed name) = placeOf? params name := by
  have hmap : placeOf? params name = ((slots params given keywords).map (·.param)).findIdx?
      fun p => p.name == name && isOrdinary p.kind := by rw [map_param_slots, placeOf?]
  rw [hmap, List.findIdx?_map]
  rfl

theorem isOrdinary_of_placeOf? (h : placeOf? params name = some i) :
    ∃ p, params[i]? = some p ∧ p.name = name ∧ isOrdinary p.kind = true := by
  obtain ⟨hlt, hp, -⟩ := List.findIdx?_eq_some_iff_getElem.mp h
  rw [Bool.and_eq_true, beq_iff_eq] at hp
  exact ⟨params[i], List.getElem?_eq_getElem hlt, hp⟩

theorem find?_slots (name : String) : (slots params given keywords).find? (isNamed name) =
      (placeOf? params name).bind fun i => (slots params given keywords)[i]? := by
  rw [List.find?_eq_bind_findIdx?_getElem?, findIdx?_slots]

theorem changeFirst_eq {q : Binding → Bool} (h : bs.findIdx? q = some i) : changeFirst q f bs = bs.modify i f := by
  induction bs generalizing i with
  | nil => cases h
  | cons b bs ih =>
    rw [List.findIdx?_cons] at h
    unfold changeFirst
    split
    · rename_i hb
      rw [hb] at h
      cases h
      rfl
    · rename_i hb
      rw [if_neg hb] at h
      obtain ⟨j, hj, rfl⟩ := Option.map_eq_some_iff.mp h
      rw [ih hj]
      rfl

/-- An argument whose name stands for a parameter changes what is bound to that one only. -/
theorem slots_concat_of_place (h : placeOf? params a.name = some i) (hfree : boundAt params given before i = none) :
    slots params given (before ++ [a]) =
      (slots params given before).modify i fun b => { b with value := some a } := by
  obtain ⟨p, hp, -, hordinary⟩ := isOrdinary_of_placeOf? h
  refine List.ext_getElem? fun j => ?_
  by_cases hij : i = j
  · subst hij
    obtain ⟨hpositional, hnamed⟩ := Option.or_eq_none_iff.mp hfree
    rw [List.getElem?_modify_eq, getElem?_slots, getElem?_slots, hp]
    simp only [Option.map_some, slot_of_ordinary hordinary, boundAt, hpositional, Option.none_or]
    unfold namedAt at hnamed ⊢
    simp [List.find?_append, hnamed, h]
  · rw [List.getElem?_modify_ne _ _ hij, getElem?_slots, getElem?_slots]
    congr 1
    funext q
    unfold slot boundAt namedAt
    simp [List.find?_append, List.filter_append, h, hij]

/-- `**opts` stands at the end. -/
theorem Arranged.exists_opts (h : Arranged restSeen params) (hp : ∃ p ∈ params, p.kind = .restKeyword) :
    ∃ (front : List Parameter) (p : Parameter), params = front ++ [p] ∧ p.kind = .restKeyword ∧ ∀ q ∈ front, q.kind ≠ .restKeyword := by
  have behind : ∀ {q : Parameter} {ps : List Parameter}, q.kind ≠ .restKeyword →
      (∃ (front : List Parameter) (p : Parameter), ps = front ++ [p] ∧ p.kind = .restKeyword ∧
        ∀ q ∈ front, q.kind ≠ .restKeyword) →
      ∃ (front : List Parameter) (p : Parameter), q :: ps = front ++ [p] ∧ p.kind = .restKeyword ∧
        ∀ q ∈ front, q.kind ≠ .restKeyword := by
    rintro q _ hq ⟨front, p, rfl, hp, hfront⟩
    exact ⟨q :: front, p, rfl, hp, by simpa using ⟨hq, hfront⟩⟩
  induction h with
  | nil => simp at hp
  | positional hk _ ih => exact behind (by simp [hk]) (ih (by simpa [hk] using hp))
  | keyword hk _ ih => exact behind (by simp [hk]) (ih (by simpa [hk] using hp))
  | rest hk _ ih => exact behind (by simp [hk]) (ih (by simpa [hk] using hp))
  | opts hk => exact ⟨[], _, rfl, hk, by simp⟩

theorem any_collectsNamed_slots (params : List Parameter) (given keywords : List Argument) :
    (slots params given keywords).any collectsNamed = true ↔ ∃ p ∈ params, p.kind = .restKeyword := by
  rw [← exists_mem_slots params given keywords fun p => p.kind = .restKeyword]
  simp [collectsNamed]

theorem changeLast_concat {q : Binding → Bool} {b : Binding} (h : q b = true) :
    changeLast q f (bs ++ [b]) = bs ++ [f b] := by
  unfold changeLast
  rw [List.reverse_concat, changeFirst, if_pos h, List.reverse_cons, List.reverse_reverse]

/-- An argument whose name stands for no parameter goes to `**opts`. -/
theorem slots_concat_of_opts (hparams : Arranged restSeen params) (h : placeOf? params a.name = none)
    (hopts : ∃ p ∈ params, p.kind = .restKeyword) : slots params given (before ++ [a]) =
      changeLast collectsNamed (fun b => { b with rest := b.rest ++ [a] }) (slots params given before) := by
  have same : ∀ q : Parameter, q.kind ≠ .restKeyword → ∀ j,
      slot params given (before ++ [a]) j q = slot params given before j q := by
    intro q hq j
    unfold slot boundAt namedAt
    split <;> simp_all [List.find?_append]
  obtain ⟨front, p, hfront, hp, hne⟩ := hparams.exists_opts hopts
  have last : ∀ keywords, slots params given keywords =
      front.mapIdx (slot params given keywords) ++ [slot params given keywords front.length p] := by
    intro keywords
    conv_lhs => rw [slots, hfront, List.mapIdx_concat]
    rw [← hfront]
  rw [last, last, changeLast_concat (by simp [collectsNamed, hp])]
  congr 1
  · exact List.mapIdx_eq_mapIdx_iff.mpr fun j hj => same _ (hne _ (List.getElem_mem hj)) j
  · simp [slot, hp, List.filter_append, h]

/-- Binding the arguments passed by name comes to the closed form, if every one of them fits. -/
theorem named_slots (hparams : Arranged restSeen params) (callee : String)
    (given before keywords : List Argument) (bs : List Binding) :
    named callee (slots params given before) keywords = .ok bs ↔
      (∀ pre a post, keywords = pre ++ a :: post → KeywordFits params given (before ++ pre) a) ∧
        bs = slots params given (before ++ keywords) := by
  induction keywords generalizing before with
  | nil =>
    rw [named, Except.ok.injEq, List.append_nil, eq_comm]
    simp
  | cons a keywords ih =>
    have split_cons : (∀ pre b post, a :: keywords = pre ++ b :: post →
        KeywordFits params given (before ++ pre) b) ↔ KeywordFits params given before a ∧
        ∀ pre b post, keywords = pre ++ b :: post → KeywordFits params given (before ++ [a] ++ pre) b := by
      constructor
      · intro h
        refine ⟨by simpa using h [] a keywords rfl, fun pre b post he => ?_⟩
        simpa using h (a :: pre) b post (by rw [he]; rfl)
      · rintro ⟨hfirst, hrest⟩ pre b post he
        cases pre with
        | nil =>
          obtain ⟨rfl, -⟩ := List.cons.inj he
          simpa using hfirst
        | cons c pre =>
          obtain ⟨rfl, hkeywords⟩ := List.cons.inj he
          simpa using hrest pre b post hkeywords
    rw [split_cons, named, find?_slots]
    cases hplace : placeOf? params a.name with
    | some i =>
      obtain ⟨p, hp, -, hordinary⟩ := isOrdinary_of_placeOf? hplace
      have hslot : (slots params given before)[i]? =
          some { param := p, value := boundAt params given before i } := by
        rw [getElem?_slots, hp, Option.map_some, slot_of_ordinary hordinary]
      have hfits : KeywordFits params given before a ↔ boundAt params given before i = none := by
        simp [KeywordFits, hplace]
      rw [Option.bind_some, hslot, hfits]
      cases hbound : boundAt params given before i with
      | some b => simp
      | none =>
        simp only [Option.isSome_none, Bool.false_eq_true, if_false, true_and]
        rw [changeFirst_eq ((findIdx?_slots a.name).trans hplace), ← slots_concat_of_place hplace hbound, ih]
        simp
    | none =>
      have hany := any_collectsNamed_slots params given before
      have hfits : KeywordFits params given before a ↔ ∃ p ∈ params, p.kind = .restKeyword := by
        simp [KeywordFits, hplace]
      rw [Option.bind_none, hfits]
      by_cases hopts : ∃ p ∈ params, p.kind = .restKeyword
      · simp only [hany.mpr hopts, if_true]
        rw [← slots_concat_of_opts hparams hplace hopts, ih]
        simp [hopts]
      · rw [if_neg (mt hany.mp hopts)]
        simp [hopts]

end Binding

end Frontend
