import Frontend.Parse.Expression
import Mathlib.Computability.RegularExpressions

/-!
# Parameter lists

The kinds of the parameters of a function are a word of a regular language. Nodes are read as parameters exactly
if each of them is written as one and their kinds are such a word; else the first node is refused with which no
parameter list can go on.
-/

namespace Frontend

/-- A parameter and a node that it is written as: `a`, `a = 1`, which was read as an argument passed by name or as an
assignment, `*a` or `**a`. -/
inductive Param.Written : Param → Node → Prop where
  | positional (name : Ident) : Written (.mk name .positional none) (.ident name)
  | keyword (name : Ident) (value : Node) : Written (.mk name .keyword (some value)) (.argument name value)
  | assigned (name : Ident) {op : Token} (value : Node) (hop : op.kind = .op .assign) :
      Written (.mk name .keyword (some value)) (.assign (.ident name) op value)
  | rest (name : Ident) {op : Token} (hop : op.kind = .op .star) :
      Written (.mk name .restPositional none) (.unary op (.ident name))
  | opts (name : Ident) {op : Token} (hop : op.kind = .op .power) :
      Written (.mk name .restKeyword none) (.unary op (.ident name))

/-! ## The order of parameters -/

namespace ParamKind

open RegularExpression

variable {k x : ParamKind} {ks : List ParamKind} {P Q : RegularExpression ParamKind} {restSeen optsSeen : Bool}

/-- The orders that a parameter list may have: `(positional | keyword)* (restPositional keyword*)? restKeyword?`. -/
def order : RegularExpression ParamKind :=
  (char positional + char keyword).star * (1 + char restPositional * (char keyword).star) * (1 + char restKeyword)

/-- What may stand behind `*rest`. -/
def behindRest : RegularExpression ParamKind := (char keyword).star * (1 + char restKeyword)

/-- What may stand behind parameters among which `*rest` or `**opts` was or was not. -/
def behind (restSeen optsSeen : Bool) : RegularExpression ParamKind :=
  if optsSeen then 1 else if restSeen then behindRest else order

example : [positional, keyword, restPositional, keyword, restKeyword] ∈ order.matches' ∧
    [restPositional, positional] ∉ order.matches' := by decide

theorem cons_mem_char_mul : k :: ks ∈ (char x * P).matches' ↔ k = x ∧ ks ∈ P.matches' := by
  rw [matches'_mul, matches'_char, Language.mem_mul]
  constructor
  · rintro ⟨_, rfl, tail, htail, h⟩
    obtain ⟨rfl, rfl⟩ := List.cons.inj h
    exact ⟨rfl, htail⟩
  · rintro ⟨rfl, h⟩
    exact ⟨[k], rfl, ks, h, rfl⟩

/-- A repetition is over or begins with one more round. -/
theorem matches'_star_mul : (P.star * Q).matches' = (Q + P * (P.star * Q)).matches' := by
  simp only [matches'_mul, matches'_add, matches'_star]
  nth_rewrite 1 [← Language.one_add_self_mul_kstar_eq_kstar]
  rw [add_mul, one_mul, mul_assoc]

theorem cons_mem_ending : k :: ks ∈ (1 + char restKeyword).matches' ↔ k = restKeyword ∧ ks = [] := by
  rw [matches'_add, Language.mem_add, matches'_epsilon, Language.mem_one, matches'_char]
  exact ⟨fun h => List.cons.inj (h.resolve_left (List.cons_ne_nil k ks)), fun h => .inr (h.1 ▸ h.2 ▸ rfl)⟩

theorem cons_mem_behindRest :
    k :: ks ∈ behindRest.matches' ↔ k = restKeyword ∧ ks = [] ∨ k = keyword ∧ ks ∈ behindRest.matches' := by
  conv_lhs => rw [behindRest, matches'_star_mul, matches'_add, Language.mem_add, cons_mem_ending, cons_mem_char_mul]
  rfl

theorem cons_mem_order : k :: ks ∈ order.matches' ↔ k = restKeyword ∧ ks = [] ∨
    k = restPositional ∧ ks ∈ behindRest.matches' ∨ (k = positional ∨ k = keyword) ∧ ks ∈ order.matches' := by
  -- one more ordinary parameter, or the end, or `*rest` with what may stand behind it
  have hround : order.matches' = (1 + char restKeyword + char restPositional * behindRest +
      (char positional * order + char keyword * order)).matches' := by
    conv_lhs => rw [order, matches'_mul, matches'_mul, mul_assoc, ← matches'_mul, ← matches'_mul, matches'_star_mul]
    simp only [order, behindRest, matches'_mul, matches'_add, matches'_epsilon, matches'_star, add_mul, one_mul,
      mul_assoc]
  conv_lhs => rw [hround, matches'_add, matches'_add (_ + _), matches'_add (_ * _)]
  simp only [Language.mem_add, cons_mem_ending, cons_mem_char_mul]
  rw [or_assoc, or_and_right]

/-- A parameter that may follow, and then others behind it. -/
theorem cons_mem_behind : k :: ks ∈ (behind restSeen optsSeen).matches' ↔
    Parse.paramFits k restSeen optsSeen = true ∧
      ks ∈ (behind (restSeen || k == restPositional) (optsSeen || k == restKeyword)).matches' := by
  cases optsSeen with
  | true => simp [behind, Parse.paramFits, Language.mem_one]
  | false =>
    cases restSeen with
    | true => cases k <;> simp [behind, cons_mem_behindRest, Parse.paramFits, Language.mem_one]
    | false => cases k <;> simp [behind, cons_mem_order, Parse.paramFits, Language.mem_one]

theorem nil_mem_behind : [] ∈ (behind restSeen optsSeen).matches' := by
  cases optsSeen <;> cases restSeen <;> decide

end ParamKind

/-! ## Nodes as parameters -/

namespace Parse

open ParamKind

variable {n : Node} {ns : List Node} {p : Param} {ps : List Param} {restSeen optsSeen : Bool} {message : Phrase}
  {L : RegularExpression ParamKind}

theorem paramOf?_eq_some_iff : paramOf? n = some p ↔ p.Written n := by
  constructor
  · intro h
    unfold paramOf? at h
    split at h
    · cases h
      exact .positional _
    · cases h
      exact .keyword _ _
    · split at h
      · next hop =>
        cases h
        exact .assigned _ _ (by simpa using hop)
      · cases h
    · split at h
      · next hop =>
        cases h
        exact .rest _ (by simpa using hop)
      · split at h
        · next hop =>
          cases h
          exact .opts _ (by simpa using hop)
        · cases h
    · cases h
  · rintro (_ | _ | ⟨_, _, hop⟩ | ⟨_, hop⟩ | ⟨_, hop⟩)
    all_goals simp [paramOf?, *]

theorem paramOf?_eq_none_iff : paramOf? n = none ↔ ∀ p : Param, ¬ p.Written n := by
  simp only [← paramOf?_eq_some_iff, Option.eq_none_iff_forall_ne_some, ne_eq]

/-- What is wrong with a node behind parameters: it is no parameter, or it may not stand there. -/
inductive Misfit (L : RegularExpression ParamKind) (ps : List Param) (n : Node) : Phrase → Prop where
  | shape (h : ∀ p : Param, ¬ p.Written n) : Misfit L ps n (.entry .invalidParameter [.text n.text])
  | order {p : Param} (hp : p.Written n) (h : (ps ++ [p]).map Param.kind ∉ L.matches') :
      Misfit L ps n (.entry .parameterOrder [.text p.name.name])

/-- The first node of which something is wrong, behind others that are parameters. -/
def Refuses (L : RegularExpression ParamKind) (ns : List Node) (n : Node) (message : Phrase) : Prop :=
  ∃ ps before after, ns = before ++ n :: after ∧ List.Forall₂ Param.Written ps before ∧
    ps.map Param.kind ∈ L.matches' ∧ Misfit L ps n message

theorem Refuses.cons {m : Node} (hm : p.Written m) (hfits : paramFits p.kind restSeen optsSeen = true)
    (h : Refuses (behind (restSeen || p.kind == .restPositional) (optsSeen || p.kind == .restKeyword)) ns n message) :
    Refuses (behind restSeen optsSeen) (m :: ns) n message := by
  obtain ⟨ps, before, after, rfl, hbefore, hkinds, hn⟩ := h
  refine ⟨p :: ps, m :: before, after, rfl, .cons hm hbefore, cons_mem_behind.mpr ⟨hfits, hkinds⟩, ?_⟩
  cases hn with
  | shape hn => exact .shape hn
  | order hq hmisfit => exact .order hq fun hmem => hmisfit (cons_mem_behind.mp hmem).2

theorem paramsOf_cons_eq_ok : paramsOf (n :: ns) restSeen optsSeen = .ok ps ↔
    ∃ p rest, p.Written n ∧ paramFits p.kind restSeen optsSeen = true ∧
      paramsOf ns (restSeen || p.kind == .restPositional) (optsSeen || p.kind == .restKeyword) = .ok rest ∧
      ps = p :: rest := by
  simp only [← paramOf?_eq_some_iff]
  rw [paramsOf]
  cases hp : paramOf? n with
  | none => simp
  | some p =>
    by_cases hfits : paramFits p.kind restSeen optsSeen
    · cases hrest : paramsOf ns (restSeen || p.kind == .restPositional) (optsSeen || p.kind == .restKeyword) with
      | ok rest => simpa [hfits, hrest, bind, Except.bind, pure, Except.pure] using eq_comm
      | error e => simp [hfits, hrest, bind, Except.bind]
    · simp [hfits]

theorem paramsOf_eq_ok_iff : paramsOf ns restSeen optsSeen = .ok ps ↔
    List.Forall₂ Param.Written ps ns ∧ ps.map Param.kind ∈ (behind restSeen optsSeen).matches' := by
  induction ns generalizing restSeen optsSeen ps with
  | nil =>
    rw [paramsOf, List.forall₂_nil_right_iff]
    constructor
    · rintro ⟨⟩
      exact ⟨rfl, nil_mem_behind⟩
    · rintro ⟨rfl, -⟩
      rfl
  | cons n ns ih =>
    rw [paramsOf_cons_eq_ok, List.forall₂_cons_right_iff]
    constructor
    · rintro ⟨p, rest, hp, hfits, hrest, rfl⟩
      obtain ⟨hwritten, hkinds⟩ := ih.mp hrest
      exact ⟨⟨p, rest, hp, hwritten, rfl⟩, cons_mem_behind.mpr ⟨hfits, hkinds⟩⟩
    · rintro ⟨⟨p, rest, hp, hwritten, rfl⟩, hkinds⟩
      obtain ⟨hfits, hkinds⟩ := cons_mem_behind.mp hkinds
      exact ⟨p, rest, hp, hfits, ih.mpr ⟨hwritten, hkinds⟩, rfl⟩

theorem refuses_of_paramsOf (h : paramsOf ns restSeen optsSeen = .error (n, message)) :
    Refuses (behind restSeen optsSeen) ns n message := by
  induction ns generalizing restSeen optsSeen with
  | nil => cases h
  | cons m ns ih =>
    unfold paramsOf at h
    split at h
    · next hm =>
      cases h
      exact ⟨[], [], ns, rfl, .nil, nil_mem_behind, .shape (paramOf?_eq_none_iff.mp hm)⟩
    next p hp =>
      rw [paramOf?_eq_some_iff] at hp
      split at h
      · next hfits =>
        cases hrest : paramsOf ns (restSeen || p.kind == .restPositional) (optsSeen || p.kind == .restKeyword) with
        | ok ps =>
          rw [hrest] at h
          cases h
        | error e =>
          rw [hrest] at h
          cases h
          exact (ih hrest).cons hp hfits
      · next hfits =>
        cases h
        exact ⟨[], [], ns, rfl, .nil, nil_mem_behind, .order hp fun hmem => hfits (cons_mem_behind.mp hmem).1⟩

theorem leftUnique_written : Relator.LeftUnique Param.Written := fun _ _ _ hp hq =>
  Option.some.inj ((paramOf?_eq_some_iff.mpr hp).symm.trans (paramOf?_eq_some_iff.mpr hq))

theorem exists_written (h : List.Forall₂ Param.Written ps ns) : ∀ n ∈ ns, ∃ p : Param, p.Written n := by
  induction h with
  | nil => exact fun _ hn => nomatch hn
  | cons hp _ ih => exact List.forall_mem_cons.mpr ⟨⟨_, hp⟩, ih⟩

/-- Nodes that are written as parameters are read as parameters exactly if the kinds of these stand in an order that a
parameter list may have. The result has one parameter for each node, in order, with the name and the default value
that it is written with, and nothing else has happened. A list with a node that is written as no parameter is
refused. Of a list that is refused the first node is reported that is no parameter or may not stand where it
stands. -/
theorem params_exact (items : List Node) (s : ParseState) :
    (∀ ps, List.Forall₂ Param.Written ps items →
      ((params items s).1.isSome = true ↔ ps.map Param.kind ∈ ParamKind.order.matches')) ∧
    (∀ ps s', params items s = (some ps, s') → List.Forall₂ Param.Written ps items ∧ s' = s) ∧
    (∀ n ∈ items, (∀ p : Param, ¬ p.Written n) → (params items s).1 = none) ∧
    ∀ s', params items s = (none, s') →
      ∃ n message, Refuses ParamKind.order items n message ∧ s' = (reportNode n message s).2 := by
  unfold params
  cases h : paramsOf items false false with
  | ok qs =>
    obtain ⟨hwritten, hkinds⟩ := paramsOf_eq_ok_iff.mp h
    refine ⟨fun ps hps => ?_, ?_, fun n hn hnone => ?_, ?_⟩
    · obtain rfl : ps = qs := leftUnique_written.forall₂ hps hwritten
      exact iff_of_true rfl hkinds
    · rintro _ _ ⟨⟩
      exact ⟨hwritten, rfl⟩
    · obtain ⟨p, hp⟩ := exists_written hwritten n hn
      exact absurd hp (hnone p)
    · rintro _ ⟨⟩
  | error e =>
    refine ⟨fun ps hps => ?_, ?_, fun _ _ _ => rfl, ?_⟩
    · refine iff_of_false Bool.false_ne_true fun hkinds => ?_
      have hok : paramsOf items false false = .ok ps := paramsOf_eq_ok_iff.mpr ⟨hps, hkinds⟩
      rw [hok] at h
      cases h
    · rintro _ _ ⟨⟩
    · rintro _ ⟨⟩
      exact ⟨e.1, e.2, refuses_of_paramsOf h, rfl⟩

end Parse

end Frontend
