import Frontend.Proofs.Binding.Slots
import Frontend.Proofs.Lowering.Logic
import Frontend.Proofs.Parse.Parameter

/-!
# Binding of arguments is exact

A call is accepted exactly when its arguments fit the parameters. Then every argument goes to one place and
none is lost, and one word is passed for every parameter, in order.
-/

namespace Frontend

/-! ## Parameter lists -/

namespace Binding

/-- A parameter as its head in the text describes it. -/
structure Describes (p : Param) (q : Parameter) : Prop where
  name : q.name = p.name.name
  kind : q.kind = p.kind
  default : q.default = p.default
  literal : ∀ n, p.default = some n → ∃ o, Operand.ofLiteral? n = some o

end Binding

namespace Lower

variable {α β : Type} {s s' : Lowering}

theorem eval_of_error {visit : Visit} {n : Node} {e : Failure} (h : visit n s = (.error e, s')) :
    eval visit n s = (.error e, truncate s.operands.length s') := by
  unfold eval forValue
  simp only [h]

theorem not_fail_bind_eq_ok {d : Diagnostic} {f : α → Lower β} {b : β} : (fail d >>= f) s ≠ (.ok b, s') := by
  rintro ⟨⟩

theorem describes_of_parameter {p : Param} {q : Parameter} (h : parameter p s = (.ok q, s')) :
    Binding.Describes p q := by
  unfold parameter at h
  obtain ⟨marks, s₁, -, h⟩ := bind_eq_ok.mp h
  obtain ⟨rid, s₂, -, h⟩ := bind_eq_ok.mp h
  dsimp only at h
  split at h
  · exact absurd h not_fail_bind_eq_ok
  cases hdefault : p.default with
  | none =>
    rw [hdefault] at h
    cases h
    exact ⟨rfl, rfl, hdefault.symm, by simp [hdefault]⟩
  | some n =>
    rw [hdefault] at h
    dsimp only at h
    cases ho : Operand.ofLiteral? n with
    | none =>
      rw [ho] at h
      exact absurd h not_fail_bind_eq_ok
    | some o =>
      rw [ho] at h
      obtain ⟨t, s₃, -, h⟩ := bind_eq_ok.mp h
      split at h
      · exact absurd h not_fail_bind_eq_ok
      · cases h
        refine ⟨rfl, rfl, hdefault.symm, ?_⟩
        rintro _ hn
        cases hdefault.symm.trans hn
        exact ⟨o, ho⟩

theorem describes_of_collect {ps : List Param} {params : List Parameter}
    (h : collect parameter ps s = (.ok params, s')) : List.Forall₂ Binding.Describes ps params := by
  induction ps generalizing s params with
  | nil =>
    cases h
    exact .nil
  | cons p ps ih =>
    obtain ⟨q, m, hq, h⟩ := bind_eq_ok.mp h
    obtain ⟨qs, m', hqs, ⟨⟩⟩ := bind_eq_ok.mp h
    exact .cons (describes_of_parameter hq) (ih hqs)

end Lower

namespace Binding

variable {nodes : List Node} {ps : List Param} {params : List Parameter} {restSeen : Bool}

theorem arranged_of_kinds (h : params.map Parameter.kind ∈ (ParamKind.behind restSeen false).matches') :
    Arranged restSeen params := by
  induction params generalizing restSeen with
  | nil => exact .nil
  | cons q qs ih =>
    obtain ⟨hfits, hrest⟩ := ParamKind.cons_mem_behind.mp h
    cases hq : q.kind with
    | positional =>
      rw [hq] at hfits hrest
      cases restSeen with
      | true => simp [Parse.paramFits] at hfits
      | false => exact .positional hq (ih hrest)
    | keyword =>
      rw [hq] at hrest
      exact .keyword hq (ih (restSeen.or_false ▸ hrest))
    | restPositional =>
      rw [hq] at hfits hrest
      cases restSeen with
      | true => simp [Parse.paramFits] at hfits
      | false => exact .rest hq (ih hrest)
    | restKeyword =>
      rw [hq] at hrest
      obtain rfl : qs = [] := List.map_eq_nil_iff.mp hrest
      exact .opts hq

/-- What is read as a parameter list is one. -/
theorem arranged_of_paramsOf (h : Parse.paramsOf nodes restSeen false = .ok ps)
    (hparams : List.Forall₂ Describes ps params) : Arranged restSeen params := by
  have hkinds : List.Forall₂ Eq (ps.map Param.kind) (params.map Parameter.kind) :=
    List.forall₂_map_left_iff.mpr (List.forall₂_map_right_iff.mpr (hparams.imp fun _ _ hq => hq.kind.symm))
  rw [List.forall₂_eq_eq_eq] at hkinds
  exact arranged_of_kinds (hkinds ▸ (Parse.paramsOf_eq_ok_iff.mp h).2)

/-- A keyword parameter has a default value. -/
theorem exists_default_of_written (h : List.Forall₂ Param.Written ps nodes) :
    ∀ p ∈ ps, p.kind = .keyword → ∃ n, p.default = some n := by
  induction h with
  | nil => exact fun _ h => nomatch h
  | cons hp _ ih =>
    refine List.forall_mem_cons.mpr ⟨fun hkind => ?_, ih⟩
    cases hp with
    | keyword name value => exact ⟨value, rfl⟩
    | assigned name value => exact ⟨value, rfl⟩
    | _ => cases hkind

/-! ## Plans -/

variable {t : SymbolTable} {callee : String} {args given keywords : List Argument} {pos : Position}
  {bs : List Binding} {b : Binding} {i : Nat} {p : Parameter}

theorem fault?_eq_none : fault? t callee pos b = none ↔ (b.param.kind = .positional → b.value.isSome = true) ∧
      ∀ a, b.value = some a → t.assignable b.param.type a.value.effective = true := by
  unfold fault?
  cases b.value with
  | none => simp [ParamKind.isRequired]
  | some a => simp

theorem value_slot_of_not_ordinary (hp : isOrdinary p.kind = false) :
    (slot params given keywords i p).value = none := by
  unfold slot
  cases hk : p.kind <;> first | rfl | (rw [hk] at hp; cases hp)

/-- Nothing is wrong with the bindings of a call when every required parameter is bound, and every bound
value fits. -/
theorem faultless_slots : (slots params given keywords).findSome? (fault? t callee pos) = none ↔
    (∀ i p, params[i]? = some p → p.kind = .positional → (boundAt params given keywords i).isSome = true) ∧
    ∀ i p a, params[i]? = some p → isOrdinary p.kind = true →
      boundAt params given keywords i = some a → t.assignable p.type a.value.effective = true := by
  have each : (∀ b ∈ slots params given keywords, fault? t callee pos b = none) ↔
      ∀ i p, params[i]? = some p → fault? t callee pos (slot params given keywords i p) = none := by
    simp only [List.mem_iff_getElem?, getElem?_slots, Option.map_eq_some_iff, forall_exists_index, and_imp]
    exact ⟨fun h i p hp => h _ i p hp rfl, fun h b i p hp he => he ▸ h i p hp⟩
  rw [List.findSome?_eq_none_iff, each]
  simp only [fault?_eq_none, param_slot]
  constructor
  · refine fun h => ⟨fun i p hp hkind => ?_, fun i p a hp hordinary ha => ?_⟩
    · have hvalue := (h i p hp).1 hkind
      rwa [slot_of_ordinary (by rw [hkind]; rfl)] at hvalue
    · exact (h i p hp).2 a (by rw [slot_of_ordinary hordinary, ha])
  · rintro ⟨hrequired, hassignable⟩ i p hp
    cases hordinary : isOrdinary p.kind with
    | true =>
      rw [slot_of_ordinary hordinary]
      exact ⟨hrequired i p hp, fun a => hassignable i p a hp hordinary⟩
    | false =>
      rw [value_slot_of_not_ordinary hordinary]
      refine ⟨fun hkind => ?_, fun a ha => nomatch ha⟩
      rw [hkind] at hordinary
      cases hordinary

/-- A plan succeeds when each of its three steps does. -/
theorem plan_eq_ok : plan t callee params args pos = .ok bs ↔
    (positional params (args.filter (·.name.isEmpty))).2 = [] ∧
      named callee (positional params (args.filter (·.name.isEmpty))).1
        (args.filter fun a => !a.name.isEmpty) = .ok bs ∧ bs.findSome? (fault? t callee pos) = none := by
  unfold plan
  simp only [bind, Except.bind, throw, throwThe, MonadExceptOf.throw]
  cases (positional params (args.filter (·.name.isEmpty))).2 with
  | cons a left => simp
  | nil =>
    cases named callee (positional params (args.filter (·.name.isEmpty))).1
        (args.filter fun a => !a.name.isEmpty) with
    | error d => simp
    | ok found =>
      simp only [Except.ok.injEq, true_and]
      cases hfault : found.findSome? (fault? t callee pos) with
      | some d => 
        simp only [reduceCtorEq, false_iff, not_and]
        rintro rfl
        simp [hfault]
      | none =>
        constructor
        · rintro ⟨⟩
          exact ⟨rfl, hfault⟩
        · rintro ⟨rfl, -⟩
          rfl

/-- A plan succeeds under the conditions for a call, and it is then the closed form. -/
theorem plan_eq_ok_iff (hparams : Arranged false params) : plan t callee params args pos = .ok bs ↔
      Accepts t params (args.filter (·.name.isEmpty)) (args.filter fun a => !a.name.isEmpty) ∧
        bs = slots params (args.filter (·.name.isEmpty)) (args.filter fun a => !a.name.isEmpty) := by
  rw [plan_eq_ok]
  generalize args.filter (·.name.isEmpty) = given
  generalize (args.filter fun a => !a.name.isEmpty) = keywords
  have hroom : (positional params given).2 = [] ↔
      (∃ p ∈ params, p.kind = .restPositional) ∨ given.length ≤ (ordinary params).length := by
    rw [positional_eq hparams]
    by_cases hrest : ∃ p ∈ params, p.kind = .restPositional
    · simp [hrest]
    · simp [hrest]
  have hnamed := named_slots hparams callee given [] keywords bs
  rw [List.nil_append] at hnamed
  have hfirst : (positional params given).1 = slots params given [] := by rw [positional_eq hparams]
  rw [hroom, hfirst, hnamed]
  constructor
  · rintro ⟨hroom, ⟨hfits, rfl⟩, hfaults⟩
    obtain ⟨hrequired, hassignable⟩ := faultless_slots.mp hfaults
    exact ⟨⟨hroom, hfits, hrequired, hassignable⟩, rfl⟩
  · rintro ⟨h, rfl⟩
    exact ⟨h.room, ⟨h.named, rfl⟩, faultless_slots.mpr ⟨h.required, h.assignable⟩⟩

/-! ## No argument is lost -/

theorem arguments_positional (params : List Parameter) (given : List Argument) :
    (positional params given).1.flatMap arguments ++ (positional params given).2 = given := by
  induction params generalizing given with
  | nil => rfl
  | cons p params ih =>
    unfold positional
    split
    · have hrest : (positional params []).2 = [] := by rw [positional_nil]
      simpa [arguments, hrest] using ih []
    · simpa [arguments] using ih _
    · simpa [arguments] using ih []
    · simpa [arguments] using ih _

theorem perm_arguments_modify {a : Argument} (hb : bs[i]? = some b) (hfree : b.value = none) :
    ((bs.modify i fun b => { b with value := some a }).flatMap arguments).Perm (bs.flatMap arguments ++ [a]) := by
  induction bs generalizing i with
  | nil => cases hb
  | cons c bs ih =>
    cases i with
    | zero =>
      obtain rfl := Option.some.inj hb
      simp only [List.modify_zero_cons, List.flatMap_cons, arguments, hfree, Option.toList_none,
        Option.toList_some, List.nil_append, List.cons_append]
      exact (List.perm_append_singleton a _).symm
    | succ i =>
      rw [List.modify_succ_cons, List.flatMap_cons, List.flatMap_cons, List.append_assoc]
      exact (ih hb).append_left _

theorem arguments_changeLast {a : Argument} (h : collectsNamed b = true) :
    (changeLast collectsNamed (fun b => { b with rest := b.rest ++ [a] }) (bs ++ [b])).flatMap arguments =
      (bs ++ [b]).flatMap arguments ++ [a] := by
  rw [changeLast_concat h]
  simp [arguments]

/-- Every argument goes to exactly one place. -/
theorem perm_arguments_slots (hparams : Arranged false params) (h : (positional params given).2 = [])
    (hfits : ∀ pre a post, keywords = pre ++ a :: post → KeywordFits params given pre a) :
    ((slots params given keywords).flatMap arguments).Perm (given ++ keywords) := by
  induction keywords using List.reverseRecOn with
  | nil =>
    have hall := arguments_positional params given
    rw [h, List.append_nil, positional_eq hparams] at hall
    rw [hall, List.append_nil]
  | append_singleton keywords a ih =>
    have hperm := ih fun pre b post he => hfits pre b (post ++ [a]) (by simp [he])
    refine List.Perm.trans ?_ ((hperm.append_right [a]).trans (List.Perm.of_eq (List.append_assoc ..)))
    rcases hfits keywords a [] rfl with ⟨i, hplace, hfree⟩ | ⟨hplace, hopts⟩
    · obtain ⟨p, hp, -, hordinary⟩ := isOrdinary_of_placeOf? hplace
      rw [slots_concat_of_place hplace hfree]
      refine perm_arguments_modify (b := { param := p }) ?_ rfl
      rw [getElem?_slots, hp, Option.map_some, slot_of_ordinary hordinary, hfree]
    · obtain ⟨front, p, hfront, hp, -⟩ := hparams.exists_opts hopts
      have hlast : slots params given keywords = front.mapIdx (slot params given keywords) ++
          [slot params given keywords front.length p] := by
        conv_lhs => rw [slots, hfront, List.mapIdx_concat]
        rw [← hfront]
      rw [slots_concat_of_opts hparams hplace hopts, hlast, arguments_changeLast (by simp [collectsNamed, hp])]

/-! ## What is passed -/

def collects (b : Binding) : Bool := !isOrdinary b.param.kind

/-- The instructions that collect the arguments of a binding in a temporary: in a list, or in a dictionary
under their names. -/
def gathering (b : Binding) (temp : String) : List Instruction :=
  match b.param.kind with
  | .restPositional =>
    ⟨.put, [Spelling.emptyList, temp]⟩ :: b.rest.map fun a => ⟨.append, [temp, a.value.raw]⟩
  | .restKeyword =>
    ⟨.put, [Spelling.emptyDict, temp]⟩ ::
      b.rest.map fun a => ⟨.setItem, [temp, Spelling.ofText a.name, a.value.raw]⟩
  | _ => []

/-- The word that is passed for a binding: that of its value, that of the default value when there is
none, or the temporary that its arguments are collected in. -/
def word (b : Binding) (temp : String) : String :=
  if b.collects then temp
  else match b.value with
    | some a => a.value.raw
    | none => ((b.param.default.bind Operand.ofLiteral?).map (·.raw)).getD ""

/-- The words that are passed for bindings, when the temporaries from a number on are free. -/
def words : Nat → List Binding → List String
  | _, [] => []
  | n, b :: bs => b.word (Word.temp n) :: words (n + if b.collects then 1 else 0) bs

end Binding

namespace Lowering

/-- The state behind instructions that are written with a number of new temporaries. -/
def wrote (s : Lowering) (temps : Nat) (is : List Instruction) : Lowering :=
  { s with
    session := { s.session with supply := { s.supply with temps := s.supply.temps + temps } }
    out := s.out.append (is.map .instr) }

theorem wrote_wrote (s : Lowering) (n m : Nat) (is js : List Instruction) :
    (s.wrote n is).wrote m js = s.wrote (n + m) (is ++ js) := by
  simp [wrote, CodeBuffer.append_append, Nat.add_assoc]

theorem wrote_zero (s : Lowering) : s.wrote 0 [] = s := rfl

end Lowering

namespace Lower

open Binding

variable {α : Type} {s : Lowering}

theorem emit_bind (op : Opcode) (args : List String) (f : Unit → Lower α) :
    (emit op args >>= f) s = f () (s.wrote 0 [⟨op, args⟩]) := rfl

theorem freshTemp_bind (f : String → Lower α) :
    (freshTemp >>= f) s = f (Word.temp s.supply.temps) (s.wrote 1 []) := rfl

theorem forAll_emit (op : α → Opcode) (args : α → List String) (xs : List α) :
    forAll (fun a => emit (op a) (args a)) xs s = (.ok (), s.wrote 0 (xs.map fun a => ⟨op a, args a⟩)) := by
  induction xs generalizing s with
  | nil => rfl
  | cons x xs ih =>
    rw [forAll, emit_bind, ih, Lowering.wrote_wrote]
    rfl

theorem emitBinding_eq (b : Binding) (s : Lowering) : emitBinding b s = (.ok (b.word (Word.temp s.supply.temps)),
      s.wrote (if b.collects then 1 else 0) (b.gathering (Word.temp s.supply.temps))) := by
  unfold emitBinding word gathering collects
  cases hk : b.param.kind with
  | positional => cases b.value <;> rfl
  | keyword => cases b.value <;> rfl
  | restPositional =>
    dsimp only
    rw [freshTemp_bind, emit_bind, bind_of_ok (forAll_emit _ _ b.rest)]
    simp only [Lowering.wrote_wrote]
    rfl
  | restKeyword =>
    dsimp only
    rw [freshTemp_bind, emit_bind, bind_of_ok (forAll_emit _ _ b.rest)]
    simp only [Lowering.wrote_wrote]
    rfl

theorem gathering_word (b : Binding) (w : String) : b.gathering (b.word w) = b.gathering w := by
  cases h : b.collects with
  | true => rw [word, h, if_pos rfl]
  | false =>
    unfold collects isOrdinary at h
    unfold gathering
    cases hk : b.param.kind <;> simp_all

/-- One word is passed for every binding, in order. -/
theorem collect_emitBinding (bs : List Binding) (s : Lowering) :
    collect emitBinding bs s = (.ok (words s.supply.temps bs), s.wrote (bs.countP collects)
        ((bs.zip (words s.supply.temps bs)).flatMap fun x => x.1.gathering x.2)) := by
  induction bs generalizing s with
  | nil => rfl
  | cons b bs ih =>
    rw [collect, bind_of_ok (emitBinding_eq b s), bind_of_ok (ih _), Lowering.wrote_wrote, words,
      List.zip_cons_cons, List.flatMap_cons, List.countP_cons, Nat.add_comm, gathering_word]
    rfl

end Lower

namespace Binding

variable {nodes : List Node} {ps : List Param} {params : List Parameter} {t : SymbolTable}
  {given keywords : List Argument} {bs : List Binding}

/-- What is passed for a parameter that takes a single argument: its value, or else the default value. -/
structure Passes (b : Binding) (w : String) : Prop where
  value : b.collects = false → ∀ a, b.value = some a → w = a.value.raw
  default : b.collects = false → b.value = none →
    ∃ n o, b.param.default = some n ∧ Operand.ofLiteral? n = some o ∧ w = o.raw

/-- The collecting parameters get new temporaries, one after another. -/
theorem collecting_words (n : Nat) (bs : List Binding) :
    ((bs.zip (words n bs)).filter (·.1.collects)).map Prod.snd =
      (List.range (bs.countP collects)).map fun j => Word.temp (n + j) := by
  induction bs generalizing n with
  | nil => rfl
  | cons b bs ih =>
    rw [words, List.zip_cons_cons, List.filter_cons, List.countP_cons]
    cases h : b.collects with
    | true =>
      simp only [if_true, List.map_cons, ih, List.range_succ_eq_map, List.map_map, Nat.add_zero]
      rw [word, h, if_pos rfl]
      simp [Function.comp_def, Nat.add_comm, Nat.add_left_comm]
    | false => simp [ih]

theorem passes_words (h : ∀ b ∈ bs, b.collects = false → b.value = none →
    ∃ n o, b.param.default = some n ∧ Operand.ofLiteral? n = some o) (n : Nat) :
    List.Forall₂ Passes bs (words n bs) := by
  induction bs generalizing n with
  | nil => exact .nil
  | cons b bs ih =>
    refine .cons ⟨fun hb a ha => ?_, fun hb hnone => ?_⟩ (ih (fun c hc => h c (List.mem_cons_of_mem b hc)) _)
    · rw [word, hb, ha]
      rfl
    · obtain ⟨node, o, hdefault, ho⟩ := h b List.mem_cons_self hb hnone
      refine ⟨node, o, hdefault, ho, ?_⟩
      rw [word, hb, hnone, hdefault]
      simp [ho]

/-- A parameter that may be left unbound has a literal as its default value. -/
theorem exists_literal (hparse : Parse.paramsOf nodes false false = .ok ps)
    (hparams : List.Forall₂ Describes ps params) (h : Accepts t params given keywords) :
    ∀ b ∈ slots params given keywords, b.collects = false → b.value = none →
      ∃ n o, b.param.default = some n ∧ Operand.ofLiteral? n = some o := by
  intro b hb hordinary hnone
  obtain ⟨i, hi⟩ := List.mem_iff_getElem?.mp hb
  rw [getElem?_slots] at hi
  obtain ⟨q, hq, rfl⟩ := Option.map_eq_some_iff.mp hi
  rw [param_slot]
  have hkind : isOrdinary q.kind = true := by simpa [collects] using hordinary
  rw [slot_of_ordinary hkind] at hnone
  have hkeyword : q.kind = .keyword := by
    cases hk : q.kind with
    | keyword => rfl
    | positional =>
      have hbound := h.required i q hq hk
      rw [show boundAt params given keywords i = none from hnone] at hbound
      cases hbound
    | _ => rw [hk] at hkind; cases hkind
  obtain ⟨p, hp, hdescribes⟩ : ∃ p ∈ ps, Describes p q := by
    obtain ⟨hlt, rfl⟩ := List.getElem?_eq_some_iff.mp hq
    have hlt' : i < ps.length := hparams.length_eq ▸ hlt
    exact ⟨ps[i], List.getElem_mem hlt', hparams.get hlt' hlt⟩
  obtain ⟨n, hn⟩ := exists_default_of_written (Parse.paramsOf_eq_ok_iff.mp hparse).1 p hp (hdescribes.kind ▸ hkeyword)
  obtain ⟨o, ho⟩ := hdescribes.literal n hn
  exact ⟨n, o, hdescribes.default.trans hn, ho⟩

/-- Arguments can be bound to the parameters of a function exactly when they fit. Then the parameters take
what the closed form says, every argument goes to exactly one of them, and one word is passed for each, in
order: the value of an ordinary parameter or its default value, and for a collecting one a new temporary
in which its arguments are gathered. -/
theorem plan_exact {start after : Lowering} (hparse : Parse.paramsOf nodes false false = .ok ps)
    (hparams : Lower.collect Lower.parameter ps start = (.ok params, after)) (t : SymbolTable)
    (callee : String) (args : List Argument) (pos : Position) :
    ((∃ bs, plan t callee params args pos = .ok bs) ↔
      Accepts t params (args.filter (·.name.isEmpty)) (args.filter fun a => !a.name.isEmpty)) ∧
    ∀ bs, plan t callee params args pos = .ok bs →
      bs = slots params (args.filter (·.name.isEmpty)) (args.filter fun a => !a.name.isEmpty) ∧
      bs.map (·.param) = params ∧ (bs.flatMap arguments).Perm args ∧
      ∀ s : Lowering, ∃ raws, List.Forall₂ Passes bs raws ∧
        ((bs.zip raws).filter (·.1.collects)).map Prod.snd =
          (List.range (bs.countP collects)).map (fun j => Word.temp (s.supply.temps + j)) ∧
        Lower.collect Lower.emitBinding bs s = (.ok raws,
          s.wrote (bs.countP collects) ((bs.zip raws).flatMap fun x => x.1.gathering x.2)) := by
  have hdescribes := Lower.describes_of_collect hparams
  have harranged := arranged_of_paramsOf hparse hdescribes
  refine ⟨⟨?_, fun h => ⟨_, (plan_eq_ok_iff harranged).mpr ⟨h, rfl⟩⟩⟩, ?_⟩
  · rintro ⟨bs, h⟩
    exact ((plan_eq_ok_iff harranged).mp h).1
  · intro bs h
    obtain ⟨hleft, -, -⟩ := plan_eq_ok.mp h
    obtain ⟨haccepts, rfl⟩ := (plan_eq_ok_iff harranged).mp h
    have hpositionals : (args.filter (·.name.isEmpty) ++ args.filter fun a => !a.name.isEmpty).Perm args :=
      List.filter_append_perm _ args
    refine ⟨rfl, map_param_slots, ?_, fun s => ⟨_, ?_, collecting_words _ _, Lower.collect_emitBinding _ s⟩⟩
    · exact (perm_arguments_slots harranged hleft haccepts.named).trans hpositionals
    · exact passes_words (exists_literal hparse hdescribes haccepts) _

def sampleName (word : String) : Ident := { token := ⟨.ident, word, {}⟩ }

/-- The head of a function with parameters of all kinds: `a, b = 2, *rest, c = 3, **opts`. -/
def sampleHead : List Node :=
  let equals : Token := ⟨.op .assign, "=", {}⟩
  [.ident (sampleName "a"), .assign (.ident (sampleName "b")) equals (.int ⟨.int, "2", {}⟩ 2),
    .unary ⟨.op .star, "*", {}⟩ (.ident (sampleName "rest")),
    .assign (.ident (sampleName "c")) equals (.int ⟨.int, "3", {}⟩ 3),
    .unary ⟨.op .power, "**", {}⟩ (.ident (sampleName "opts"))]

/-- An argument of a sample; the name is empty for a positional one. -/
def sampleArgument (name : String) (value : Int) : Argument :=
  let n : Node := .int ⟨.int, Spelling.ofInt value, {}⟩ value
  { name, value := .literal (Spelling.ofInt value) .int n, node := n }

/-- The arguments of a call with positional arguments and such that are passed by name:
`k = 5, 1, 2, c = 4, 3`. -/
def sampleArguments : List Argument :=
  [sampleArgument "k" 5, sampleArgument "" 1, sampleArgument "" 2, sampleArgument "c" 4, sampleArgument "" 3]

theorem plan_exact_sample : ∃ ps params after bs,
    Parse.paramsOf sampleHead false false = .ok ps ∧
    Lower.collect Lower.parameter ps { session := {} } = (.ok params, after) ∧
    plan {} "f" params sampleArguments {} = .ok bs ∧ (bs.flatMap arguments).Perm sampleArguments ∧
    bs.map (fun b => b.arguments.map (·.name)) = [[""], [""], [""], ["c"], ["k"]] := by
  -- the head is read and bound in one go, so that no state of lowering is written down
  have accepted : (Parse.paramsOf sampleHead false false).toOption.bind (fun ps =>
      (Lower.collect Lower.parameter ps { session := {} }).1.toOption.bind fun params =>
        (plan {} "f" params sampleArguments {}).toOption.map (·.map fun b => b.arguments.map (·.name))) =
      some [[""], [""], [""], ["c"], ["k"]] := by
    decide +kernel
  have known {ε α : Type} {e : Except ε α} {a : α} (h : e.toOption = some a) : e = .ok a := by
    cases e with
    | error e => cases h
    | ok b => exact congrArg _ (Option.some.inj h)
  obtain ⟨ps, hps, accepted⟩ := Option.bind_eq_some_iff.mp accepted
  obtain ⟨params, hparams, accepted⟩ := Option.bind_eq_some_iff.mp accepted
  obtain ⟨bs, hbs, hnames⟩ := Option.map_eq_some_iff.mp accepted
  have hcollected : Lower.collect Lower.parameter ps { session := {} } = (.ok params, _) := Prod.ext (known hparams) rfl
  obtain ⟨-, -, hperm, -⟩ := (plan_exact (known hps) hcollected {} "f" sampleArguments {}).2 bs (known hbs)
  exact ⟨ps, params, _, bs, known hps, hcollected, known hbs, hperm, hnames⟩

end Binding

end Frontend
