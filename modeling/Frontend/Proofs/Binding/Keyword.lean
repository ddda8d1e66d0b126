import Frontend.Proofs.Binding.Exact
import Frontend.Proofs.Lowering.Unit

/-!
# Arguments passed by name

In an accepted call no name is used for two arguments, except that a function with `**opts` may be given
several arguments of one name when no parameter has it.
-/

namespace Frontend

variable {i : Nat} {x : Argument} {id : SymbolId}

namespace Binding

variable {t : SymbolTable} {callee name : String} {params : List Parameter} {args : List Argument}
  {pos : Position} {bs bs' : List Binding} {f : Binding → Binding} {q : Binding → Bool}

/-! ## A name is bound once -/

/-- Whether a name stands for an ordinary parameter. -/
def stands (params : List Parameter) (name : String) : Bool := (placeOf? params name).isSome

/-- Something is bound to the parameter that a name stands for. -/
def Taken (bs : List Binding) (name : String) : Prop :=
  ∃ b, bs.find? (isNamed name) = some b ∧ b.value.isSome = true

/-- A change of a binding that takes nothing away. -/
structure Keeps (f : Binding → Binding) : Prop where
  param : ∀ b, (f b).param = b.param
  value : ∀ b, b.value.isSome = true → (f b).value.isSome = true

theorem keeps_bound (a : Argument) : Keeps fun b => { b with value := some a } :=
  ⟨fun _ => rfl, fun _ _ => rfl⟩

theorem keeps_collected (a : Argument) : Keeps fun b => { b with rest := b.rest ++ [a] } :=
  ⟨fun _ => rfl, fun _ => id⟩

/-- Bindings of the same parameters, in which what was bound still is. -/
def Later (bs bs' : List Binding) : Prop :=
  List.Forall₂ (fun b b' => b'.param = b.param ∧ (b.value.isSome = true → b'.value.isSome = true)) bs bs'

theorem later_changeFirst (hf : Keeps f) (q : Binding → Bool) (bs : List Binding) :
    Later bs (changeFirst q f bs) := by
  induction bs with
  | nil => exact .nil
  | cons b bs ih =>
    unfold changeFirst
    split
    · exact .cons ⟨hf.param b, hf.value b⟩ (List.forall₂_same.mpr fun _ _ => ⟨rfl, id⟩)
    · exact .cons ⟨rfl, id⟩ ih

theorem later_changeLast (hf : Keeps f) (q : Binding → Bool) (bs : List Binding) :
    Later bs (changeLast q f bs) := by
  have h := later_changeFirst hf q bs.reverse
  unfold changeLast
  rw [Later, ← List.forall₂_reverse_iff, List.reverse_reverse]
  exact h

theorem Later.map_param (h : Later bs bs') : bs'.map (·.param) = bs.map (·.param) := by
  induction h with
  | nil => rfl
  | cons hb _ ih => rw [List.map_cons, List.map_cons, hb.1, ih]

theorem Later.taken (h : Later bs bs') (htaken : Taken bs name) : Taken bs' name := by
  induction h with
  | nil => exact htaken
  | @cons b b' bs bs' hb _ ih =>
    have same : isNamed name b' = isNamed name b := by rw [isNamed, hb.1]; rfl
    unfold Taken at htaken ih ⊢
    rw [List.find?_cons] at htaken ⊢
    rw [same]
    cases hnamed : isNamed name b with
    | true =>
      simp only [hnamed] at htaken
      obtain ⟨c, ⟨⟩, hvalue⟩ := htaken
      exact ⟨b', rfl, hb.2 hvalue⟩
    | false =>
      simp only [hnamed] at htaken
      exact ih htaken

theorem stands_map_param (bs : List Binding) (name : String) :
    stands (bs.map (·.param)) name = (bs.find? (isNamed name)).isSome := by
  rw [stands, placeOf?, List.findIdx?_isSome, List.any_map, Bool.eq_iff_iff, List.any_eq_true, List.find?_isSome]
  rfl

/-- An argument is bound by a name that is free, and then the name is taken. -/
theorem taken_changeFirst (a : Argument) (h : stands (bs.map (·.param)) name = true) :
    Taken (changeFirst (isNamed name) (fun b => { b with value := some a }) bs) name := by
  induction bs with
  | nil => cases h
  | cons b bs ih =>
    unfold changeFirst Taken
    cases hb : isNamed name b with
    | true => exact ⟨{ b with value := some a }, List.find?_cons_of_pos hb, rfl⟩
    | false =>
      rw [stands_map_param, List.find?_cons_of_neg (by simp [hb]), ← stands_map_param] at h
      rw [if_neg (by simp), List.find?_cons_of_neg (by simp [hb])]
      exact ih h

/-- No argument is bound by a name that is taken. -/
theorem not_mem_of_taken (h : named callee bs args = .ok bs') (htaken : Taken bs name) :
    name ∉ args.map (·.name) := by
  induction args generalizing bs with
  | nil => exact List.not_mem_nil
  | cons a args ih =>
    rw [List.map_cons, List.mem_cons, not_or]
    obtain ⟨c, hc, hvalue⟩ := id htaken
    unfold named at h
    split at h
    next b hb =>
      split at h
      · cases h
      next hfree =>
        refine ⟨?_, ih h ((later_changeFirst (keeps_bound a) _ bs).taken htaken)⟩
        rintro rfl
        cases hb.symm.trans hc
        exact hfree hvalue
    next hnone =>
      split at h
      · refine ⟨?_, ih h ((later_changeLast (keeps_collected a) _ bs).taken htaken)⟩
        rintro rfl
        cases hnone.symm.trans hc
      · cases h

/-- The names of arguments that stand for parameters are different, and a name stands for a parameter
unless there is `**opts`. -/
theorem names_of_named (h : named callee bs args = .ok bs') :
    ((args.map (·.name)).filter (stands (bs.map (·.param)))).Nodup ∧
      ((∃ p ∈ bs.map (·.param), p.kind = .restKeyword) ∨
        ∀ name ∈ args.map (·.name), stands (bs.map (·.param)) name = true) := by
  induction args generalizing bs with
  | nil => exact ⟨.nil, .inr fun _ hname => nomatch hname⟩
  | cons a args ih =>
    have hstands := stands_map_param bs a.name
    rw [List.map_cons]
    unfold named at h
    cases hb : bs.find? (isNamed a.name) with
    | some b =>
      rw [hb, Option.isSome_some] at hstands
      simp only [hb] at h
      split at h
      · cases h
      · have hparams := (later_changeFirst (keeps_bound a) (isNamed a.name) bs).map_param
        have hnot := not_mem_of_taken h (taken_changeFirst a hstands)
        obtain ⟨hnodup, hall⟩ := ih h
        rw [hparams] at hnodup hall
        rw [List.filter_cons_of_pos hstands]
        exact ⟨List.nodup_cons.mpr ⟨fun hmem => hnot (List.mem_of_mem_filter hmem), hnodup⟩,
          hall.imp_right fun hall => List.forall_mem_cons.mpr ⟨hstands, hall⟩⟩
    | none =>
      rw [hb, Option.isSome_none] at hstands
      simp only [hb] at h
      split at h
      next hopts =>
        have hparams := (later_changeLast (keeps_collected a) collectsNamed bs).map_param
        rw [List.filter_cons_of_neg (by simp [hstands]), ← hparams]
        refine ⟨(ih h).1, .inl ?_⟩
        obtain ⟨b, hb, hkind⟩ := List.any_eq_true.mp hopts
        rw [hparams]
        exact ⟨b.param, List.mem_map_of_mem hb, eq_of_beq hkind⟩
      · cases h

theorem map_param_positional (params : List Parameter) (given : List Argument) :
    (positional params given).1.map (·.param) = params := by
  induction params generalizing given with
  | nil => rfl
  | cons p ps ih =>
    unfold positional
    split <;> rw [List.map_cons, ih]

/-! ## Where a name is bound -/

/-- The argument that is bound to the parameter at a place. -/
def valueAt (bs : List Binding) (i : Nat) : Option Argument := bs[i]?.bind (·.value)

theorem findIdx?_isNamed (bs : List Binding) (name : String) :
    bs.findIdx? (isNamed name) = placeOf? (bs.map (·.param)) name := by
  rw [placeOf?, List.findIdx?_map]
  rfl

theorem find?_isNamed (bs : List Binding) (name : String) :
    bs.find? (isNamed name) = (placeOf? (bs.map (·.param)) name).bind fun i => bs[i]? := by
  rw [List.find?_eq_bind_findIdx?_getElem?, findIdx?_isNamed]

theorem valueAt_changeFirst (a : Argument) (h : placeOf? (bs.map (·.param)) name = some i) (j : Nat) :
    valueAt (changeFirst (isNamed name) (fun b => { b with value := some a }) bs) j =
      if i = j then some a else valueAt bs j := by
  obtain ⟨p, hp, -⟩ := isOrdinary_of_placeOf? h
  rw [List.getElem?_map] at hp
  obtain ⟨b, hb, -⟩ := Option.map_eq_some_iff.mp hp
  rw [changeFirst_eq ((findIdx?_isNamed bs name).trans h), valueAt, List.getElem?_modify]
  split
  · next hij =>
    rw [← hij, hb]
    rfl
  · rw [id_map']
    rfl

theorem valueAt_changeLast (q : Binding → Bool) (a : Argument) (bs : List Binding) (i : Nat) :
    valueAt (changeLast q (fun b => { b with rest := b.rest ++ [a] }) bs) i = valueAt bs i := by
  have first : ∀ bs : List Binding,
      (changeFirst q (fun b => { b with rest := b.rest ++ [a] }) bs).map (·.value) = bs.map (·.value) := by
    intro bs
    induction bs with
    | nil => rfl
    | cons b bs ih =>
      unfold changeFirst
      split
      · rfl
      · rw [List.map_cons, List.map_cons, ih]
  have values : ∀ bs : List Binding, valueAt bs i = (bs.map (·.value))[i]?.join := fun bs => by
    rw [List.getElem?_map, valueAt]
    cases bs[i]? <;> rfl
  rw [values, values, changeLast, List.map_reverse, first, List.map_reverse, List.reverse_reverse]

theorem map_param_named (h : named callee bs args = .ok bs') : bs'.map (·.param) = bs.map (·.param) := by
  induction args generalizing bs with
  | nil =>
    cases h
    rfl
  | cons a args ih =>
    unfold named at h
    split at h
    · split at h
      · cases h
      · exact (ih h).trans (later_changeFirst (keeps_bound a) _ bs).map_param
    · split at h
      · exact (ih h).trans (later_changeLast (keeps_collected a) _ bs).map_param
      · cases h

/-- The arguments passed by name that are bound to a parameter are those whose names stand for it. -/
theorem valueAt_named (h : named callee bs args = .ok bs') :
    valueAt bs' i = some x ↔ valueAt bs i = some x ∨ x ∈ args ∧ placeOf? (bs.map (·.param)) x.name = some i := by
  induction args generalizing bs with
  | nil =>
    cases h
    simp
  | cons a args ih =>
    unfold named at h
    rw [find?_isNamed] at h
    cases hplace : placeOf? (bs.map (·.param)) a.name with
    | some j =>
      obtain ⟨p, hp, -⟩ := isOrdinary_of_placeOf? hplace
      rw [List.getElem?_map] at hp
      obtain ⟨b, hb, -⟩ := Option.map_eq_some_iff.mp hp
      rw [hplace, Option.bind_some, hb] at h
      dsimp only at h
      split at h
      · cases h
      · next hfree =>
        have hnone : valueAt bs j = none := by rw [valueAt, hb]; simpa using hfree
        rw [ih h, (later_changeFirst (keeps_bound a) _ bs).map_param, valueAt_changeFirst a hplace, List.mem_cons]
        by_cases hij : j = i
        · subst hij
          rw [if_pos rfl, hnone]
          constructor
          · rintro (ha | ⟨hx, hi⟩)
            · cases ha
              exact .inr ⟨.inl rfl, hplace⟩
            · exact .inr ⟨.inr hx, hi⟩
          · rintro (hx | ⟨rfl | hx, hi⟩)
            · cases hx
            · exact .inl rfl
            · exact .inr ⟨hx, hi⟩
        · rw [if_neg hij]
          refine or_congr_right ⟨And.imp_left .inr, ?_⟩
          rintro ⟨rfl | hx, hi⟩
          · exact absurd (Option.some.inj (hplace.symm.trans hi)) hij
          · exact ⟨hx, hi⟩
    | none =>
      rw [hplace, Option.bind_none] at h
      dsimp only at h
      split at h
      · rw [ih h, (later_changeLast (keeps_collected a) _ bs).map_param, valueAt_changeLast, List.mem_cons]
        refine or_congr_right ⟨And.imp_left .inr, ?_⟩
        rintro ⟨rfl | hx, hi⟩
        · cases hplace.symm.trans hi
        · exact ⟨hx, hi⟩
      · cases h

variable {t : SymbolTable} {pos : Position}

theorem map_param_plan (h : plan t callee params args pos = .ok bs) : bs.map (·.param) = params :=
  (map_param_named (plan_eq_ok.mp h).2.1).trans (map_param_positional ..)

/-- An argument passed by name is bound to a parameter if its name stands for it, and only then. -/
theorem valueAt_plan (h : plan t callee params args pos = .ok bs) (hx : x.name ≠ "") :
    valueAt bs i = some x ↔ x ∈ args ∧ placeOf? params x.name = some i := by
  have hkeyword : (!x.name.isEmpty) = true := by simpa [String.isEmpty_iff] using hx
  rw [valueAt_named (plan_eq_ok.mp h).2.1, map_param_positional, List.mem_filter]
  refine ⟨?_, fun ⟨hmem, hi⟩ => .inr ⟨⟨hmem, hkeyword⟩, hi⟩⟩
  rintro (hvalue | ⟨⟨hmem, -⟩, hi⟩)
  · -- positional arguments have no names
    obtain ⟨b, hb, hbx⟩ := Option.bind_eq_some_iff.mp hvalue
    have hgiven := (among_positional _ _ b (List.mem_of_getElem? hb)).value x hbx
    rw [(List.mem_filter.mp hgiven).2] at hkeyword
    cases hkeyword
  · exact ⟨hmem, hi⟩

/-- The word of a parameter that takes a single argument does not depend on the temporaries. -/
theorem getElem?_words {b : Binding} (n : Nat) (hb : bs[i]? = some b) (hc : b.collects = false) :
    (words n bs)[i]? = some (b.word "") := by
  induction bs generalizing i n with
  | nil => cases hb
  | cons c bs ih =>
    rw [words]
    cases i with
    | zero =>
      cases hb
      rw [List.getElem?_cons_zero, word, word, hc]
      rfl
    | succ i => exact ih _ hb

end Binding

/-! ## Calls -/

namespace Lower

open Binding

variable {visit : Visit} {s s' : Lowering} {args : List Argument} {site : CallSite}

/-- The names that arguments are passed by. -/
def keywords (names : List String) : List String := names.filter (!·.isEmpty)

/-- What is true of the names of arguments that are bound to parameters: those that stand for parameters
are different, and every one does unless there is `**opts`. -/
structure Distinct (params : List Parameter) (names : List String) : Prop where
  nodup : (names.filter (stands params)).Nodup
  stands : (∃ p ∈ params, p.kind = .restKeyword) ∨ ∀ name ∈ names, stands params name = true

theorem Distinct.nodup_or {s : Symbol} {names : List String} (h : Distinct (s.function?.getD {}).params names) :
    names.Nodup ∨ ∃ f, s.function? = some f ∧ (∃ p ∈ f.params, p.kind = .restKeyword) ∧
      (names.filter (Binding.stands f.params)).Nodup := by
  obtain ⟨hnodup, hopts | hall⟩ := h
  · cases hf : s.function? with
    | none =>
      rw [hf] at hopts
      obtain ⟨p, ⟨⟩, -⟩ := hopts
    | some f =>
      rw [hf] at hnodup hopts
      exact .inr ⟨f, rfl, hopts, hnodup⟩
  · rw [List.filter_eq_self.mpr hall] at hnodup
    exact .inl hnodup

theorem keywords_map_name (args : List Argument) :
    keywords (args.map (·.name)) = (args.filter fun a => !a.name.isEmpty).map (·.name) := by
  rw [keywords, List.filter_map]
  rfl

theorem distinct_of_plan {t : SymbolTable} {callee : String} {params : List Parameter} {pos : Position}
    {bs : List Binding} (h : plan t callee params args pos = .ok bs) :
    Distinct params (keywords (args.map (·.name))) := by
  have hnames := names_of_named (plan_eq_ok.mp h).2.1
  rw [map_param_positional, ← keywords_map_name] at hnames
  exact ⟨hnames.1, hnames.2⟩

theorem plan_of_chooseConstructor {t : SymbolTable} {pos : Position} {ids : List SymbolId} {bs : List Binding}
    (h : chooseConstructor t args pos ids = .ok (id, bs)) :
    plan t (t.get id).name ((t.get id).function?.getD {}).params args pos = .ok bs := by
  induction ids with
  | nil => cases h
  | cons first ids ih =>
    unfold chooseConstructor at h
    dsimp only at h
    split at h
    next bs' hplan =>
      cases h
      exact hplan
    next d hplan =>
      split at h
      next found hfound =>
        cases h
        exact ih hfound
      · cases h

theorem nodup_of_builtinArgs {entry : Builtin} {done given : List BuiltinArg}
    (h : builtinArgs entry done args = .ok given) (hdone : (keywords (done.map (·.name))).Nodup) :
    (keywords ((done.map (·.name)).reverse ++ args.map (·.name))).Nodup := by
  induction args generalizing done with
  | nil =>
    rw [List.map_nil, List.append_nil, keywords, List.filter_reverse]
    exact (List.reverse_perm _).nodup_iff.mpr hdone
  | cons a args ih =>
    unfold builtinArgs at h
    dsimp only at h
    split at h
    · cases h
    split at h
    · cases h
    rename_i _ hfresh
    have hnext := ih h ?_
    · rwa [List.map_cons, List.reverse_cons, List.append_assoc] at hnext
    · rw [List.map_cons, keywords, List.filter_cons]
      dsimp only
      split
      next hname =>
        refine List.nodup_cons.mpr ⟨fun hmem => hfresh ?_, hdone⟩
        obtain ⟨b, hb, he⟩ := List.mem_map.mp (List.mem_of_mem_filter hmem)
        rw [Bool.and_eq_true, List.any_eq_true]
        exact ⟨hname, b, hb, beq_iff_eq.mpr he⟩
      · exact hdone

/-! ## What an accepted call has passed -/

theorem nodup_of_callBuiltin (h : callBuiltin id args site s = (.ok (), s')) :
    (keywords (args.map (·.name))).Nodup := by
  unfold callBuiltin at h
  obtain ⟨sym, s₁, -, h⟩ := bind_eq_ok.mp h
  obtain ⟨registry, s₂, -, h⟩ := bind_eq_ok.mp h
  cases hentry : registry.find? sym.name with
  | none =>
    rw [hentry] at h
    cases h
  | some entry =>
    rw [hentry] at h
    obtain ⟨given, s₃, hgiven, -⟩ := bind_eq_ok.mp h
    exact nodup_of_builtinArgs (ofExcept_eq_ok hgiven).1 .nil

theorem keywords_of_callIndirect {callee : Operand} {type : Tag}
    (h : callIndirect callee type args site s = (.ok (), s')) : keywords (args.map (·.name)) = [] := by
  unfold callIndirect at h
  cases hfind : args.find? (!·.name.isEmpty) with
  | some a =>
    rw [hfind] at h
    exact absurd h not_fail_bind_eq_ok
  | none =>
    rw [keywords_map_name, List.map_eq_nil_iff, List.filter_eq_nil_iff]
    exact List.find?_eq_none.mp hfind

theorem distinct_of_callFunction {callee : Operand} (h : callFunction id callee args site s = (.ok (), s')) :
    Distinct ((s.table.get id).function?.getD {}).params (keywords (args.map (·.name))) := by
  unfold callFunction at h
  obtain ⟨t, s₁, ⟨⟩, h⟩ := bind_eq_ok.mp h
  obtain ⟨bs, s₂, hbs, -⟩ := bind_eq_ok.mp h
  exact distinct_of_plan (ofExcept_eq_ok hbs).1

theorem distinct_of_construct {cls : SymbolId} (h : construct cls args site s = (.ok (), s')) :
    ∃ id bs, chooseConstructor s.table args site.pos (s.table.classInfo cls).constructors = .ok (id, bs) ∧
      Distinct ((s.table.get id).function?.getD {}).params (keywords (args.map (·.name))) := by
  unfold construct at h
  obtain ⟨t, s₁, ⟨⟩, h⟩ := bind_eq_ok.mp h
  dsimp only at h
  split at h
  · exact absurd h not_fail_bind_eq_ok
  cases hchoice : chooseConstructor s.table args site.pos (s.table.classInfo cls).constructors with
  | error lines =>
    simp only [hchoice] at h
    cases h
  | ok choice =>
    exact ⟨choice.1, choice.2, rfl, distinct_of_plan (plan_of_chooseConstructor hchoice)⟩

/-- The name that a node passes an argument by; it is empty for a positional argument. -/
def argumentName : Node → String
  | .argument name _ => name.name
  | _ => ""

theorem name_of_argument {n : Node} {a : Argument} (h : argument visit n s = (.ok a, s')) :
    a.name = argumentName n := by
  unfold argument at h
  split at h
  all_goals
    obtain ⟨o, s₁, -, ⟨⟩⟩ := bind_eq_ok.mp h
    unfold argumentName
    split <;> simp_all

theorem names_of_arguments {nodes : List Node} (h : collect (argument visit) nodes s = (.ok args, s')) :
    args.map (·.name) = nodes.map argumentName := by
  induction nodes generalizing s args with
  | nil =>
    cases h
    rfl
  | cons n nodes ih =>
    obtain ⟨a, s₁, ha, h⟩ := bind_eq_ok.mp h
    obtain ⟨rest, s₂, hrest, ⟨⟩⟩ := bind_eq_ok.mp h
    rw [List.map_cons, List.map_cons, name_of_argument ha, ih hrest]

/-- The function that a call of a value comes to: the constructor of a class that is chosen for the arguments, or a
known function. -/
def called? (t : SymbolTable) (o : Operand) (given : List Argument) (pos : Position) : Option SymbolId :=
  match if o.effective.isClass then none else o.class? t with
  | some cls => (chooseConstructor t given pos (t.classInfo cls).constructors).toOption.map (·.1)
  | none => o.function? t

/-- In an accepted call the names that arguments are passed by are different, or else the function that is
called has `**opts`, and the names that stand for its other parameters are different. -/
theorem keywords_of_call {callee n : Node} {nodes : List Node}
    (h : call visit callee nodes n s = (.ok (), s')) :
    ∃ o given s₁ s₂, eval visit callee s = (.ok o, s₁) ∧
      collect (argument visit) nodes s₁ = (.ok given, s₂) ∧
      ((keywords (nodes.map argumentName)).Nodup ∨ ∃ id f, called? s₂.table o given callee.pos = some id ∧
        (s₂.table.get id).function? = some f ∧ (∃ p ∈ f.params, p.kind = .restKeyword) ∧
        ((keywords (nodes.map argumentName)).filter (stands f.params)).Nodup) := by
  unfold call at h
  dsimp only at h
  obtain ⟨o, s₁, ho, h⟩ := bind_eq_ok.mp h
  obtain ⟨given, s₂, hgiven, h⟩ := bind_eq_ok.mp h
  obtain ⟨t, s₃, ⟨⟩, h⟩ := bind_eq_ok.mp h
  refine ⟨o, given, s₁, s₂, ho, hgiven, ?_⟩
  rw [← names_of_arguments hgiven]
  cases hcls : if o.effective.isClass then none else o.class? s₂.table with
  | some cls =>
    rw [hcls] at h
    obtain ⟨id, bs, hchoice, hdistinct⟩ := distinct_of_construct h
    refine hdistinct.nodup_or.imp_right ?_
    rintro ⟨f, found⟩
    refine ⟨id, f, ?_, found⟩
    rw [called?, hcls]
    exact congrArg (·.toOption.map (·.1)) hchoice
  | none =>
    rw [hcls] at h
    cases hid : o.function? s₂.table with
    | some id =>
      simp only [hid] at h
      split at h
      · exact .inl (nodup_of_callBuiltin h)
      · refine (distinct_of_callFunction h).nodup_or.imp_right ?_
        rintro ⟨f, found⟩
        refine ⟨id, f, ?_, found⟩
        rw [called?, hcls, hid]
    | none =>
      simp only [hid] at h
      split at h
      · rw [keywords_of_callIndirect h]
        exact .inl .nil
      · cases h

/-- A function value `fun (a, **opts) { pass }`. -/
def sampleCallee : Node :=
  let token : Token := ⟨.keyword .funDef, "fun", {}⟩
  .lambda token [.mk (sampleName "a") .positional none, .mk (sampleName "opts") .restKeyword none] []
    (.mk token token [.pass token])

/-- The arguments `(a = 1, k = 2, k = 3)`. -/
def samplePassed : List Node :=
  [("a", 1), ("k", 2), ("k", 3)].map fun (name, value) =>
    .argument (sampleName name) (.int ⟨.int, Spelling.ofInt value, {}⟩ value)

theorem keywords_of_call_sample :
    ∃ s' o s₁ given t id f,
      call (Lower.visit 3) sampleCallee samplePassed sampleCallee { session := {} } = (.ok (), s') ∧
      eval (Lower.visit 3) sampleCallee { session := {} } = (.ok o, s₁) ∧
      called? t o given sampleCallee.pos = some id ∧ (t.get id).function? = some f ∧ (∃ p ∈ f.params, p.kind = .restKeyword) ∧
      (["a", "k", "k"].filter (stands f.params)).Nodup := by
  have accepted : (call (Lower.visit 3) sampleCallee samplePassed sampleCallee
      { session := {} }).1.toOption = some () := by
    decide +kernel
  obtain ⟨s', h⟩ : ∃ s', call (Lower.visit 3) sampleCallee samplePassed sampleCallee { session := {} } =
      (.ok (), s') := by
    generalize call (Lower.visit 3) sampleCallee samplePassed sampleCallee { session := {} } = r at accepted
    obtain ⟨_ | _, s'⟩ := r
    · cases accepted
    · exact ⟨s', rfl⟩
  obtain ⟨o, given, s₁, s₂, ho, -, hnodup | ⟨id, f, hid, hf, hopts, hnames⟩⟩ := keywords_of_call h
  · exact absurd hnodup (by decide)
  · exact ⟨s', o, s₁, given, s₂.table, id, f, h, ho, hid, hf, hopts, hnames⟩

/-- A function with `**opts` that is given two arguments of one name. -/
def twiceSource : Source := Source.ofString "fun f(**opts) { pass }\nf(k = 1, k = 2)\n"

/-- The names are not always different: both arguments are stored under the same key. -/
theorem keywords_of_twiceSource : (compileSource {} {} twiceSource "main").toOption.map
    (fun code => (code.instructions.filter (·.op == .setItem)).map (·.args)) =
      some [["%t0", "\"k\"", "1"], ["%t0", "\"k\"", "2"]] := by
  rw [compileSource_named {} Registry.names_standard, twiceSource, Source.ofString_ofList]
  decide +kernel

end Lower

end Frontend
