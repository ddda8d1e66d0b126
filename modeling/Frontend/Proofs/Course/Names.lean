import Frontend.Proofs.Course.Visit

/-!
# Names that keep their meaning

Whatever lowering does, the names of the scopes that are open keep what they stand for. So a name that stands for
something at one place stands for the same at every later place inside of the same scopes, unless one of the
scopes in between binds it.
-/

namespace Frontend

open Course SymbolTable

/-- All names of a scope keep their meaning, but for the one that may be defined again and again. -/
def Scope.Keeps (scope scope' : Scope) : Prop :=
  ∀ x id, x ≠ discardName → scope.names.lookup x = some id → scope'.names.lookup x = some id

theorem Scope.Keeps.refl (scope : Scope) : scope.Keeps scope := fun _ _ _ h => h

theorem Scope.Keeps.trans {a b c : Scope} (h : a.Keeps b) (h' : b.Keeps c) : a.Keeps c :=
  fun x id hx hid => h' x id hx (h x id hx hid)

namespace SymbolTable

/-- The scopes of the first table are open in the second one and have kept their names. More scopes may be open
inside of them. -/
structure Around (t t' : SymbolTable) : Prop where
  deeper : t.level ≤ t'.level
  inner : List.Forall₂ Scope.Keeps t.inner (t'.inner.drop (t'.level - t.level))
  global : t.global.Keeps t'.global

variable {t t' t'' : SymbolTable} {id : SymbolId}

theorem forall₂_keeps_refl (scopes : List Scope) : List.Forall₂ Scope.Keeps scopes scopes :=
  List.forall₂_same.mpr fun scope _ => .refl scope

theorem forall₂_keeps_trans {a b c : List Scope} (h : List.Forall₂ Scope.Keeps a b) (h' : List.Forall₂ Scope.Keeps b c) :
    List.Forall₂ Scope.Keeps a c := by
  induction h generalizing c with
  | nil => exact h'
  | cons hhead _ ih =>
    cases h' with
    | cons hhead' htail' => exact .cons (hhead.trans hhead') (ih htail')

theorem Around.of_eq (hinner : t'.inner = t.inner) (hglobal : t.global.Keeps t'.global) : Around t t' := by
  have hlevel : t'.level = t.level := by rw [level, level, hinner]
  refine ⟨hlevel.ge, ?_, hglobal⟩
  rw [hlevel, Nat.sub_self, List.drop_zero, hinner]
  exact forall₂_keeps_refl _

theorem Around.refl (t : SymbolTable) : Around t t := .of_eq rfl (.refl _)

theorem Around.trans (h : Around t t') (h' : Around t' t'') : Around t t'' := by
  refine ⟨h.deeper.trans h'.deeper, ?_, h.global.trans h'.global⟩
  have hdrop := List.forall₂_drop (t'.level - t.level) h'.inner
  rw [List.drop_drop, show t''.level - t'.level + (t'.level - t.level) = t''.level - t.level by
    have := h.deeper; have := h'.deeper; omega] at hdrop
  exact forall₂_keeps_trans h.inner hdrop

/-- A name that is new is entered in the innermost scope or in the global one. -/
theorem around_insertAt {level : Nat} (hlevel : level = t.level ∨ level = 0) (h : t.insertAt level id = .ok t') :
    Around t t' := by
  have hnew : (t.get id).name ≠ discardName → (t.scopeAt level).names.lookup (t.get id).name = none := by
    intro hname
    unfold insertAt at h
    dsimp only at h
    rw [if_neg (by simpa using hname)] at h
    cases hold : (t.scopeAt level).names.lookup (t.get id).name with
    | none => rfl
    | some old =>
      rw [hold] at h
      cases h
  have hkeeps : (t.scopeAt level).Keeps (entered (t.get id) id (t.scopeAt level)) := by
    intro x other hx hother
    change (putEntry _ _ _).lookup x = _
    rw [lookup_putEntry]
    split
    · next hname =>
      rw [hname, hnew (hname ▸ hx)] at hother
      cases hother
    · exact hother
  rw [insertAt_eq h]
  unfold mapScope
  split
  · next hzero =>
    refine .of_eq rfl ?_
    have hglobal : t.scopeAt level = t.global := by
      rw [scopeAt, hzero, Nat.sub_zero, show t.inner.drop t.level = [] from List.drop_length]
      rfl
    rwa [hglobal] at hkeeps
  · next hpos =>
    obtain rfl : level = t.level := hlevel.resolve_right hpos
    cases hinner : t.inner with
    | nil => exact absurd (by rw [level, hinner]; rfl) hpos
    | cons top rest =>
      have htop : t.scopeAt t.level = top := by
        rw [scopeAt, Nat.sub_self, List.drop_zero, hinner]
        rfl
      rw [htop] at hkeeps
      refine ⟨?_, ?_, .refl _⟩
      · change t.inner.length ≤ (t.inner.modify _ _).length
        rw [List.length_modify]
      · change List.Forall₂ _ t.inner ((t.inner.modify (t.level - t.level) _).drop ((t.inner.modify _ _).length - t.inner.length))
        rw [List.length_modify, Nat.sub_self, Nat.sub_self, List.drop_zero, hinner, List.modify_zero_cons]
        exact .cons hkeeps (forall₂_keeps_refl _)

/-- A class is registered in the innermost scope. -/
theorem around_registerType (t : SymbolTable) (id : SymbolId) : Around t (t.registerType id) := by
  unfold registerType
  dsimp only
  unfold mapScope
  split
  · exact .of_eq rfl (.refl _)
  · cases hinner : t.inner with
    | nil =>
      refine .of_eq ?_ (.refl _)
      simp [hinner]
    | cons top rest =>
      refine ⟨?_, ?_, .refl _⟩
      · simp [level, hinner]
      · simp only [level, hinner, List.length_cons, Nat.sub_self, List.modify_zero_cons, List.drop_zero]
        exact .cons (fun _ _ _ h => h) (forall₂_keeps_refl _)

theorem Change.around {n : Nat} {ws ws' : List String} (h : Change n ws t ws' t') : Around t t' := by
  cases h with
  | base hcls hbase h =>
    exact setBase_induction (P := Around t) h (.of_eq rfl (.refl _)) fun _ _ hu => hu.trans (.of_eq rfl (.refl _))
  | member hid hcls h =>
    rw [addMember_eq h]
    exact .of_eq rfl (.refl _)
  | enter hlevel h => exact around_insertAt hlevel h
  | _ => exact .of_eq rfl (.refl _)

end SymbolTable

variable {home : Option Home} {k : Bool} {ws ws' : List String} {s s' u : Lowering}

/-- Leaving a scope. -/
theorem SymbolTable.Around.closed {kind : ScopeKind} (hsteps : Steps (s.opened kind) u)
    (h : Around (s.opened kind).table u.table) : Around s.table (s.closed u).table := by
  obtain ⟨hinner, -, hglobal, -⟩ := leaveTo_of_sameScopes hsteps.places
  refine .of_eq hinner ?_
  rw [show (s.closed u).table.global = u.table.global from hglobal]
  exact h.global

/-- Leaving the body of a function. -/
theorem SymbolTable.Around.behind {id : SymbolId} (hsteps : Steps (s.within id) u)
    (h : Around (s.within id).table u.table) : Around s.table (s.behind u).table :=
  Around.closed (u := (s.opened .function).left u) hsteps.left h

/-- All names keep their meaning. -/
theorem Course.around (h : Course home k ws s ws' s') : Around s.table s'.table := by
  induction h with
  | refl => exact .refl _
  | trans _ _ ih₁ ih₂ => exact ih₁.trans ih₂
  | stop _ ih => exact ih
  | after _ aside ih => exact aside.table ▸ ih
  | change h => exact h.around
  | fresh sym => exact .of_eq rfl (.refl _)
  | define sym hrid hsym howner hlevel ht hcode =>
    have hadded : ∀ t : SymbolTable, Around t (t.add sym).2 := fun _ => .of_eq rfl (.refl _)
    exact (hadded _).trans (around_insertAt hlevel ht)
  | newClass sym hrid hsym hnew ht hws =>
    have hadded : ∀ t : SymbolTable, Around t (t.add sym).2 := fun _ => .of_eq rfl (.refl _)
    exact (hadded _).trans ((around_insertAt (.inl rfl) ht).trans (around_registerType _ _))
  | stray sym => exact .of_eq rfl (.refl _)
  | initial _ _ _ _ _ _ ih => exact ih
  | loop _ ih => exact ih
  | endless _ ih => exact ih
  | scope kind h ih => exact ih.closed h.steps
  | inside _ _ ih => exact ih
  | function _ _ h₁ _ h₂ hleave _ ih₁ ih₂ =>
    refine Around.behind (h₁.steps.trans (h₂.steps.apart hleave ?_)) (ih₁.trans ih₂)
    exact (CodeBuffer.depth_append _ [_]).trans ((CodeBuffer.depth_append _ _).trans (CodeBuffer.depth_append _ [_]))
  | headless _ h ih => exact Around.behind h.steps ih
  | broken _ h₁ h₂ hleave ih₁ ih₂ => exact Around.behind (h₁.steps.trans (h₂.steps.apart hleave rfl)) (ih₁.trans ih₂)
  | file hstack _ ih => exact ih
  | _ => exact .refl _

/-! ## Places inside -/

/-- Lowering gets from one state to another one, which may be inside of more files, scopes, classes and functions. -/
inductive Lowering.Leads : Lowering → Lowering → Prop where
  | course {home : Option Home} {k : Bool} {ws ws' : List String} {s s' : Lowering} (h : Course home k ws s ws' s') : Leads s s'
  | file (s : Lowering) (imports : Imports) : Leads s { s with session := { s.session with imports } }
  | opened (s : Lowering) (kind : ScopeKind) : Leads s (s.opened kind)
  | entered (s : Lowering) (id : SymbolId) : Leads s (s.entered id)
  | buffered (s : Lowering) : Leads s (s.withOut s.out.enter)
  | trans {s u s' : Lowering} (h : Leads s u) (h' : Leads u s') : Leads s s'

namespace Lowering.Leads

/-- What is around a place keeps its meaning at every place that lowering gets to. -/
theorem around (h : s.Leads s') : SymbolTable.Around s.table s'.table := by
  induction h with
  | course h => exact h.around
  | opened s kind =>
    refine ⟨Nat.le_succ _, ?_, .refl _⟩
    change List.Forall₂ _ s.table.inner ((({ kind } : Scope) :: s.table.inner).drop (s.table.level + 1 - s.table.level))
    rw [Nat.add_sub_cancel_left]
    exact forall₂_keeps_refl _
  | file | entered | buffered => exact .refl _
  | trans _ _ ih ih' => exact ih.trans ih'

theorem of_goes {α : Type} {p : Lower α} {Q : α → List String → Lowering → Prop} (hg : Good home s)
    (h : Goes home ws s p Q) : s.Leads (p s).2 := by
  have hr := h hg (p s).1 (p s).2 rfl
  split at hr
  · obtain ⟨_, hcourse, -⟩ := hr
    exact .course hcourse
  · exact .course hr

/-- From in front of a class to its body, where the members are collected. -/
theorem body {name : Ident} {ns : List Node} {cls : SymbolId} (hg : Good home s)
    (h : Lower.classHead name s = (.ok cls, u)) :
    s.Leads (Lower.collectMembers cls {} ns ((u.opened .cls).entered cls)).2 := by
  have hhead : Goes home [] s (Lower.classHead name) _ := .classHead
  obtain ⟨ws, hcourse, hcls, -⟩ := hhead hg _ _ h
  have hinside : Unfilled ((u.opened .cls).entered cls).table cls := hcls.of_symbols rfl
  have hmembers : Goes home _ _ (Lower.collectMembers cls {} ns) _ := Goes.collectMembers (hinside.collected [])
  have hgood : Good home ((u.opened .cls).entered cls) := ((hcourse.good hg).opened .cls).entered hcls.isClass
  exact .trans (.course hcourse) (.trans (.opened u .cls) (.trans (.entered _ cls) (of_goes hgood hmembers)))

end Lowering.Leads

end Frontend
