import Frontend.Lowering.State
import Frontend.Proofs.Calls.Table
import Mathlib.Data.List.Perm.Subperm
import Mathlib.Logic.Relation
import Mathlib.Order.Defs.Unbundled

/-!
# Classes below one another

A class is hung below its base once, and before anything is hung below the class itself. However many
classes are made and hung in this way, and whatever is refused in between, every chain of bases ends, and
the list of derived classes that each class keeps says what the chains say.
-/

namespace Frontend.SymbolTable

variable {t t' : SymbolTable} {a b c x y : SymbolId}
variable {n : Nat} {id : Option SymbolId} {pos : Position}

def IsClass (t : SymbolTable) (id : SymbolId) : Prop := (t.get id).class?.isSome = true

instance (t : SymbolTable) (id : SymbolId) : Decidable (t.IsClass id) :=
  inferInstanceAs (Decidable (_ = true))

/-- A class hangs directly below another one. -/
def Below (t : SymbolTable) (a b : SymbolId) : Prop := (t.classInfo a).base = some b

/-- A class hangs below another one, perhaps with classes between them. -/
def Beneath (t : SymbolTable) (a b : SymbolId) : Prop := Relation.TransGen t.Below a b

theorem IsClass.lt_size (h : t.IsClass a) : a < t.symbols.size := by
  by_contra hle
  rw [IsClass, get_of_size_le (Nat.le_of_not_lt hle)] at h
  cases h

theorem Below.lt_size (h : t.Below a b) : a < t.symbols.size := by
  by_contra hle
  rw [Below, classInfo, get_of_size_le (Nat.le_of_not_lt hle)] at h
  cases h

/-- Every base is a class, and no class comes to hang below itself. -/
structure Hierarchy (t : SymbolTable) : Prop where
  base : ∀ {a b}, t.Below a b → t.IsClass b
  acyclic : ∀ a, ¬ t.Beneath a a

/-! ## Chains -/

/-- The classes above a class, at most `n` of them. -/
theorem beneath_of_mem_chainOf (h : y ∈ t.chainOf n (t.classInfo x).base) : t.Beneath x y := by
  induction n generalizing x with
  | zero => cases h
  | succ n ih =>
    cases hbase : (t.classInfo x).base with
    | none =>
      rw [hbase] at h
      cases h
    | some b =>
      rw [hbase, chainOf] at h
      rcases List.mem_cons.mp h with rfl | hy
      · exact .single hbase
      · exact .head hbase (ih hy)

/-- A shorter walk is the beginning of a longer one. -/
theorem take_chainOf {m : Nat} (h : n ≤ m) (id : Option SymbolId) : (t.chainOf m id).take n = t.chainOf n id := by
  induction n generalizing m id with
  | zero => rfl
  | succ n ih =>
    cases m with
    | zero => exact absurd h (Nat.not_succ_le_zero n)
    | succ m =>
      cases id with
      | none => rfl
      | some id => rw [chainOf, chainOf, List.take_succ_cons, ih (Nat.le_of_succ_le_succ h)]

namespace Hierarchy

variable (h : t.Hierarchy)
include h

theorem isClass_of_beneath (hxy : t.Beneath x y) : t.IsClass y := by
  cases hxy with
  | single hbelow => exact h.base hbelow
  | tail _ hbelow => exact h.base hbelow

theorem nodup_chainOf (n : Nat) (id : Option SymbolId) : (t.chainOf n id).Nodup := by
  induction n generalizing id with
  | zero => exact List.nodup_nil
  | succ n ih =>
    cases id with
    | none => exact List.nodup_nil
    | some id =>
      rw [chainOf]
      exact List.nodup_cons.mpr ⟨fun hmem => h.acyclic id (beneath_of_mem_chainOf hmem), ih _⟩

/-- A walk never meets more classes than there are symbols. -/
theorem length_chainOf_le (n : Nat) (hid : ∀ x ∈ id, x < t.symbols.size) :
    (t.chainOf n id).length ≤ t.symbols.size := by
  have hknown : t.chainOf n id ⊆ List.range t.symbols.size := by
    intro y hy
    rw [List.mem_range]
    cases n with
    | zero => cases hy
    | succ n =>
      cases id with
      | none => cases hy
      | some x =>
        rcases List.mem_cons.mp hy with rfl | hy
        · exact hid y rfl
        · exact (h.isClass_of_beneath (beneath_of_mem_chainOf hy)).lt_size
  have hlength := ((h.nodup_chainOf n id).subperm hknown).length_le
  rwa [List.length_range] at hlength

/-- A walk as long as there are symbols has come to its end. -/
theorem chainOf_eq (hn : t.symbols.size ≤ n) (hid : ∀ x ∈ id, x < t.symbols.size) :
    t.chainOf n id = t.chain id := by
  rw [chain, ← take_chainOf hn id, List.take_of_length_le (h.length_chainOf_le n hid)]

theorem chain_eq (hx : x < t.symbols.size) : t.chain (some x) = x :: t.chain (t.classInfo x).base := by
  have hid : ∀ y ∈ some x, y < t.symbols.size := fun y hy => Option.some.inj hy ▸ hx
  rw [← h.chainOf_eq (Nat.le_succ t.symbols.size) hid, chainOf, chain]

/-- The classes above a class: its base and the classes above that. -/
theorem ancestors_eq (x : SymbolId) : t.ancestors x =
    match (t.classInfo x).base with
    | none => []
    | some b => b :: t.ancestors b := by
  unfold ancestors
  cases hbase : (t.classInfo x).base with
  | none => cases hsize : t.symbols.size <;> simp [chain, hsize, chainOf]
  | some b => exact h.chain_eq (h.base hbase).lt_size

theorem mem_ancestors : y ∈ t.ancestors x ↔ t.Beneath x y := by
  refine ⟨beneath_of_mem_chainOf, fun hxy => ?_⟩
  induction hxy using Relation.TransGen.head_induction_on with
  | single hbelow =>
    rw [h.ancestors_eq, hbelow]
    exact List.mem_cons_self
  | head hbelow _ ih =>
    rw [h.ancestors_eq, hbelow]
    exact List.mem_cons_of_mem _ ih

/-- A member is looked for in a class and then in the classes above it. -/
theorem member?_eq (hx : t.IsClass x) (name : String) : t.member? x name =
    (t.ownMember? x name).or ((t.classInfo x).base.bind (t.member? · name)) := by
  unfold member?
  rw [h.chain_eq hx.lt_size, List.findSome?_cons]
  cases t.ownMember? x name with
  | some found => rfl
  | none =>
    cases (t.classInfo x).base with
    | none => cases hsize : t.symbols.size <;> simp [chain, hsize, chainOf]
    | some b => rfl

theorem isAbove_iff (strict : Bool) : t.isAbove (some a) (some b) strict = true ↔
    a = b ∧ strict = false ∨ t.Beneath b a := by
  unfold isAbove
  by_cases hab : a = b
  · subst hab
    simp [h.acyclic a]
  · simp [hab, h.mem_ancestors]

end Hierarchy

/-! ## What the classes know of the classes below them -/

/-- The derived classes of each class are those that hang below it, each of them once. -/
structure Recorded (t : SymbolTable) : Prop extends t.Hierarchy where
  nodup : ∀ a, (t.classInfo a).derived.Nodup
  mem_derived : ∀ {a b}, b ∈ (t.classInfo a).derived ↔ t.Beneath b a

theorem Recorded.isRelated_iff (h : t.Recorded) : t.isRelated (some a) (some b) = true ↔
    a = b ∨ t.Beneath a b ∨ t.Beneath b a := by
  simp [isRelated, h.mem_ancestors, h.mem_derived]

/-! ## Making and hanging classes -/

theorem classInfo_add (t : SymbolTable) (s : Symbol) (id : SymbolId) : (t.add s).2.classInfo id =
    if id = t.symbols.size then s.class?.getD {} else t.classInfo id := by
  unfold classInfo
  rcases Nat.lt_trichotomy id t.symbols.size with hlt | rfl | hgt
  · rw [get_add_of_lt t s hlt, if_neg (Nat.ne_of_lt hlt)]
  · rw [get_add_self, if_pos rfl]
  · have hsize : (t.add s).2.symbols.size ≤ id := by rwa [size_add]
    rw [get_of_size_le hsize, get_of_size_le (Nat.le_of_lt hgt), if_neg (Nat.ne_of_gt hgt)]

theorem classInfo_modify (hid : t.IsClass a) (f : ClassInfo → ClassInfo) (x : SymbolId) :
    (t.modify a (Symbol.mapClass f)).classInfo x = if x = a then f (t.classInfo a) else t.classInfo x := by
  unfold classInfo
  rw [get_modify]
  by_cases hx : x = a
  · subst hx
    rw [if_pos ⟨rfl, hid.lt_size⟩, if_pos rfl]
    obtain ⟨c, hc⟩ := Option.isSome_iff_exists.mp hid
    rw [Symbol.class?_mapClass, hc]
    rfl
  · rw [if_neg fun h => hx h.1, if_neg hx]

theorem isClass_modify (f : ClassInfo → ClassInfo) (x : SymbolId) :
    (t.modify a (Symbol.mapClass f)).IsClass x ↔ t.IsClass x := by
  unfold IsClass
  rw [get_modify]
  split
  · rw [Symbol.class?_mapClass, Option.isSome_map]
  · rfl

/-- Tells each of some classes about a class that hangs below it. -/
def tell (cls : SymbolId) (above : List SymbolId) (t : SymbolTable) : SymbolTable :=
  above.foldl (fun t b => t.modify b (Symbol.mapClass fun c => { c with derived := c.derived ++ [cls] })) t

theorem setBase_eq {cls : SymbolId} {base : Option SymbolId} (h : t.setBase cls base pos = .ok t') :
    cls ∉ t.chain base ∧
      t' = tell cls (t.chain base) (t.modify cls (Symbol.mapClass fun c => { c with base })) := by
  unfold setBase at h
  dsimp only at h
  split at h
  · cases h
  next hfree =>
    cases h
    exact ⟨fun hmem => hfree (List.contains_iff_mem.mpr hmem), rfl⟩

theorem isClass_tell (cls : SymbolId) (above : List SymbolId) (x : SymbolId) :
    (tell cls above t).IsClass x ↔ t.IsClass x := by
  induction above generalizing t with
  | nil => rfl
  | cons b above ih => exact ih.trans (isClass_modify _ x)

theorem classInfo_tell (cls : SymbolId) {above : List SymbolId} (hnodup : above.Nodup)
    (hclasses : ∀ b ∈ above, t.IsClass b) (x : SymbolId) : (tell cls above t).classInfo x =
      if x ∈ above then { t.classInfo x with derived := (t.classInfo x).derived ++ [cls] }
      else t.classInfo x := by
  induction above generalizing t with
  | nil => rfl
  | cons b above ih =>
    obtain ⟨hb, hnodup⟩ := List.nodup_cons.mp hnodup
    obtain ⟨hclass, hclasses⟩ := List.forall_mem_cons.mp hclasses
    have hrest := ih hnodup (fun b' hb' => (isClass_modify _ b').mpr (hclasses b' hb'))
      (t := t.modify b (Symbol.mapClass fun c => { c with derived := c.derived ++ [cls] }))
    refine hrest.trans ?_
    rw [classInfo_modify hclass]
    by_cases hx : x = b
    · subst hx
      simp [hb]
    · simp [hx]

namespace Hierarchy

theorem mem_chain (h : t.Hierarchy) (hx : t.IsClass x) : y ∈ t.chain (some x) ↔ y = x ∨ t.Beneath x y := by
  rw [h.chain_eq hx.lt_size, List.mem_cons]
  exact or_congr Iff.rfl h.mem_ancestors

/-- A class is refused as a base of itself and of the classes above it, and of no others. -/
theorem setBase_refused (h : t.Hierarchy) (hb : t.IsClass b) (pos : Position) :
    (∃ d, t.setBase c (some b) pos = .error d) ↔ c = b ∨ t.Beneath b c := by
  rw [← h.mem_chain hb]
  unfold setBase
  dsimp only
  split
  next hmem => exact ⟨fun _ => List.contains_iff_mem.mp hmem, fun _ => ⟨_, rfl⟩⟩
  next hfree => exact ⟨nofun, fun hmem => absurd (List.contains_iff_mem.mpr hmem) hfree⟩

end Hierarchy

/-- What matters about classes is the same in two tables. -/
theorem Recorded.of_classInfo (h : t.Recorded) (hinfo : ∀ x, t'.classInfo x = t.classInfo x)
    (hclass : ∀ x, t.IsClass x → t'.IsClass x) : t'.Recorded := by
  have hbelow : t'.Below = t.Below := by
    funext x y
    rw [Below, Below, hinfo]
  refine ⟨⟨fun hab => hclass _ (h.base (hbelow ▸ hab)), fun a => ?_⟩, fun a => ?_, fun {a b} => ?_⟩
  · rw [Beneath, hbelow]
    exact h.acyclic a
  · rw [hinfo]
    exact h.nodup a
  · rw [hinfo, Beneath, hbelow]
    exact h.mem_derived

theorem Recorded.add (h : t.Recorded) {s : Symbol}
    (hs : ∀ c, s.class? = some c → c.base = none ∧ c.derived = []) : (t.add s).2.Recorded := by
  have hnew : (s.class?.getD {}).base = none ∧ (s.class?.getD {}).derived = [] := by
    cases hc : s.class? with
    | none => exact ⟨rfl, rfl⟩
    | some c => exact hs c hc
  have hold : (t.classInfo t.symbols.size).base = none ∧ (t.classInfo t.symbols.size).derived = [] := by
    unfold classInfo
    rw [get_of_size_le (Nat.le_refl _)]
    exact ⟨rfl, rfl⟩
  have hbase : ∀ x, ((t.add s).2.classInfo x).base = (t.classInfo x).base := by
    intro x
    rw [classInfo_add]
    split
    next hx => rw [hx, hnew.1, hold.1]
    · rfl
  have hderived : ∀ x, ((t.add s).2.classInfo x).derived = (t.classInfo x).derived := by
    intro x
    rw [classInfo_add]
    split
    next hx => rw [hx, hnew.2, hold.2]
    · rfl
  have hbelow : (t.add s).2.Below = t.Below := by
    funext x y
    rw [Below, Below, hbase]
  refine ⟨⟨fun {a b} hab => ?_, fun a => ?_⟩, fun a => ?_, fun {a b} => ?_⟩
  · have hb := h.base (hbelow ▸ hab)
    rw [IsClass, get_add_of_lt t s hb.lt_size]
    exact hb
  · rw [Beneath, hbelow]
    exact h.acyclic a
  · rw [hderived]
    exact h.nodup a
  · rw [hderived, Beneath, hbelow]
    exact h.mem_derived

section Hanging
variable {cls base : SymbolId} (h : t.Recorded) (hfree : (t.classInfo cls).base = none)
  (hlast : ∀ x, ¬ t.Below x cls) (hbelow : ∀ x y, t'.Below x y ↔ if x = cls then y = base else t.Below x y)
include hfree hlast hbelow

/-- One more class is hung below another one: below what, nothing else changes. -/
theorem beneath_hung : t'.Beneath x y ↔ t.Beneath x y ∨ x = cls ∧ (y = base ∨ t.Beneath base y) := by
  have hold : ∀ {a b}, t.Below a b → t'.Below a b := by
    intro a b hab
    have ha : a ≠ cls := by
      rintro rfl
      rw [Below, hfree] at hab
      cases hab
    rw [hbelow, if_neg ha]
    exact hab
  have hmono : ∀ {a b}, t.Beneath a b → t'.Beneath a b :=
    fun hab => Relation.TransGen.mono (fun _ _ hab => hold hab) _ _ hab
  have hnothing : ∀ a, ¬ t.Beneath a cls := by
    intro a ha
    cases ha with
    | single hab => exact hlast _ hab
    | tail _ hab => exact hlast _ hab
  have hnew : t'.Below cls base := (hbelow cls base).mpr (by rw [if_pos rfl])
  constructor
  · intro hxy
    induction hxy with
    | @single y hxy =>
      rw [hbelow] at hxy
      split at hxy
      next hx => exact .inr ⟨hx, .inl hxy⟩
      · exact .inl (.single hxy)
    | @tail m y hxm hmy ih =>
      rw [hbelow] at hmy
      split at hmy
      next hm =>
        -- nothing hangs below the class, so only the class itself could have been come to
        subst hm
        rcases ih with hbeneath | ⟨rfl, rfl | hbeneath⟩
        · exact absurd hbeneath (hnothing x)
        · exact .inr ⟨rfl, .inl hmy⟩
        · exact absurd hbeneath (hnothing base)
      · rcases ih with hbeneath | ⟨rfl, rfl | hbeneath⟩
        · exact .inl (hbeneath.tail hmy)
        · exact .inr ⟨rfl, .inr (.single hmy)⟩
        · exact .inr ⟨rfl, .inr (hbeneath.tail hmy)⟩
  · rintro (hbeneath | ⟨rfl, rfl | hbeneath⟩)
    · exact hmono hbeneath
    · exact .single hnew
    · exact .head hnew (hmono hbeneath)

end Hanging

/-- A class without a base, with nothing hung below it, is hung below another class. -/
theorem Recorded.setBase (h : t.Recorded) {cls : SymbolId} {base : Option SymbolId} (hcls : t.IsClass cls)
    (hbase : ∀ b ∈ base, t.IsClass b) (hfree : (t.classInfo cls).base = none)
    (hlast : base.isSome → ∀ x, ¬ t.Below x cls) (hset : t.setBase cls base pos = .ok t') : t'.Recorded := by
  obtain ⟨happart, rfl⟩ := setBase_eq hset
  have hinfo := classInfo_modify hcls (fun c => { c with base })
  have hclass : ∀ x, (tell cls (t.chain base) (t.modify cls (Symbol.mapClass fun c => { c with base }))).IsClass x ↔
      t.IsClass x := fun x => (isClass_tell _ _ x).trans (isClass_modify _ x)
  cases base with
  | none =>
    refine h.of_classInfo (fun x => ?_) fun x hx => (hclass x).mpr hx
    have hchain : t.chain none = [] := by cases hsize : t.symbols.size <;> simp [chain, hsize, chainOf]
    rw [hchain]
    refine (hinfo x).trans ?_
    split
    next hx =>
      rw [hx, ← hfree]
    · rfl
  | some b =>
    have hb : t.IsClass b := hbase b rfl
    have hnodup := h.nodup_chainOf t.symbols.size (some b)
    have hchain : ∀ {y}, y ∈ t.chain (some b) ↔ y = b ∨ t.Beneath b y := h.mem_chain hb
    have hclasses : ∀ y ∈ t.chain (some b),
        (t.modify cls (Symbol.mapClass fun c => { c with base := some b })).IsClass y := by
      intro y hy
      refine (isClass_modify _ y).mpr ?_
      rcases hchain.mp hy with rfl | hbeneath
      · exact hb
      · exact h.isClass_of_beneath hbeneath
    have htold := classInfo_tell cls hnodup hclasses
    generalize ht' : tell cls (t.chain (some b))
      (t.modify cls (Symbol.mapClass fun c => { c with base := some b })) = t' at hclass
    have hbases : ∀ x y, t'.Below x y ↔ if x = cls then y = b else t.Below x y := by
      intro x y
      have hx : (t'.classInfo x).base = if x = cls then some b else (t.classInfo x).base := by
        rw [← ht', chain, htold, hinfo]
        split <;> split <;> rfl
      rw [Below, hx]
      split
      · rw [Option.some_inj, eq_comm]
      · rfl
    have hderived : ∀ x, (t'.classInfo x).derived =
        if x ∈ t.chain (some b) then (t.classInfo x).derived ++ [cls] else (t.classInfo x).derived := by
      intro x
      rw [← ht', chain, htold, hinfo]
      split <;> split <;> simp_all
    have hbeneath : ∀ {x y}, t'.Beneath x y ↔ t.Beneath x y ∨ x = cls ∧ (y = b ∨ t.Beneath b y) :=
      beneath_hung hfree (hlast rfl) hbases
    refine ⟨⟨fun {x y} hxy => ?_, fun x hx => ?_⟩, fun x => ?_, fun {x y} => ?_⟩
    · rw [hclass]
      rw [hbases] at hxy
      split at hxy
      · exact hxy ▸ hb
      · exact h.base hxy
    · rcases hbeneath.mp hx with hx | ⟨rfl, hx⟩
      · exact h.acyclic x hx
      · exact happart (hchain.mpr hx)
    · rw [hderived]
      split
      · have hnew : cls ∉ (t.classInfo x).derived := by
          intro hmem
          obtain ⟨y, hbelow, -⟩ := Relation.TransGen.head'_iff.mp (h.mem_derived.mp hmem)
          rw [Below, hfree] at hbelow
          cases hbelow
        refine List.nodup_append.mpr ⟨h.nodup x, by simp, ?_⟩
        rintro y hy _ hz rfl
        exact hnew (List.mem_singleton.mp hz ▸ hy)
      · exact h.nodup x
    · rw [hderived, hbeneath, ← h.mem_derived, ← hchain]
      split <;> simp_all

/-! ## Sequences of moves -/

/-- A move in the making of a class hierarchy. -/
inductive HierarchyMove where
  /-- A symbol is made. -/
  | make (s : Symbol)
  /-- A class is to be hung below another one. -/
  | hang (cls : SymbolId) (base : Option SymbolId) (pos : Position)

namespace HierarchyMove

/-- What comes of a move: a new table, or the reason why it is refused. -/
def tried (t : SymbolTable) : HierarchyMove → Except Diagnostic SymbolTable
  | make s => .ok (t.add s).2
  | hang cls base pos => t.setBase cls base pos

/-- The table behind a move; a move that is refused is as if it had not been made. -/
def perform (t : SymbolTable) (m : HierarchyMove) : SymbolTable := (m.tried t).toOption.getD t

/-- A move that may be made: new classes have neither bases nor derived classes, and a class is given its
base once, before another class is hung below it. Nothing is asked of a move that is refused. -/
def Orderly (t : SymbolTable) : HierarchyMove → Prop
  | make s => ∀ c, s.class? = some c → c.base = none ∧ c.derived = []
  | hang cls base pos => t.IsClass cls ∧ (∀ b ∈ base, t.IsClass b) ∧
      ∀ t', t.setBase cls base pos = .ok t' →
        (t.classInfo cls).base = none ∧ (base.isSome → ∀ x, ¬ t.Below x cls)

/-- Moves one after another, each of which may be made where it comes. -/
def AllOrderly (t : SymbolTable) : List HierarchyMove → Prop
  | [] => True
  | m :: ms => m.Orderly t ∧ AllOrderly (m.perform t) ms

end HierarchyMove

def performAll (t : SymbolTable) (moves : List HierarchyMove) : SymbolTable :=
  moves.foldl (fun t m => m.perform t) t

/-- No class hangs below another one. -/
def Unlinked (t : SymbolTable) : Prop :=
  ∀ id, (t.classInfo id).base = none ∧ (t.classInfo id).derived = []

theorem Unlinked.recorded (h : t.Unlinked) : t.Recorded := by
  have hbelow : ∀ {a b}, ¬ t.Below a b := by
    intro a b hab
    rw [Below, (h a).1] at hab
    cases hab
  have hbeneath : ∀ {a b}, ¬ t.Beneath a b := by
    intro a b hab
    obtain ⟨y, hay, -⟩ := Relation.TransGen.head'_iff.mp hab
    exact hbelow hay
  refine ⟨⟨fun hab => absurd hab hbelow, fun a => hbeneath⟩, fun a => ?_, fun {a b} => ?_⟩
  · rw [(h a).2]
    exact List.nodup_nil
  · rw [(h a).2]
    exact ⟨nofun, fun hb => absurd hb hbeneath⟩

theorem Recorded.perform (h : t.Recorded) {m : HierarchyMove} (hm : m.Orderly t) : (m.perform t).Recorded := by
  cases m with
  | make s => exact h.add hm
  | hang cls base pos =>
    change ((t.setBase cls base pos).toOption.getD t).Recorded
    cases hset : t.setBase cls base pos with
    | error d => exact h
    | ok t' =>
      obtain ⟨hcls, hbase, hmay⟩ := hm
      obtain ⟨hfree, hlast⟩ := hmay t' hset
      exact h.setBase hcls hbase hfree hlast hset

theorem Recorded.performAll (h : t.Recorded) {moves : List HierarchyMove}
    (hmoves : HierarchyMove.AllOrderly t moves) : (t.performAll moves).Recorded := by
  induction moves generalizing t with
  | nil => exact h
  | cons m moves ih => exact ih (h.perform hmoves.1) hmoves.2

theorem tryTable_of_error {f : SymbolTable → Except Diagnostic SymbolTable} {s : Lowering} {d : Diagnostic}
    (h : f s.session.symbols = .error d) : Lower.tryTable f s = (.error (.diagnostic d), s) := by
  change (Lower.ofExcept (f s.session.symbols) >>= fun t => Lower.changeTable fun _ => t) s = _
  rw [h]
  rfl

/-- Classes that are made and hung in order form a forest: chains of bases end, so that the walks along
them find what they are to find, derived classes are the classes beneath, and the questions about two
classes are answered by the chains. A move is refused when it would close a cycle, and leaves everything
as it was. -/
theorem forest_of_orderly {start : SymbolTable} (hstart : start.Unlinked) {moves : List HierarchyMove}
    (hmoves : HierarchyMove.AllOrderly start moves) {t : SymbolTable} (ht : start.performAll moves = t) :
    (∀ a, ¬ t.Beneath a a) ∧
    (∀ a, t.ancestors a = match (t.classInfo a).base with
      | none => []
      | some b => b :: t.ancestors b) ∧
    (∀ a, t.IsClass a → ∀ name, t.member? a name =
      (t.ownMember? a name).or ((t.classInfo a).base.bind (t.member? · name))) ∧
    (∀ a b, a ∈ t.ancestors b ↔ t.Beneath b a) ∧
    (∀ a b, (t.classInfo a).derived.count b = if a ∈ t.ancestors b then 1 else 0) ∧
    (∀ a b strict, t.isAbove (some a) (some b) strict = true ↔
      a = b ∧ strict = false ∨ a ∈ t.ancestors b) ∧
    IsStrictOrder SymbolId (fun a b => t.isAbove (some a) (some b) true = true) ∧
    (∀ a b, t.isRelated (some a) (some b) = t.isRelated (some b) (some a)) ∧
    (∀ a b, t.isRelated (some a) (some b) = true ↔ a = b ∨ a ∈ t.ancestors b ∨ b ∈ t.ancestors a) ∧
    (∀ c b pos, t.IsClass b →
      ((∃ d, t.setBase c (some b) pos = .error d) ↔ c = b ∨ c ∈ t.ancestors b)) ∧
    (∀ m d, HierarchyMove.tried t m = .error d → m.perform t = t) ∧
    (∀ (s : Lowering) c base pos d, s.session.symbols = t → t.setBase c base pos = .error d →
      Lower.tryTable (·.setBase c base pos) s = (.error (.diagnostic d), s)) := by
  have h : t.Recorded := ht ▸ hstart.recorded.performAll hmoves
  have hrelated : ∀ a b, t.isRelated (some a) (some b) = true ↔
      a = b ∨ a ∈ t.ancestors b ∨ b ∈ t.ancestors a := by
    intro a b
    rw [h.isRelated_iff, h.mem_ancestors, h.mem_ancestors, or_comm (a := t.Beneath a b)]
  refine ⟨h.acyclic, h.ancestors_eq, fun a ha => h.member?_eq ha, fun _ _ => h.mem_ancestors,
    fun a b => ?_, fun a b strict => ?_, ?_, fun a b => ?_, hrelated, fun c b pos hb => ?_, fun m d hd => ?_, ?_⟩
  · rw [(h.nodup a).count]
    exact if_congr (h.mem_derived.trans h.mem_ancestors.symm) rfl rfl
  · rw [h.isAbove_iff, h.mem_ancestors]
  · simp only [h.isAbove_iff, reduceCtorEq, and_false, false_or]
    exact { irrefl := h.acyclic, trans := fun a b c hba hcb => hcb.trans hba }
  · rw [Bool.eq_iff_iff, hrelated, hrelated, eq_comm, or_comm (a := a ∈ t.ancestors b)]
  · rw [h.setBase_refused hb, h.mem_ancestors]
  · rw [HierarchyMove.perform, hd]
    rfl
  · rintro s c base pos d rfl hd
    exact tryTable_of_error hd

/-- Three classes, of which the last one is hung below the second one and that below the first one. The
first one is refused as a class below the last one. -/
def sampleMoves : List HierarchyMove :=
  let cls := fun (name : String) => HierarchyMove.make { name, rid := name, detail := .cls {} }
  [cls "A", cls "B", cls "C", .hang 1 (some 0) {}, .hang 2 (some 1) {}, .hang 0 (some 2) {}]

theorem orderly_sampleMoves : HierarchyMove.AllOrderly {} sampleMoves := by
  have hlast : ∀ {t : SymbolTable} {a}, (∀ x < t.symbols.size, (t.classInfo x).base ≠ some a) →
      ∀ x, ¬ t.Below x a := fun h x hx => h x hx.lt_size hx
  have hmade : ∀ {t : SymbolTable} {name : String},
      (HierarchyMove.make { name, rid := name, detail := .cls {} }).Orderly t := by
    rintro t name _ ⟨⟩
    exact ⟨rfl, rfl⟩
  refine ⟨hmade, hmade, hmade,
    ⟨by decide +kernel, by decide +kernel, fun _ _ => ⟨by decide +kernel, fun _ => hlast (by decide +kernel)⟩⟩,
    ⟨by decide +kernel, by decide +kernel, fun _ _ => ⟨by decide +kernel, fun _ => hlast (by decide +kernel)⟩⟩,
    ⟨by decide +kernel, by decide +kernel, fun t' hset => ?_⟩, trivial⟩
  have hrefused : ((performAll {} (sampleMoves.take 5)).setBase 0 (some 2) {}).toOption.isSome = false := by
    decide +kernel
  have haccepted := congrArg (fun r => r.toOption.isSome) hset
  exact absurd (hrefused.symm.trans haccepted) Bool.false_ne_true

theorem unlinked_empty : Unlinked {} := by
  intro id
  rw [classInfo, get_of_size_le (Nat.zero_le id)]
  exact ⟨rfl, rfl⟩

theorem forest_of_sampleMoves : HierarchyMove.AllOrderly {} sampleMoves ∧
    (performAll {} sampleMoves).ancestors 2 = [1, 0] ∧
    ((performAll {} sampleMoves).classInfo 0).derived.count 2 = 1 ∧
    ¬ (performAll {} sampleMoves).Beneath 0 0 := by
  obtain ⟨hacyclic, -, -, -, hcount, -⟩ := forest_of_orderly unlinked_empty orderly_sampleMoves rfl
  have hancestors : (performAll {} sampleMoves).ancestors 2 = [1, 0] := by decide +kernel
  exact ⟨orderly_sampleMoves, hancestors, by rw [hcount, hancestors]; rfl, hacyclic 0⟩

end Frontend.SymbolTable
