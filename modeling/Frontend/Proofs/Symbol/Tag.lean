import Frontend.Proofs.Blur.Table
import Frontend.Proofs.Symbol.Hierarchy

/-!
# How types compare

Two tags mean the same when nothing but their places tells them apart. From this the laws of meeting
types follow; and where classes form a hierarchy, what may be stored where is the order of the classes.
-/

namespace Frontend

namespace Tag

variable {a b c : Tag}

mutual
/-- Tags mean the same when they are equal once their places are forgotten. -/
theorem same_iff : ∀ a b : Tag, a.same b = true ↔ a.blurred .places = b.blurred .places
  | missing, missing => by simp [same]
  | missing, mk .. | mk .., missing => by simp [same, blurred]
  | mk _ _ _ gs _, mk _ _ _ gs' _ => by
    simp [same, blurred, Blur.places, sameGroups_iff gs gs', and_assoc]

theorem sameGroups_iff : ∀ gs gs' : List (List Tag),
    sameGroups gs gs' = true ↔ gs.map (List.map (blurred .places)) = gs'.map (List.map (blurred .places))
  | [], [] | [], _ :: _ | _ :: _, [] => by simp [sameGroups]
  | g :: gs, g' :: gs' => by simp [sameGroups, sameAll_iff g g', sameGroups_iff gs gs']

theorem sameAll_iff : ∀ ts ts' : List Tag,
    sameAll ts ts' = true ↔ ts.map (blurred .places) = ts'.map (blurred .places)
  | [], [] | [], _ :: _ | _ :: _, [] => by simp [sameAll]
  | t :: ts, t' :: ts' => by simp [sameAll, same_iff t t', sameAll_iff ts ts']
end

theorem same_refl (a : Tag) : a.same a = true := (same_iff a a).mpr rfl

theorem same_symm (h : a.same b = true) : b.same a = true :=
  (same_iff b a).mpr ((same_iff a b).mp h).symm

theorem same_trans (hab : a.same b = true) (hbc : b.same c = true) : a.same c = true :=
  (same_iff a c).mpr (((same_iff a b).mp hab).trans ((same_iff b c).mp hbc))

theorem same_comm (a b : Tag) : a.same b = b.same a :=
  Bool.eq_iff_iff.mpr ⟨same_symm, same_symm⟩

theorem is_of_same (h : a.same b = true) (type : TypeName) : a.is type = b.is type := by
  rw [← is_blurred (b := .places), (same_iff a b).mp h, is_blurred]

theorem rid_of_same (h : a.same b = true) : a.rid = b.rid := by
  rw [← rid_blurred (b := .places), (same_iff a b).mp h, rid_blurred]

/-! ## Meeting types -/

theorem meets_refl (a : Tag) : a.meets a = true := by rw [meets, if_pos (same_refl a)]

theorem meets_comm (a b : Tag) : a.meets b = b.meets a := by
  unfold meets
  rw [same_comm a b, Bool.or_comm b.isAny, Bool.or_comm (b.is .nul), Bool.and_comm b.isFunction,
    Bool.or_comm b.groups.isEmpty, Bool.beq_comm (a := b.name)]

theorem meets_of_isAny (h : a.isAny = true) (b : Tag) : a.meets b = true := by
  unfold meets
  rw [h]
  by_cases hsame : a.same b = true <;> simp [hsame]

/-- A tag is at most one of the built-in types. -/
theorem eq_of_is {type type' : TypeName} (h : a.is type = true) (h' : a.is type' = true) :
    type.text = type'.text := by
  cases a with
  | missing => cases h
  | mk kind name rid groups pos =>
    cases kind <;> simp_all [is]

theorem isAny_of_is {type : TypeName} (h : a.is type = true) (hne : type.text ≠ TypeName.any.text) :
    a.isAny = false := by
  have hany : a.is .any = false := by
    by_contra hany
    exact hne (eq_of_is h (Bool.not_eq_false _ ▸ hany))
  cases a with
  | missing => cases h
  | mk kind name rid groups pos => rw [isAny, hany, isMissing, Bool.or_false]

theorem isAny_of_isFunction (h : a.isFunction = true) : a.isAny = false := by
  rcases (Bool.or_eq_true _ _).mp h with hfunc | hfuni
  · exact isAny_of_is hfunc (by decide)
  · exact isAny_of_is hfuni (by decide)

theorem not_isMissing_of_isClass (h : a.isClass = true) : a.isMissing = false := by
  cases a with
  | missing => cases h
  | mk => rfl

theorem not_is_of_isClass (h : a.isClass = true) (type : TypeName) : a.is type = false := by
  cases a with
  | missing => cases h
  | mk kind name rid groups pos => cases kind <;> simp_all [is, isClass]

theorem meets_of_nul (h : a.is .nul = true) (b : Tag) : a.meets b = true ↔ a.same b = true ∨ b.isAny = true := by
  unfold meets
  rw [h, isAny_of_is h (by decide)]
  by_cases hsame : a.same b = true
  · simp [hsame]
  · by_cases hany : b.isAny = true <;> simp [hsame, hany]

/-- Function types that say what they take and give have to be the same. -/
theorem meets_of_groups (ha : a.isFunction = true) (hb : b.isFunction = true) (hgroups : a.groups ≠ [])
    (hgroups' : b.groups ≠ []) : a.meets b = a.same b := by
  have hany := isAny_of_isFunction ha
  have hany' := isAny_of_isFunction hb
  unfold meets
  by_cases hsame : a.same b = true
  · rw [if_pos hsame, hsame]
  · simp [hsame, hany, hany', hgroups, hgroups']

/-- The tags of classes meet only when they mean the same. -/
theorem meets_of_isClass (ha : a.isClass = true) (hb : b.isClass = true) : a.meets b = a.same b := by
  unfold meets
  by_cases hsame : a.same b = true
  · rw [if_pos hsame, hsame]
  · simp [hsame, isAny, isFunction, not_is_of_isClass ha, not_is_of_isClass hb,
      not_isMissing_of_isClass ha, not_isMissing_of_isClass hb]

end Tag

/-! ## Storing values of classes -/

namespace SymbolTable

variable {t : SymbolTable} {a b c : SymbolId} {d v w : Tag}

/-- A tag stands for a registered class. -/
structure Denotes (t : SymbolTable) (d : Tag) (a : SymbolId) : Prop where
  isClass : d.isClass = true
  registered : t.type? d.rid = some a

def tagOf (t : SymbolTable) (a : SymbolId) : Tag := .ofClass (t.get a).name (t.get a).rid

theorem Hierarchy.of_symbols {t' : SymbolTable} (h : t.Hierarchy) (hsymbols : t'.symbols = t.symbols) :
    t'.Hierarchy := by
  have hget : t'.get = t.get := by
    funext id
    rw [get, get, hsymbols]
  have hbelow : t'.Below = t.Below := by
    funext a b
    rw [Below, Below, classInfo, classInfo, hget]
  refine ⟨fun {a b} hab => ?_, fun a => ?_⟩
  · rw [IsClass, hget]
    exact h.base (hbelow ▸ hab)
  · rw [Beneath, hbelow]
    exact h.acyclic a

namespace Hierarchy

variable (h : t.Hierarchy)
include h

section
variable (hd : t.Denotes d a) (hv : t.Denotes v b)
include hd hv

theorem assignable_iff : t.assignable d v = true ↔ a = b ∨ a ∈ t.ancestors b := by
  have hclasses : t.isAbove (some a) (some b) false = true ↔ a = b ∨ a ∈ t.ancestors b := by
    rw [h.isAbove_iff, h.mem_ancestors]
    simp
  unfold assignable
  rw [Tag.meets_of_isClass hd.isClass hv.isClass, hd.isClass, hv.isClass, hd.registered, hv.registered]
  by_cases hsame : d.same v = true
  · have hab : a = b := by
      have hrid := hd.registered
      rw [Tag.rid_of_same hsame, hv.registered] at hrid
      exact (Option.some.inj hrid).symm
    simp [hsame, hab]
  · simpa [hsame] using hclasses

theorem assignable_trans (hw : t.Denotes w c) (hdv : t.assignable d v = true) (hvw : t.assignable v w = true) :
    t.assignable d w = true := by
  rw [h.assignable_iff hd hv, h.mem_ancestors] at hdv
  rw [h.assignable_iff hv hw, h.mem_ancestors] at hvw
  rw [h.assignable_iff hd hw, h.mem_ancestors]
  rcases hdv with rfl | hba
  · exact hvw
  · rcases hvw with rfl | hcb
    · exact .inr hba
    · exact .inr (hcb.trans hba)

theorem eq_of_assignable (hdv : t.assignable d v = true) (hvd : t.assignable v d = true) : a = b := by
  rw [h.assignable_iff hd hv, h.mem_ancestors] at hdv
  rw [h.assignable_iff hv hd, h.mem_ancestors] at hvd
  rcases hdv with rfl | hba
  · rfl
  · rcases hvd with rfl | hab
    · rfl
    · exact absurd (hab.trans hba) (h.acyclic a)

end

/-- Meaning the same is an equivalence, and meeting is reflexive and symmetric; any type meets every
type, no other type meets `nul`, and the types of functions that say what they take and give meet only
when they mean the same. What may be stored in a place for a class is ordered as the classes are, each
above those that come from it. -/
theorem compares :
    (Equivalence fun d v : Tag => d.same v = true) ∧
    (∀ d : Tag, d.meets d = true) ∧
    (∀ d v : Tag, d.meets v = v.meets d) ∧
    (∀ d v : Tag, d.isAny = true → d.meets v = true ∧ v.meets d = true) ∧
    (∀ d v : Tag, d.is .nul = true → (d.meets v = true ↔ d.same v = true ∨ v.isAny = true)) ∧
    (∀ d v : Tag, d.is .nul = true → d.meets v = true → v.is .nul = true ∨ v.isAny = true) ∧
    (∀ d v : Tag, d.isFunction = true → v.isFunction = true → d.groups ≠ [] → v.groups ≠ [] →
      (d.meets v = true ↔ d.same v = true)) ∧
    (∀ d a, t.Denotes d a → t.assignable d d = true) ∧
    (∀ d v w a b c, t.Denotes d a → t.Denotes v b → t.Denotes w c →
      t.assignable d v = true → t.assignable v w = true → t.assignable d w = true) ∧
    (∀ d v a b, t.Denotes d a → t.Denotes v b → t.assignable d v = true → t.assignable v d = true →
      a = b ∧ (d.same (t.tagOf a) = true → v.same (t.tagOf b) = true → d.same v = true)) ∧
    (∀ d v a b, t.Denotes d a → t.Denotes v b →
      (t.assignable d v = true ↔ a = b ∨ a ∈ t.ancestors b)) := by
  refine ⟨⟨Tag.same_refl, Tag.same_symm, Tag.same_trans⟩, Tag.meets_refl, Tag.meets_comm,
    fun d v hany => ?_, fun d v hnul => Tag.meets_of_nul hnul v, fun d v hnul hmeets => ?_,
    fun d v hd hv hgroups hgroups' => ?_, fun d a hd => (h.assignable_iff hd hd).mpr (.inl rfl),
    fun d v w a b c hd hv hw => h.assignable_trans hd hv hw, fun d v a b hd hv hdv hvd => ?_,
    fun d v a b hd hv => h.assignable_iff hd hv⟩
  · rw [Tag.meets_comm v d]
    exact ⟨Tag.meets_of_isAny hany v, Tag.meets_of_isAny hany v⟩
  · rcases (Tag.meets_of_nul hnul v).mp hmeets with hsame | hany
    · exact .inl (Tag.is_of_same hsame .nul ▸ hnul)
    · exact .inr hany
  · rw [Tag.meets_of_groups hd hv hgroups hgroups']
  · have hab : a = b := h.eq_of_assignable hd hv hdv hvd
    subst hab
    exact ⟨rfl, fun hsame hsame' => Tag.same_trans hsame (Tag.same_symm hsame')⟩

end Hierarchy

/-- The classes of the sample, each of them registered. -/
def sampleClasses : SymbolTable := (((performAll {} sampleMoves).registerType 0).registerType 1).registerType 2

theorem compares_sampleClasses : sampleClasses.Hierarchy ∧
    sampleClasses.assignable (.ofClass "A" "A") (.ofClass "C" "C") = true ∧
    sampleClasses.assignable (.ofClass "C" "C") (.ofClass "A" "A") = false := by
  have hmoves : (performAll {} sampleMoves).Hierarchy :=
    (unlinked_empty.recorded.performAll orderly_sampleMoves).toHierarchy
  have h : sampleClasses.Hierarchy := hmoves.of_symbols rfl
  have hA : sampleClasses.Denotes (.ofClass "A" "A") 0 := ⟨by decide +kernel, by decide +kernel⟩
  have hC : sampleClasses.Denotes (.ofClass "C" "C") 2 := ⟨by decide +kernel, by decide +kernel⟩
  obtain ⟨-, -, -, -, -, -, -, -, -, -, hassignable⟩ := h.compares
  refine ⟨h, (hassignable _ _ _ _ hA hC).mpr (by decide +kernel), Bool.eq_false_iff.mpr fun hCA => ?_⟩
  exact absurd ((hassignable _ _ _ _ hC hA).mp hCA) (by decide +kernel)

end SymbolTable

end Frontend
