import Frontend.Proofs.Tree.Moved
import Frontend.Symbol.Hierarchy

/-!
# Symbols out of focus

Where something stands in the source text matters to messages only. A blur forgets some of it: it says
where everything is put instead. This module blurs tags, symbols and symbol tables, and shows that every
question about them is answered the same way afterwards.
-/

namespace Frontend

/-- What is forgotten about lowering: places, as far as the function puts them together, and perhaps the
notes in the code. -/
structure Blur where
  place : Position → Position
  /-- What has no place gets none. -/
  origin : place {} = {}
  dropsNotes : Bool

namespace Blur

def places : Blur := ⟨fun _ => {}, rfl, false⟩

/-- The notes in the code are forgotten. -/
def notes : Blur := ⟨id, rfl, true⟩

end Blur

attribute [simp] Blur.origin

variable {b : Blur}

/-! ## Tags -/

namespace Tag

mutual
/-- A tag out of focus. -/
def blurred (b : Blur) : Tag → Tag
  | missing => missing
  | mk kind name rid groups pos => mk kind name rid (blurredGroups b groups) (b.place pos)

/-- Groups of tags out of focus. -/
def blurredGroups (b : Blur) : List (List Tag) → List (List Tag)
  | [] => []
  | g :: gs => blurredAll b g :: blurredGroups b gs

/-- Tags out of focus. -/
def blurredAll (b : Blur) : List Tag → List Tag
  | [] => []
  | t :: ts => blurred b t :: blurredAll b ts
end

@[simp] theorem blurredAll_eq (ts : List Tag) : blurredAll b ts = ts.map (blurred b) := by
  induction ts with
  | nil => rfl
  | cons t ts ih => rw [blurredAll, ih, List.map_cons]

@[simp] theorem blurredGroups_eq (gs : List (List Tag)) : blurredGroups b gs = gs.map (List.map (blurred b)) := by
  induction gs with
  | nil => rfl
  | cons g gs ih => rw [blurredGroups, ih, blurredAll_eq, List.map_cons]

@[simp] theorem blurred_missing : blurred b missing = missing := rfl

@[simp] theorem blurred_ofType (t : TypeName) : (ofType t).blurred b = ofType t := by
  simp [ofType, blurred]

@[simp] theorem blurred_ofClass (name rid : String) : (ofClass name rid).blurred b = ofClass name rid := by
  simp [ofClass, blurred]

@[simp] theorem blurred_any : any.blurred b = any := blurred_ofType _

@[simp] theorem blurred_nul : nul.blurred b = nul := blurred_ofType _

@[simp] theorem name_blurred (t : Tag) : (t.blurred b).name = t.name := by cases t <;> rfl

@[simp] theorem rid_blurred (t : Tag) : (t.blurred b).rid = t.rid := by cases t <;> rfl

@[simp] theorem groups_blurred (t : Tag) : (t.blurred b).groups = t.groups.map (List.map (blurred b)) := by
  cases t <;> simp [groups, blurred]

@[simp] theorem kind?_blurred (t : Tag) : (t.blurred b).kind? = t.kind? := by cases t <;> rfl

@[simp] theorem isMissing_blurred (t : Tag) : (t.blurred b).isMissing = t.isMissing := by
  cases t <;> rfl

@[simp] theorem isClass_blurred (t : Tag) : (t.blurred b).isClass = t.isClass := by
  cases t with
  | missing => rfl
  | mk kind => cases kind <;> rfl

@[simp] theorem is_blurred (type : TypeName) (t : Tag) : (t.blurred b).is type = t.is type := by
  cases t with
  | missing => rfl
  | mk kind => cases kind <;> rfl

@[simp] theorem isAny_blurred (t : Tag) : (t.blurred b).isAny = t.isAny := by simp [isAny]

@[simp] theorem isFunction_blurred (t : Tag) : (t.blurred b).isFunction = t.isFunction := by
  simp [isFunction]

@[simp] theorem isNumeric_blurred (t : Tag) : (t.blurred b).isNumeric = t.isNumeric := by
  simp [isNumeric]

@[simp] theorem params_blurred (t : Tag) : (t.blurred b).params = t.params.map (blurred b) := by
  unfold params
  rw [groups_blurred]
  cases t.groups <;> rfl

@[simp] theorem result_blurred (t : Tag) : (t.blurred b).result = t.result.blurred b := by
  unfold result
  rw [groups_blurred]
  match t.groups with
  | [] | [_] | _ :: [] :: _ => simp
  | _ :: (_ :: _) :: _ => simp

@[simp] theorem signature_blurred (params : List Tag) (result : Tag) :
    signature (params.map (blurred b)) (result.blurred b) = (signature params result).blurred b := by
  simp only [signature, isMissing_blurred, name_blurred, isClass_blurred, blurred, blurredGroups_eq,
    List.map_cons, List.map_nil, Blur.origin]
  split <;> split <;> simp

mutual
@[simp] theorem text_blurred : ∀ t : Tag, (t.blurred b).text = t.text
  | missing => rfl
  | mk kind name rid groups pos => by rw [blurred, text, text, groupTexts_blurred groups]

theorem groupTexts_blurred : ∀ gs : List (List Tag), groupTexts (blurredGroups b gs) = groupTexts gs
  | [] => rfl
  | g :: gs => by
    rw [blurredGroups, groupTexts, groupTexts, texts_blurred g, groupTexts_blurred gs]

theorem texts_blurred : ∀ ts : List Tag, texts (blurredAll b ts) = texts ts
  | [] => rfl
  | t :: ts => by rw [blurredAll, texts, texts, text_blurred t, texts_blurred ts]
end

mutual
@[simp] theorem same_blurred : ∀ t t' : Tag, (t.blurred b).same (t'.blurred b) = t.same t'
  | missing, missing | missing, mk .. | mk .., missing => rfl
  | mk _ _ _ gs _, mk _ _ _ gs' _ => by
    rw [blurred, blurred, same, same, sameGroups_blurred gs gs']

theorem sameGroups_blurred : ∀ gs gs' : List (List Tag),
    sameGroups (blurredGroups b gs) (blurredGroups b gs') = sameGroups gs gs'
  | [], [] | [], _ :: _ | _ :: _, [] => rfl
  | g :: gs, g' :: gs' => by
    rw [blurredGroups, blurredGroups, sameGroups, sameGroups, sameAll_blurred g g', sameGroups_blurred gs gs']

theorem sameAll_blurred : ∀ ts ts' : List Tag, sameAll (blurredAll b ts) (blurredAll b ts') = sameAll ts ts'
  | [], [] | [], _ :: _ | _ :: _, [] => rfl
  | t :: ts, t' :: ts' => by
    rw [blurredAll, blurredAll, sameAll, sameAll, same_blurred t t', sameAll_blurred ts ts']
end

@[simp] theorem meets_blurred (t t' : Tag) : (t.blurred b).meets (t'.blurred b) = t.meets t' := by
  simp [meets]

end Tag

/-! ## Symbols -/

/-- A variable out of focus. -/
def VariableInfo.blurred (b : Blur) (v : VariableInfo) : VariableInfo :=
  { v with
    type := v.type.blurred b
    value := v.value.blurred b
    init := v.init.map (Node.moved b.place) }

/-- A parameter out of focus. -/
def Parameter.blurred (b : Blur) (p : Parameter) : Parameter :=
  { p with
    pos := b.place p.pos
    type := p.type.blurred b
    default := p.default.map (Node.moved b.place) }

/-- A function out of focus. -/
def FunctionInfo.blurred (b : Blur) (f : FunctionInfo) : FunctionInfo :=
  { f with params := f.params.map (Parameter.blurred b), result := f.result.blurred b }

/-- What a symbol is, out of focus. -/
def SymbolDetail.blurred (b : Blur) : SymbolDetail → SymbolDetail
  | .var v => .var (v.blurred b)
  | .parameter v kind => .parameter (v.blurred b) kind
  | .function f => .function (f.blurred b)
  | .cls c => .cls c
  | .target => .target

/-- A symbol out of focus. -/
def Symbol.blurred (b : Blur) (s : Symbol) : Symbol :=
  { s with pos := b.place s.pos, detail := s.detail.blurred b }

@[simp] theorem VariableInfo.blurred_default : ({} : VariableInfo).blurred b = {} := by
  simp [blurred]

@[simp] theorem FunctionInfo.blurred_default : ({} : FunctionInfo).blurred b = {} := by
  simp [blurred]

@[simp] theorem FunctionInfo.params_blurred (f : FunctionInfo) :
    (f.blurred b).params = f.params.map (Parameter.blurred b) := rfl

@[simp] theorem FunctionInfo.result_blurred (f : FunctionInfo) : (f.blurred b).result = f.result.blurred b := rfl

@[simp] theorem FunctionInfo.signature_blurred (f : FunctionInfo) :
    (f.blurred b).signature = f.signature.blurred b := by
  have hmap : (f.params.map (Parameter.blurred b)).map (·.type) =
      (f.params.map (·.type)).map (Tag.blurred b) := by simp [Function.comp_def, Parameter.blurred]
  rw [signature, signature, ← Tag.signature_blurred, ← hmap]
  rfl

@[simp] theorem FunctionInfo.returnsValue_blurred (f : FunctionInfo) :
    (f.blurred b).returnsValue = f.returnsValue := by
  simp [returnsValue, blurred]

@[simp] theorem FunctionInfo.isMethod_blurred (f : FunctionInfo) : (f.blurred b).isMethod = f.isMethod := rfl

@[simp] theorem FunctionInfo.isBuiltin_blurred (f : FunctionInfo) : (f.blurred b).isBuiltin = f.isBuiltin := rfl

namespace Symbol

@[simp] theorem blurred_default : (default : Symbol).blurred b = default := by
  change ({ name := "", rid := "", pos := b.place {}, level := 0
            detail := .var (VariableInfo.blurred b {}) } : Symbol) = default
  rw [b.origin, VariableInfo.blurred_default]
  rfl

@[simp] theorem name_blurred (s : Symbol) : (s.blurred b).name = s.name := rfl

@[simp] theorem rid_blurred (s : Symbol) : (s.blurred b).rid = s.rid := rfl

@[simp] theorem level_blurred (s : Symbol) : (s.blurred b).level = s.level := rfl

@[simp] theorem detail_blurred (s : Symbol) : (s.blurred b).detail = s.detail.blurred b := rfl

@[simp] theorem var?_blurred (s : Symbol) : (s.blurred b).var? = s.var?.map (·.blurred b) := by
  unfold var?
  rw [detail_blurred]
  cases s.detail <;> rfl

@[simp] theorem function?_blurred (s : Symbol) : (s.blurred b).function? = s.function?.map (·.blurred b) := by
  unfold function?
  rw [detail_blurred]
  cases s.detail <;> rfl

@[simp] theorem class?_blurred (s : Symbol) : (s.blurred b).class? = s.class? := by
  unfold class?
  rw [detail_blurred]
  cases s.detail <;> rfl

@[simp] theorem permission_blurred (s : Symbol) : (s.blurred b).permission = s.permission := by
  unfold permission
  rw [detail_blurred]
  cases s.detail <;> rfl

theorem getD_var?_blurred (s : Symbol) : (s.blurred b).var?.getD {} = (s.var?.getD {}).blurred b := by
  rw [var?_blurred]
  cases s.var? <;> simp

theorem getD_function?_blurred (s : Symbol) :
    (s.blurred b).function?.getD {} = (s.function?.getD {}).blurred b := by
  rw [function?_blurred]
  cases s.function? <;> simp

theorem mapClass_blurred (f : ClassInfo → ClassInfo) (s : Symbol) :
    (s.mapClass f).blurred b = (s.blurred b).mapClass f := by
  unfold mapClass
  rw [detail_blurred]
  cases h : s.detail <;> simp [blurred, SymbolDetail.blurred, h]

theorem mapVariable_blurred {f g : VariableInfo → VariableInfo}
    (h : ∀ v, (f v).blurred b = g (v.blurred b)) (s : Symbol) :
    (s.mapVariable f).blurred b = (s.blurred b).mapVariable g := by
  unfold mapVariable
  rw [detail_blurred]
  cases hd : s.detail <;> simp [blurred, SymbolDetail.blurred, hd, h]

theorem mapFunction_blurred {f g : FunctionInfo → FunctionInfo}
    (h : ∀ v, (f v).blurred b = g (v.blurred b)) (s : Symbol) :
    (s.mapFunction f).blurred b = (s.blurred b).mapFunction g := by
  unfold mapFunction
  rw [detail_blurred]
  cases hd : s.detail <;> simp [blurred, SymbolDetail.blurred, hd, h]

end Symbol

/-! ## Symbol tables -/

namespace SymbolTable

/-- A symbol table out of focus. -/
def blurred (b : Blur) (t : SymbolTable) : SymbolTable :=
  { t with symbols := t.symbols.map (Symbol.blurred b) }

section
variable (t : SymbolTable)

@[simp] theorem get_blurred (id : SymbolId) : (t.blurred b).get id = (t.get id).blurred b := by
  unfold get blurred
  by_cases h : id < t.symbols.size
  · simp [Array.getD, h]
  · simp [Array.getD, h]

@[simp] theorem level_blurred : (t.blurred b).level = t.level := rfl

@[simp] theorem functionLevel_blurred : (t.blurred b).functionLevel = t.functionLevel := rfl

@[simp] theorem find?_blurred (name : String) (ceiling : Option Int) :
    (t.blurred b).find? name ceiling = t.find? name ceiling := rfl

@[simp] theorem contains_blurred (name : String) : (t.blurred b).contains name = t.contains name := rfl

@[simp] theorem findInFunction?_blurred (name : String) :
    (t.blurred b).findInFunction? name = t.findInFunction? name := rfl

@[simp] theorem type?_blurred (rid : String) : (t.blurred b).type? rid = t.type? rid := rfl

theorem add_blurred (s : Symbol) : (t.blurred b).add (s.blurred b) = ((t.add s).1, (t.add s).2.blurred b) := by
  simp [add, blurred]

theorem modify_blurred {f g : Symbol → Symbol} (h : ∀ s, (f s).blurred b = g (s.blurred b))
    (t : SymbolTable) (id : SymbolId) : (t.modify id f).blurred b = (t.blurred b).modify id g := by
  unfold modify blurred
  congr 1
  apply Array.ext
  · simp
  · intro i hi hi'
    simp only [Array.getElem_map, Array.getElem_modify]
    split <;> simp [h]

theorem modify_mapClass_blurred (f : ClassInfo → ClassInfo) (t : SymbolTable) (id : SymbolId) :
    (t.modify id (Symbol.mapClass f)).blurred b = (t.blurred b).modify id (Symbol.mapClass f) :=
  modify_blurred (Symbol.mapClass_blurred f) t id

theorem mapScope_blurred (level : Nat) (f : Scope → Scope) :
    (t.mapScope level f).blurred b = (t.blurred b).mapScope level f := by
  unfold mapScope
  split <;> rfl

theorem exitMany_blurred (n : Nat) (t : SymbolTable) : (exitMany n t).blurred b = exitMany n (t.blurred b) := by
  induction n generalizing t with
  | zero => rfl
  | succ n ih =>
    rw [exitMany, exitMany, ih]
    congr 1
    unfold exit
    rw [show (t.blurred b).inner = t.inner from rfl]
    cases t.inner <;> rfl

theorem closeScope_blurred (g : Guard) : ((t.blurred b).closeScope g).2 = (t.closeScope g).2.blurred b := by
  unfold closeScope
  split
  · rfl
  · exact (exitMany_blurred _ t).symm

theorem insertAt_blurred (level : Nat) (id : SymbolId) :
    ((t.blurred b).insertAt level id).toOption = (t.insertAt level id).toOption.map (blurred b) := by
  unfold insertAt
  dsimp only
  rw [get_blurred, Symbol.name_blurred, Symbol.rid_blurred]
  rw [show (t.blurred b).scopeAt level = t.scopeAt level from rfl]
  cases if (t.get id).name == discardName then none
    else (t.scopeAt level).names.lookup (t.get id).name with
  | some old => rfl
  | none =>
    change some _ = some _
    rw [mapScope_blurred, modify_blurred (g := fun s => { s with level }) fun _ => rfl]

theorem registerType_blurred (id : SymbolId) : (t.registerType id).blurred b = (t.blurred b).registerType id := by
  unfold registerType
  rw [get_blurred, Symbol.rid_blurred]
  dsimp only [level_blurred]
  rw [← mapScope_blurred]
  rfl

theorem lookup_blurred (name : String) (pos pos' : Position) :
    ((t.blurred b).lookup name pos').toOption = (t.lookup name pos).toOption := by
  unfold lookup
  rw [find?_blurred]
  cases t.find? name with
  | none => rfl
  | some id =>
    simp only [get_blurred, Symbol.var?_blurred, Option.isSome_map, Symbol.level_blurred, functionLevel_blurred]
    split <;> rfl

theorem classOf_blurred (type : Tag) (pos pos' : Position) :
    ((t.blurred b).classOf (type.blurred b) pos').toOption = (t.classOf type pos).toOption := by
  unfold classOf
  rw [Tag.isClass_blurred, Tag.rid_blurred, type?_blurred]
  split
  · rfl
  · cases t.type? type.rid <;> rfl

/-! ### Hierarchies -/

@[simp] theorem classInfo_blurred (id : SymbolId) : (t.blurred b).classInfo id = t.classInfo id := by
  simp [classInfo]

@[simp] theorem chain_blurred (id : Option SymbolId) : (t.blurred b).chain id = t.chain id := by
  have hchain : ∀ n id, (t.blurred b).chainOf n id = t.chainOf n id := by
    intro n
    induction n with
    | zero => intro id; rfl
    | succ n ih =>
      intro id
      cases id with
      | none => rfl
      | some id => rw [chainOf, chainOf, classInfo_blurred, ih]
  unfold chain
  rw [hchain]
  simp [blurred]

@[simp] theorem ancestors_blurred (id : SymbolId) : (t.blurred b).ancestors id = t.ancestors id := by
  simp [ancestors]

theorem setBase_blurred (id : SymbolId) (base : Option SymbolId) (pos pos' : Position) :
    ((t.blurred b).setBase id base pos').toOption = (t.setBase id base pos).toOption.map (blurred b) := by
  have hfold : ∀ (above : List SymbolId) (t : SymbolTable),
      (above.foldl (fun t b => t.modify b (Symbol.mapClass fun c =>
        { c with derived := c.derived ++ [id] })) t).blurred b =
      above.foldl (fun t b => t.modify b (Symbol.mapClass fun c =>
        { c with derived := c.derived ++ [id] })) (t.blurred b) := by
    intro above
    induction above with
    | nil => intro t; rfl
    | cons a above ih => intro t; rw [List.foldl_cons, ih, modify_mapClass_blurred, List.foldl_cons]
  unfold setBase
  dsimp only
  rw [chain_blurred]
  split
  · rfl
  · change some _ = some _
    rw [hfold, modify_mapClass_blurred]

@[simp] theorem ownMember?_blurred (cls : SymbolId) (name : String) :
    (t.blurred b).ownMember? cls name = t.ownMember? cls name := by
  simp [ownMember?]

theorem addMember_blurred (cls member : SymbolId) (static : Bool) :
    ((t.blurred b).addMember cls member static).toOption =
      (t.addMember cls member static).toOption.map (blurred b) := by
  unfold addMember
  dsimp only
  rw [get_blurred, Symbol.name_blurred, ownMember?_blurred]
  cases t.ownMember? cls (t.get member).name with
  | some old => rfl
  | none =>
    change some _ = some _
    rw [modify_mapClass_blurred]

@[simp] theorem isStaticMember_blurred (cls member : SymbolId) :
    (t.blurred b).isStaticMember cls member = t.isStaticMember cls member := by
  simp [isStaticMember]

@[simp] theorem member?_blurred (cls : SymbolId) (name : String) :
    (t.blurred b).member? cls name = t.member? cls name := by
  simp [member?]

theorem memberFor_blurred (cls : SymbolId) (name : String) (asserted : Permission) (pos pos' : Position) :
    ((t.blurred b).memberFor cls name asserted pos').toOption = (t.memberFor cls name asserted pos).toOption := by
  unfold memberFor
  rw [member?_blurred]
  cases t.member? cls name with
  | none => rfl
  | some id =>
    dsimp only
    rw [get_blurred, Symbol.permission_blurred]
    split <;> rfl

theorem isVar_blurred (s : Symbol) : ((s.blurred b).detail matches .var _) = (s.detail matches .var _) := by
  rw [Symbol.detail_blurred]
  cases s.detail <;> rfl

@[simp] theorem variablesIn_blurred (entries : List (String × SymbolId)) :
    (t.blurred b).variablesIn entries = t.variablesIn entries := by
  unfold variablesIn
  congr 1
  funext id
  rw [get_blurred]
  exact isVar_blurred (t.get id)

@[simp] theorem fields_blurred (cls : SymbolId) : (t.blurred b).fields cls = t.fields cls := by
  simp [fields]

@[simp] theorem staticFields_blurred (cls : SymbolId) : (t.blurred b).staticFields cls = t.staticFields cls := by
  simp [staticFields]

@[simp] theorem isAbove_blurred (x y : Option SymbolId) (strict : Bool) :
    (t.blurred b).isAbove x y strict = t.isAbove x y strict := by
  simp [isAbove]

@[simp] theorem assertedPermission_blurred (inside owner : Option SymbolId) :
    (t.blurred b).assertedPermission inside owner = t.assertedPermission inside owner := by
  simp [assertedPermission]

@[simp] theorem assignable_blurred (declared value : Tag) :
    (t.blurred b).assignable (declared.blurred b) (value.blurred b) = t.assignable declared value := by
  simp [assignable]

end

end SymbolTable

end Frontend
