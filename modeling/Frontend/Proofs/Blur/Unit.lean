import Frontend.Proofs.Blur.Definition

/-!
# Files out of focus

Out of focus an imported file is put at the places that a blur leaves, like the file that imports it. So
`Blur.visit` is lowering with that one difference, and what lowering does out of focus is what `Blur.visit`
does. It follows that two runs which cannot be told apart out of focus end alike.
-/

namespace Frontend

/-- A program at other places. -/
def Program.moved (move : Position → Position) (p : Program) : Program :=
  { p with body := p.body.map (Node.moved move) }

namespace Blur

/-- Lowers a node like `Lower.visit`, but puts imported files at the places that a blur leaves. -/
def visit (b : Blur) : (levels : Nat) → Visit
  | 0 => Lower.visit 0
  | levels + 1 => fun n =>
    match n with
    | .importFile _ path =>
      Lower.importFile (fun p _ => Lower.unit (b.visit levels) (p.moved b.place) []) path n
    | n => Lower.visitWith (b.visit levels) n

/-- Lowers a program like `Session.lower`, but with imported files at the places that a blur leaves. -/
def lower (b : Blur) (levels : Nat) (p : Program) : Lower Unit := do
  Lower.unit (b.visit levels) p []
  let t ← Lower.table
  Lower.refuse ((← Lower.ask (·.declared)).findSome? (Session.undefined? t))

end Blur

namespace Blurs

open Blur (Keeps)

variable {b : Blur} {visit visit' : Visit}

/-- A note is written where notes are dropped, or not at all. -/
theorem annotate (n : Node) : Blurs b id (Lower.annotate n) (Lower.annotate (n.moved b.place)) := by
  refine .change (fun s hs => ?_) fun s => ?_
  · have hquiet : (s.blurred b).out.annotate = false := by
      change (s.out.annotate && !b.dropsNotes) = false
      rcases hs.noted with h | h <;> simp [h]
    dsimp only
    rw [hquiet, if_neg Bool.false_ne_true]
    split
    next hnoted =>
      have hdrops : b.dropsNotes = true := by
        rcases hs.noted with h | h
        · exact h
        · rw [h] at hnoted
          cases hnoted
      simp only [CodeBuffer.note, if_pos hnoted, Lowering.blurred, Lowering.mk.injEq, true_and, and_true]
      change b.buffer s.out = b.buffer (s.out.append [.note _])
      rw [Blur.buffer_append, Blur.code, if_pos hdrops]
      rfl
    · rfl
  · dsimp only
    split
    next hnoted =>
      rw [CodeBuffer.note, if_pos hnoted]
      exact ⟨rfl, s.out.annotate_append [.note _]⟩
    · exact .refl s

theorem items (hv : ∀ n, Blurs b id (visit n) (visit' (n.moved b.place))) (ns : List Node) :
    Blurs b id (Lower.items visit ns) (Lower.items visit' (ns.map (Node.moved b.place))) :=
  .forAll fun n => (annotate n).bind fun _ => exec hv n

theorem block (hv : ∀ n, Blurs b id (visit n) (visit' (n.moved b.place))) (body : Block) :
    Blurs b id (Lower.block visit body) (Lower.block visit' (body.moved b.place)) := by
  unfold Lower.block
  rw [Block.items_moved]
  exact inScope (items hv body.items)

theorem showingLine {p q : Lower Unit} (h : Blurs b id p q) :
    Blurs b id (Lower.showingLine p) (Lower.showingLine q) where
  same s hs := by
    unfold Lower.outcome? Lower.showingLine
    obtain ⟨e, t, e', t', hrun, hrun'⟩ | ⟨a, t, hrun, hrun'⟩ := h.runs hs
    · rw [hrun, hrun']
      cases e <;> cases e' <;> rfl
    · rw [hrun, hrun']
      rfl
  keeps s hs := by
    have hkept := h.keeps s hs
    unfold Lower.showingLine
    rcases hrun : p s with ⟨e | a, t⟩ <;> rw [hrun] at hkept
    · cases e <;> exact hkept
    · exact hkept

theorem startFile (file : String) : Blurs b id (Lower.startFile file) (Lower.startFile file) where
  same s _ := by
    unfold Lower.outcome? Lower.startFile
    rw [show (s.blurred b).session.imports = s.session.imports from rfl,
      show (s.blurred b).files = s.files from rfl]
    by_cases h : file.isEmpty
    · rw [if_pos h, if_pos h]
      rfl
    · rw [if_neg h, if_neg h]
      cases s.session.imports.push s.files file <;> rfl
  keeps s _ := by
    unfold Lower.startFile
    split
    · exact .refl s
    · cases s.session.imports.push s.files file <;> exact ⟨rfl, rfl⟩

theorem unit (hv : ∀ n, Blurs b id (visit n) (visit' (n.moved b.place))) (p : Program) (src : Source) :
    Blurs b id (Lower.unit visit p src) (Lower.unit visit' (p.moved b.place) []) := by
  have hinner : Blurs b id
      (Lower.startFile p.file >>= fun _ => Lower.showingLine (Lower.items visit p.body))
      (Lower.startFile p.file >>= fun _ =>
        Lower.showingLine (Lower.items visit' (p.body.map (Node.moved b.place)))) :=
    (startFile p.file).bind fun _ => showingLine (items hv p.body)
  let leave := fun s u : Lowering => { u with
    file := s.file
    source := s.source
    session := { u.session with imports := u.session.imports.popTo s.session.imports.depth } }
  exact between (fun s => { s with file := p.file, source := src })
    (fun s => { s with file := p.file, source := [] }) leave leave (fun _ => rfl) (fun _ => rfl)
    hinner (fun _ => ⟨rfl, rfl⟩) (fun _ _ => ⟨rfl, rfl⟩) (fun _ => rfl) fun _ _ => rfl

theorem importFile {enter enter' : Program → Source → Lower Unit}
    (h : ∀ p src, Blurs b id (enter p src) (enter' p src)) (path : Token) (n : Node) :
    Blurs b id (Lower.importFile enter path n)
      (Lower.importFile enter' (path.moved b.place) (n.moved b.place)) := by
  unfold Lower.importFile
  dsimp only
  rw [Token.literal_moved]
  refine .bind table fun t => guarded ?_ Iff.rfl
  refine .bind (.ask (f := id) fun _ => rfl) fun imports => ?_
  refine .bind (.ask (f := id) fun _ => rfl) fun files => ?_
  refine .bind (.ask (f := id) fun _ => rfl) fun file => ?_
  simp only [id]
  cases imports.resolve files path.literal file with
  | error e => exact .fail _ _
  | ok resolved =>
    refine .ite (.fail _ _) (.ite (.pure (by simp)) ?_ (by simp)) (by simp)
    cases Imports.load files resolved with
    | error e => exact .fail _ _
    | ok text =>
      dsimp only
      cases Program.ofSource (Source.ofString text) resolved with
      | error e => exact .failWith _ _
      | ok p => exact h p _

theorem literal (n : Node) : Blurs b id (match Operand.ofLiteral? n with
      | some o => Lower.push o
      | none => Lower.fail (Complaint.unsupported n))
    (match Operand.ofLiteral? (n.moved b.place) with
      | some o => Lower.push o
      | none => Lower.fail (Complaint.unsupported (n.moved b.place))) := by
  rw [Operand.ofLiteral?_moved]
  cases Operand.ofLiteral? n with
  | some o => exact push (by simp)
  | none => exact .fail _ _

theorem visitWith (hv : ∀ n, Blurs b id (visit n) (visit' (n.moved b.place))) (n : Node)
    (hn : ∀ token path, n ≠ .importFile token path) :
    Blurs b id (Lower.visitWith visit n) (Lower.visitWith visit' (n.moved b.place)) := by
  cases n with
  | int token value => exact literal (.int token value)
  | float token value => exact literal (.float token value)
  | str token => exact literal (.str token)
  | bool token value => exact literal (.bool token value)
  | null token => exact literal (.null token)
  | ident name => exact ident name _
  | this token => exact thisObject _ _
  | unary op operand => exact unary hv op operand (.unary op operand)
  | binary left op right =>
    refine .bind (eval hv left) fun l => .bind (eval hv right) fun r => ?_
    exact .bind (binary op op.literal l r (.binary left op right)) fun _ => push (by simp)
  | increment operand op => exact increment hv operand op (.increment operand op)
  | assign target op value => exact assign hv target op value (.assign target op value)
  | parallel ns =>
    rw [Node.moved, Node.movedAll_eq]
    exact .forAll (exec hv)
  | group opener closer bracket inner =>
    have h := group hv inner (.group opener closer bracket inner)
    rwa [← Node.moved?_eq] at h
  | block body => exact block hv body
  | list opener elements =>
    have h := list hv elements (.list opener elements)
    rwa [← Node.movedAll_eq] at h
  | dict opener pairs =>
    have h := dict hv pairs (.dict opener pairs)
    rwa [← Node.movedAll_eq] at h
  | call callee opener closer args =>
    have h := call hv callee args (.call callee opener closer args)
    rwa [← Node.movedAll_eq] at h
  | index left opener subscript => exact index hv left subscript (.index left opener subscript)
  | member object dot name => exact member hv object name (.member object dot name)
  | varDef token names values =>
    rw [Node.moved, Node.movedEach?_eq]
    exact defineVariables hv names values
  | funDecl token name params labels =>
    rw [Node.moved, Param.movedAll_eq]
    exact declareFunction name params labels
  | funDef token name params labels body arrow =>
    rw [Node.moved, Param.movedAll_eq]
    exact defineFunction (items hv) name params labels body
  | lambda token params labels body =>
    rw [Node.moved, Param.movedAll_eq]
    exact lambda (items hv) token params labels body
  | classDecl token name => exact declareClass name
  | classDef token name body => exact defineClass hv (items hv) name body
  | branch tests otherwise =>
    rw [Node.moved, Condition.movedAll_eq, Block.moved?_eq]
    exact branch hv tests otherwise
  | whileLoop token test body => exact loop hv token.pos none test none body
  | forLoop token init test update body =>
    exact loop hv token.pos (some init) test (some update) body
  | pass token => exact .pure (by simp)
  | breakOut token => exact breakOut _ _
  | continueOn token => exact continueOn _ _
  | returnFrom token value =>
    rw [Node.moved, Node.moved?_eq]
    exact returnFrom hv token value
  | importFile token path => exact absurd rfl (hn token path)
  | pair | arrow | argument | constructor => exact .fail _ _

/-- What lowering a node does out of focus. -/
theorem visit_moved (levels : Nat) (n : Node) :
    Blurs b id (Lower.visit levels n) (b.visit levels (n.moved b.place)) := by
  induction levels generalizing n with
  | zero => exact .fail _ _
  | succ levels ih =>
    cases n with
    | importFile token path => exact importFile (fun p src => unit ih p src) path _
    | _ => exact visitWith ih _ (by rintro _ _ ⟨⟩)

theorem undefined?_blurred (t : SymbolTable) (i : SymbolId) :
    (Session.undefined? (t.blurred b) i).isSome = (Session.undefined? t i).isSome := by
  have isSome_ite : ∀ (c : Bool) (d d' : Diagnostic),
      (if c then some d else none).isSome = (if c then some d' else none).isSome := by
    rintro (_ | _) _ _ <;> rfl
  unfold Session.undefined?
  rw [SymbolTable.get_blurred]
  dsimp only
  rw [Symbol.detail_blurred]
  cases (t.get i).detail <;> exact isSome_ite _ _ _

/-- What lowering a program does out of focus. -/
theorem lower_moved (levels : Nat) (p : Program) (src : Source) :
    Blurs b id (Session.lower levels p src) (b.lower levels (p.moved b.place)) := by
  refine .bind (unit (visit_moved levels) p src) fun _ => .bind table fun t => ?_
  refine .bind (.ask (f := id) fun _ => rfl) fun declared => .refuse ?_
  have hsome := isSome_findSome?_map (undefined?_blurred (b := b) t) declared
  rwa [List.map_id'] at hsome

end Blurs

/-! ## Two runs -/

/-- Two programs that cannot be told apart out of focus are compiled alike: both are accepted, with the
same code out of focus, or none of them is. -/
theorem Session.compile_alike {b : Blur} {s : Session} (hspares : b.Spares s.builtins)
    (files : FileTree) {annotate annotate' : Bool}
    (hnotes : b.dropsNotes = true ∨ annotate = false ∧ annotate' = false) {p p' : Program}
    (hp : p.moved b.place = p'.moved b.place) (src src' : Source) :
    (s.compile files annotate p src).1.toOption.map b.code =
      (s.compile files annotate' p' src').1.toOption.map b.code := by
  -- both runs are compared with the one run that is left of them out of focus
  have hrun : ∀ (annotate : Bool) (p : Program) (src : Source),
      (b.dropsNotes = true ∨ annotate = false) →
      (s.compile files annotate p src).1.toOption.map b.code =
        (Lower.outcome? (b.lower levels (p.moved b.place)) (Lowering.blurred b
          { session := s.enterBuiltins, files, out := {} })).map fun r => r.2.out.code := by
    intro annotate p src hquiet
    let start : Lowering := { session := s.enterBuiltins, files, out := { annotate } }
    have hstart : Lowering.blurred b { session := s.enterBuiltins, files, out := {} } =
        start.blurred b := by
      have hannotate : (annotate && !b.dropsNotes) = false := by
        rcases hquiet with h | h <;> simp [h]
      simp [start, Lowering.blurred, Blur.buffer, hannotate]
    have hsame := (Blurs.lower_moved (b := b) levels p src).same start ⟨hspares, hquiet⟩
    rw [hstart, hsame]
    unfold Session.compile Lower.outcome?
    dsimp only
    rcases Session.lower levels p src start with ⟨e | u, final⟩
    · rfl
    · change some (b.code final.out.code) = some (b.buffer final.out).code
      rw [CodeBuffer.code, CodeBuffer.code, Blur.code_reverse]
      rfl
  rw [hrun annotate p src (hnotes.imp_right And.left), hp, hrun annotate' p' src' (hnotes.imp_right And.right)]

end Frontend
