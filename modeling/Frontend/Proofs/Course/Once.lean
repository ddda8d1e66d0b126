import Frontend.Proofs.Course.Rest
import Frontend.Proofs.Emission.Calls
import Mathlib.Data.List.Nodup

/-!
# Words are brought in once

Every word that the supply gives out is new, and code brings a word in at most once: beside what was brought
in already stand the words that declarations hold and the words that are due, and none of them stands twice.
-/

namespace Frontend

open Course SymbolTable

/-- Generators make instructions that bring nothing in. -/
def Registry.Quiet (r : Registry) : Prop :=
  ∀ e ∈ r.entries, ∀ call supply emission, (e.generate call supply).1 = .ok emission →
    ∃ is, emission = .instructions is ∧ ∀ i ∈ is, i.introduces = []

/-- Every word that is held, due or in the log is there once, and it was given out. -/
structure Tidy (log due : List String) (s : Lowering) : Prop where
  quiet : s.session.builtins.Quiet
  nodup : (s.held ++ (due ++ log)).Nodup
  gave : ∀ w ∈ s.held ++ (due ++ log), s.supply.Gave w

variable {home : Option Home} {k : Bool} {ws ws' log due due' : List String} {s s' : Lowering}
variable {w : String} {op : Opcode}
variable {args : List String} {v : VariableInfo} {t : SymbolTable}

theorem nodup_of_subperm {few more : List String} (h : few.Subperm more) (hmore : more.Nodup) : few.Nodup := by
  obtain ⟨l, hperm, hsub⟩ := h
  exact hperm.nodup_iff.mp (hmore.sublist hsub)

/-- Fewer words are held or due. -/
theorem Tidy.mono (h : Tidy log due s) (hquiet : s'.session.builtins = s.session.builtins)
    (hsupply : s.supply.Before s'.supply) (hsub : (s'.held ++ due').Subperm (s.held ++ due)) : Tidy log due' s' := by
  have hall : (s'.held ++ (due' ++ log)).Subperm (s.held ++ (due ++ log)) := by
    rw [← List.append_assoc, ← List.append_assoc]
    exact (List.subperm_append_right log).mpr hsub
  exact ⟨hquiet ▸ h.quiet, nodup_of_subperm hall h.nodup, fun w hw => (h.gave w (hall.subset hw)).mono hsupply⟩

/-- A word is held or due that was given out just now. -/
theorem Tidy.take (h : Tidy log due s) (hnew : ¬ s.supply.Gave w) (hgave : s'.supply.Gave w)
    (hquiet : s'.session.builtins = s.session.builtins) (hsupply : s.supply.Before s'.supply)
    (hsub : (s'.held ++ due').Subperm (w :: (s.held ++ due))) : Tidy log due' s' := by
  have hall : (s'.held ++ (due' ++ log)).Subperm (w :: (s.held ++ (due ++ log))) := by
    rw [← List.append_assoc, ← List.append_assoc, ← List.cons_append]
    exact (List.subperm_append_right log).mpr hsub
  refine ⟨hquiet ▸ h.quiet, nodup_of_subperm hall (List.nodup_cons.mpr ⟨fun hw => hnew (h.gave w hw), h.nodup⟩), fun x hx => ?_⟩
  rcases List.mem_cons.mp (hall.subset hx) with rfl | hx
  · exact hgave
  · exact (h.gave x hx).mono hsupply

/-- A numbered word is held or due. -/
theorem Tidy.number (h : Tidy log due s) (base : String) (hw : w = Word.numbered base s.supply.rids)
    (hquiet : s'.session.builtins = s.session.builtins)
    (hsupply : s'.supply = { s.supply with rids := s.supply.rids + 1 })
    (hsub : (s'.held ++ due').Subperm (w :: (s.held ++ due))) : Tidy log due' s' := by
  have hnumbered : Word.IsNumbered w s.supply.rids := hw ▸ Word.isNumbered_numbered base _
  refine h.take (Supply.not_gave_numbered hnumbered (le_refl _)) ?_ hquiet ?_ hsub
  · exact hsupply ▸ .inl ⟨_, Nat.lt_succ_self _, hnumbered⟩
  · exact hsupply ▸ ⟨Nat.le_succ _, le_refl _, le_refl _⟩

namespace Course

/-! ## What a step brings in -/

theorem introduced_of_isQuiet (h : isQuiet op = true) : introduced [.instr ⟨op, args⟩] = [] := by
  cases op <;> first | rfl | cases h

theorem introduces_of_opensFunction (h : op = .func ∨ op = .funi) : Instruction.introduces ⟨op, args⟩ = args := by
  rcases h with rfl | rfl <;> rfl

theorem introduced_emission {e : Builtin} {call : BuiltinCall} {supply : Supply} {emission : Emission} {r : Registry}
    (hquiet : r.Quiet) (he : e ∈ r.entries) (h : (e.generate call supply).1 = .ok emission) :
    introduced emission.items = [] := by
  obtain ⟨is, rfl, his⟩ := hquiet e he call supply emission h
  rw [introduced, Emission.items, List.flatMap_map, List.flatMap_eq_nil_iff]
  exact his

/-- The first value of a variable brings nothing in. -/
theorem introduced_initial {code : Code} (h : v.const = false ∧ code = [] ∨ Initial w code) : introduced code = [] := by
  rcases h with ⟨-, rfl⟩ | ⟨op, raw, rfl | rfl, -, rfl⟩ <;> rfl

/-- Code is appended. -/
theorem held_append (s : Lowering) (code : Code) :
    ((s.withOut (s.out.append code)).held).Perm (introduced code ++ s.held) := by
  unfold Lowering.held
  rw [← List.append_assoc, ← introduced_append]
  exact (introduced_perm (CodeBuffer.items_append s.out code)).append_right _

/-- A symbol is made. -/
theorem held_made (s : Lowering) (sym : Symbol) : (s.made sym).held = s.held ++ sym.open?.toList := by
  unfold Lowering.held
  rw [show (s.made sym).table.openRids = s.table.openRids ++ sym.open?.toList from openRids_add _ _,
    ← List.append_assoc]
  rfl

theorem held_made_var {sym : Symbol} (s : Lowering) (hsym : sym.detail = .var v) : (s.made sym).held = s.held := by
  have hopen : sym.open? = none := by rw [Symbol.open?, Symbol.isOpen, hsym]; rfl
  rw [held_made, hopen, Option.toList_none, List.append_nil]

theorem held_withTable (s : Lowering) (h : t.openRids = s.table.openRids) : (s.withTable t).held = s.held := by
  unfold Lowering.held
  rw [show (s.withTable t).table.openRids = t.openRids from rfl, h]
  rfl

/-- An entry in a scope leaves the open symbols open. -/
theorem openRids_insertAt {t' : SymbolTable} {level : Nat} {id : SymbolId} (h : t.insertAt level id = .ok t') :
    t'.openRids = t.openRids := by
  rw [openRids_of_symbols (symbols_insertAt h)]
  exact openRids_modify rfl

/-- Leaving a function leaves the words alone. -/
theorem held_behind (s u : Lowering) : (s.behind u).held = u.held := by
  unfold Lowering.held
  rw [show (s.behind u).table.openRids = u.table.openRids from openRids_of_symbols (symbols_leaveTo _ _)]
  rfl

/-- A function is written behind its body. -/
theorem held_function {head : List String} {code : Code} {u v : Lowering} {out : CodeBuffer}
    (hop : op = .func ∨ op = .funi) (hdepth : v.out.depth = u.out.depth + 1)
    (hleave : v.out.leave? u.out.depth = some (code, out)) :
    ((v.withOut (((out.emit op head).append code).emit .finish [])).held).Perm (head ++ v.held) := by
  obtain ⟨code', out', heq, -, hitems⟩ := CodeBuffer.leave?_eq hdepth
  rw [hleave] at heq
  cases heq
  have hwritten : (((out.emit op head).append code).emit .finish []).items.Perm
      (.instr ⟨.finish, []⟩ :: (code ++ CodeItem.instr ⟨op, head⟩ :: out.items)) :=
    (CodeBuffer.items_append _ [_]).trans (List.Perm.cons _ ((CodeBuffer.items_append _ code).trans
      (List.Perm.append_left _ (CodeBuffer.items_append out [_]))))
  have hintroduced : (introduced (((out.emit op head).append code).emit .finish []).items).Perm
      (head ++ introduced v.out.items) := by
    refine (introduced_perm (hwritten.trans (List.Perm.cons _ List.perm_middle))).trans ?_
    refine List.Perm.trans (.of_eq ?_) (List.Perm.append_left head (introduced_perm hitems).symm)
    rw [introduced, List.flatMap_cons, List.flatMap_cons]
    change [] ++ (Instruction.introduces ⟨op, head⟩ ++ introduced (code ++ out.items)) = _
    rw [introduces_of_opensFunction hop]
    rfl
  unfold Lowering.held
  rw [← List.append_assoc]
  exact hintroduced.append_right _

end Course

/-- Code is written that brings nothing in. -/
theorem Tidy.write (h : Tidy log due s) (code : Code) (hcode : introduced code = []) :
    Tidy log due (s.withOut (s.out.append code)) := by
  refine h.mono rfl (.refl _) (List.Perm.subperm (((held_append s code).append_right due).trans (.of_eq ?_)))
  rw [hcode, List.nil_append]

/-- Whatever a course does, words stay tidy. -/
theorem Course.tidy (h : Course home k ws s ws' s') (ht : Tidy log ws s) : Tidy log ws' s' := by
  induction h with
  | refl => exact ht
  | trans _ _ ih₁ ih₂ => exact ih₂ (ih₁ ht)
  | stop _ ih => exact (ih ht).mono rfl (.refl _) ((List.subperm_append_left _).mpr List.nil_subperm)
  | @after _ _ _ _ _ u v _ aside ih =>
    refine (ih ht).mono aside.builtins (aside.supply ▸ .refl _) (List.Perm.subperm (.of_eq ?_))
    rw [Lowering.held, Lowering.held, aside.out, aside.table]
  | forget h => exact ht.mono rfl (.refl _) ((List.subperm_append_left _).mpr h)
  | push => exact ht.mono rfl (.refl _) (.refl _)
  | @note _ _ s text =>
    unfold CodeBuffer.note
    split
    · exact ht.write [.note text] rfl
    · exact ht
  | temps n h => exact ht.mono rfl ⟨le_refl _, h, le_refl _⟩ (.refl _)
  | @label _ ws s =>
    exact ht.take Supply.not_gave_label (.inr (.inr ⟨_, Nat.lt_succ_self _, rfl⟩)) rfl
      ⟨le_refl _, le_refl _, Nat.le_succ _⟩ (List.perm_middle.subperm)
  | @number _ ws s base =>
    exact ht.number base rfl rfl rfl List.perm_middle.subperm
  | @change _ ws s ws' t h =>
    refine ht.mono rfl (.refl _) (List.Perm.subperm ?_)
    unfold Lowering.held
    rw [List.append_assoc, List.append_assoc]
    exact List.Perm.append_left _ h.openRids
  | @fresh _ ws s base v sym hrid hsym =>
    refine ht.number base hrid rfl rfl ?_
    rw [held_made_var s hsym]
    exact List.perm_middle.subperm
  | @define _ ws s base v level t code sym hrid hsym howner hlevel hins hcode =>
    refine ht.number base hrid rfl rfl (List.Perm.subperm ?_)
    refine ((held_append ((s.made sym).withTable t) _).append_right ws).trans (.of_eq ?_)
    rw [held_withTable _ (openRids_insertAt hins), held_made_var s hsym, introduced,
      List.flatMap_cons]
    change ([sym.rid] ++ introduced code ++ s.held) ++ ws = _
    rw [introduced_initial hcode]
    rfl
  | @newClass _ ws s ws' base c t sym hrid hsym hnew hins hws =>
    refine ht.number base hrid rfl rfl (List.Perm.subperm ?_)
    have hopen : (t.registerType (s.table.add sym).1).openRids = (s.made sym).table.openRids := by
      rw [openRids_of_symbols (scopes_registerType _ _).2.2.1]
      exact openRids_insertAt hins
    rw [held_withTable _ hopen, held_made, List.append_assoc, ← hws]
    exact List.perm_middle
  | @stray _ ws s base sym hrid =>
    refine ht.number base hrid rfl rfl ?_
    rw [held_made, List.append_nil]
    unfold Symbol.open?
    split
    · exact (List.perm_append_singleton _ _).subperm.trans ((List.subperm_cons _).mpr (List.sublist_append_left _ _).subperm)
    · rw [Option.toList_none, List.append_nil]
      exact ((List.sublist_append_left _ _).cons _).subperm
  | @write _ ws s op args hop => exact ht.write _ (introduced_of_isQuiet hop)
  | @bring _ ws s op args hop =>
    refine ht.mono rfl (.refl _) (List.Perm.subperm (((held_append s [.instr ⟨op, args⟩]).append_right ws).trans ?_))
    change (Instruction.introduces ⟨op, args⟩ ++ [] ++ s.held ++ ws).Perm _
    rw [List.append_nil, List.append_assoc]
    exact List.perm_append_comm_assoc _ _ _
  | @generated _ ws s e call supply emission he h =>
    exact ht.write _ (introduced_emission ht.quiet he h)
  | initial _ _ _ _ _ _ ih =>
    exact (ih ht).write [.instr ⟨.setField, _⟩] rfl
  | @loop _ ws s ws' u labels _ ih =>
    have hu := ih (ht.write [.instr ⟨.untilLoop, labels⟩] rfl)
    exact hu.write [.instr ⟨.finish, []⟩] rfl
  | @endless _ ws s ws' u labels _ ih =>
    exact ih (ht.write [.instr ⟨.untilLoop, labels⟩] rfl)
  | @scope _ _ ws s ws' u kind _ ih =>
    refine (ih ⟨ht.quiet, ht.nodup, ht.gave⟩).mono rfl (.refl _) (List.Perm.subperm (.of_eq ?_))
    unfold Lowering.held
    rw [show (s.closed u).table.openRids = u.table.openRids from openRids_of_symbols (symbols_leaveTo _ _)]
    rfl
  | inside _ _ ih => exact (ih ⟨ht.quiet, ht.nodup, ht.gave⟩).mono rfl (.refl _) (.refl _)
  | @function _ s ws ws₁ ws₂ ws₃ u v id op params code out hop hfun enter hout body hleave hwords ih₁ ih₂ =>
    have hu := ih₁ ⟨ht.quiet, ht.nodup, ht.gave⟩
    have hv := ih₂ ⟨hu.quiet, hu.nodup, hu.gave⟩
    refine hv.mono rfl (.refl _) ?_
    have hheld := @held_function op ((v.table.get id).rid :: params) code _ v out hop body.steps.depth hleave
    rw [held_behind]
    refine (hheld.append_right ws₃).subperm.trans ?_
    rw [List.append_assoc]
    refine (List.perm_append_comm_assoc _ _ _).subperm.trans ((List.subperm_append_left _).mpr hwords)
  | @headless _ s ws ws' u id hfun _ ih =>
    refine (ih ⟨ht.quiet, ht.nodup, ht.gave⟩).mono rfl (.refl _) ?_
    rw [held_behind]
    exact (List.subperm_append_left _).mpr List.nil_subperm
  | @broken _ s ws ws₁ ws₂ u v id params code out hfun enter body hleave ih₁ ih₂ =>
    have hu := ih₁ ⟨ht.quiet, ht.nodup, ht.gave⟩
    refine (ih₂ ⟨hu.quiet, hu.nodup, hu.gave⟩).mono rfl (.refl _) ?_
    obtain ⟨code', out', heq, -, hitems⟩ := CodeBuffer.leave?_eq body.steps.depth
    cases hleave.symm.trans heq
    have hlost : (introduced out.items).Subperm (introduced v.out.items) := by
      refine List.Subperm.trans ?_ (introduced_perm hitems).symm.subperm
      rw [introduced_append]
      exact (List.sublist_append_right _ _).subperm
    rw [held_behind, List.append_nil]
    exact ((List.subperm_append_right _).mpr hlost).trans (List.sublist_append_left _ _).subperm
  | @file _ _ ws s ws' u path imports hstack _ ih =>
    exact (ih ⟨ht.quiet, ht.nodup, ht.gave⟩).mono rfl (.refl _) (.refl _)

/-! ## Sessions -/

/-- What happens to a session: a word is taken, or a unit is compiled. -/
inductive Session.Event where
  | grant (r : Supply.Request)
  | unit (files : FileTree) (annotate : Bool) (p : Program) (src : Source)

namespace Session

/-- The words that come out of a session: those that are taken, and those that the code of accepted units
brings in. -/
def words : Session → List Event → List String
  | _, [] => []
  | s, .grant r :: rest => (s.grant r).1 :: words (s.grant r).2 rest
  | s, .unit files annotate p src :: rest =>
    ((s.compile files annotate p src).1.toOption.map introduced).getD [] ++ words (s.compile files annotate p src).2 rest

end Session

/-- A request gives a word that was not given out before. -/
theorem Supply.not_gave_grant (s : Supply) (r : Supply.Request) : ¬ s.Gave (s.grant r).1 := by
  have numbered : ∀ base, ¬ s.Gave (Word.numbered base s.rids) := fun base =>
    Supply.not_gave_numbered (Word.isNumbered_numbered base _) (le_refl _)
  cases r with
  | rid name => exact numbered name
  | functionRid owner name =>
    obtain ⟨base, hbase, -⟩ := Supply.functionRid_eq s owner name
    rw [Supply.grant, hbase]
    exact numbered base
  | classRid name => exact numbered ("T_" ++ name)
  | temp => exact Supply.not_gave_temp
  | label => exact Supply.not_gave_label

theorem Supply.gave_grant (s : Supply) (r : Supply.Request) : (s.grant r).2.Gave (s.grant r).1 := by
  have numbered : ∀ base, Supply.Gave { s with rids := s.rids + 1 } (Word.numbered base s.rids) := fun base =>
    .inl ⟨s.rids, Nat.lt_succ_self _, Word.isNumbered_numbered base _⟩
  cases r with
  | rid name => exact numbered name
  | functionRid owner name =>
    obtain ⟨base, hbase, -⟩ := Supply.functionRid_eq s owner name
    rw [Supply.grant, hbase]
    exact numbered base
  | classRid name => exact numbered ("T_" ++ name)
  | temp => exact .inr (.inl ⟨_, Nat.lt_succ_self _, rfl⟩)
  | label => exact .inr (.inr ⟨_, Nat.lt_succ_self _, rfl⟩)

namespace Session

/-- A session whose open declarations and whose log hold every word once. -/
structure Spare (log : List String) (s : Session) : Prop where
  settled : s.Settled
  quiet : s.builtins.Quiet
  nodup : (s.symbols.openRids ++ log).Nodup
  gave : ∀ w ∈ s.symbols.openRids ++ log, s.supply.Gave w

variable {s : Session} {log : List String}

theorem openRids_enterBuiltins (s : Session) : s.enterBuiltins.symbols.openRids = s.symbols.openRids := by
  refine enterBuiltins_induction (P := fun t => t.openRids = s.symbols.openRids) rfl (fun e _ t ht => ?_) ?_
  · rw [openRids_add]
    exact (List.append_nil _).trans ht
  · exact fun t id t' ht h => (openRids_insertAt h).trans ht

theorem Spare.tidy (h : s.Spare log) (files : FileTree) (annotate : Bool) : Tidy log [] (s.begin files annotate) := by
  have hheld : (s.begin files annotate).held = s.symbols.openRids := openRids_enterBuiltins s
  refine ⟨h.quiet, ?_, ?_⟩
  · rw [hheld]
    exact h.nodup
  · rw [hheld]
    exact h.gave

theorem Spare.grant (h : s.Spare log) (r : Supply.Request) : (s.grant r).2.Spare ((s.grant r).1 :: log) where
  settled := h.settled.grant r
  quiet := h.quiet
  nodup := by
    refine List.perm_middle.nodup_iff.mpr (List.nodup_cons.mpr ⟨fun hw => ?_, h.nodup⟩)
    exact s.supply.not_gave_grant r (h.gave _ hw)
  gave := fun w hw => by
    rcases List.mem_cons.mp (List.perm_middle.mem_iff.mp hw) with rfl | hw
    · exact s.supply.gave_grant r
    · exact (h.gave w hw).mono (s.supply.before_grant r)

/-- The code of an accepted unit is added to the log. -/
theorem Spare.compile (h : s.Spare log) (files : FileTree) (annotate : Bool) (p : Program) (src : Source) :
    (s.compile files annotate p src).2.Spare
      (((s.compile files annotate p src).1.toOption.map introduced).getD [] ++ log) := by
  obtain ⟨k, ws, hcourse⟩ := exists_course h.settled files annotate p src
  have htidy := (hcourse.tidy (h.tidy files annotate)).mono rfl (.refl _)
    ((List.subperm_append_left _).mpr List.nil_subperm)
  have hbrought : (((s.compile files annotate p src).1.toOption.map introduced).getD []).Subperm
      (introduced (s.ending files annotate p src).out.items) := by
    cases hr : (s.compile files annotate p src).1 with
    | error e => exact List.nil_subperm
    | ok code =>
      have hcode := (course_of_compile h.settled hr).2
      change (introduced code).Subperm _
      rw [hcode, CodeBuffer.code, CodeBuffer.items]
      refine (introduced_perm (List.reverse_perm _)).subperm.trans ?_
      rw [introduced_append]
      exact (List.sublist_append_left _ _).subperm
  have hall : ((s.ending files annotate p src).table.openRids ++
      (((s.compile files annotate p src).1.toOption.map introduced).getD [] ++ log)).Subperm
        ((s.ending files annotate p src).held ++ ([] ++ log)) := by
    rw [List.nil_append, ← List.append_assoc, Lowering.held]
    refine (List.subperm_append_right log).mpr (List.perm_append_comm.subperm.trans ?_)
    exact (List.subperm_append_right _).mpr hbrought
  exact ⟨h.settled.compile files annotate p src, htidy.quiet, nodup_of_subperm hall htidy.nodup,
    fun w hw => htidy.gave w (hall.subset hw)⟩

/-- The words that come out of a session are new and different from each other. -/
theorem Spare.words (h : s.Spare log) (events : List Event) : (s.words events ++ log).Nodup := by
  induction events generalizing s log with
  | nil => exact (List.nodup_append.mp h.nodup).2.1
  | cons event events ih =>
    cases event with
    | grant r =>
      have hrest := ih (h.grant r)
      exact List.perm_middle.nodup_iff.mp hrest
    | unit files annotate p src =>
      have hrest := ih (h.compile files annotate p src)
      refine List.Perm.nodup_iff ?_ |>.mp hrest
      rw [Session.words, List.append_assoc]
      exact List.perm_append_comm_assoc _ _ _

theorem spare_new {options : CompileOptions} (hsober : options.builtins.Sober) (hquiet : options.builtins.Quiet) :
    (ofOptions options).Spare [] :=
  ⟨settled_new hsober, hquiet, List.nodup_nil, fun _ h => absurd h List.not_mem_nil⟩

/-- The words that a session gives out and those that its accepted units bring in are all different. A word
that is taken later than another one is a different word, and a unit, and every node in it, only takes words
on. -/
theorem words_nodup {options : CompileOptions} (hsober : options.builtins.Sober) (hquiet : options.builtins.Quiet) :
    (∀ events, ((ofOptions options).words events).Nodup) ∧
      (∀ (u v : Supply) (r r' : Supply.Request), (u.grant r).2.Before v → (u.grant r).1 ≠ (v.grant r').1) ∧
      (∀ s, Reached options s → ∀ files annotate p src,
        s.supply.Before (s.compile files annotate p src).2.supply) ∧
      ∀ s : Lowering, s.Midway → ∀ levels n, s.supply.Before (Lower.visit levels n s).2.supply := by
  refine ⟨fun events => ?_, fun u v r r' hbefore heq => ?_, fun s hs files annotate p src => ?_, fun s hs levels n => ?_⟩
  · have hnodup := (spare_new hsober hquiet).words events
    rwa [List.append_nil] at hnodup
  · exact v.not_gave_grant r' (heq ▸ (u.gave_grant r).mono hbefore)
  · obtain ⟨k, ws, hcourse⟩ := exists_course (hs.settled hsober) files annotate p src
    exact hcourse.steps.supply
  · obtain ⟨k, ws, hcourse⟩ := exists_course_of_tame (tame_visit levels n) hs.good
    exact hcourse.steps.supply

end Session

theorem Registry.quiet_standard : Registry.standard.Quiet := by
  intro e he call supply emission h
  simp only [Registry.standard, Builtin.standard, List.mem_cons, List.not_mem_nil, or_false] at he
  rcases he with rfl | rfl | rfl | rfl | rfl | rfl | rfl | rfl | rfl | rfl | rfl | rfl <;> cases h <;>
    exact ⟨_, rfl, List.forall_mem_singleton.mpr rfl⟩

theorem exists_program_callSource : ∃ p, Program.ofSource callSource "main" = .ok p := by
  obtain ⟨code, hcode, -⟩ := exists_code_callSource
  obtain ⟨p, hp, -⟩ := exists_program_of_compileSource hcode
  exact ⟨p, hp⟩

theorem Session.words_nodup_of_sources :
    ∃ p q, Program.ofSource callSource "main" = .ok p ∧ Program.ofSource refusedSource "main" = .ok q ∧
      ((Session.ofOptions {}).words [.grant (.rid "a_1"), .unit {} false q refusedSource, .grant .temp,
        .unit {} false p callSource, .grant (.rid "a")]).Nodup := by
  obtain ⟨p, hp⟩ := exists_program_callSource
  obtain ⟨q, hq, -⟩ := exists_program_refusedSource
  exact ⟨p, q, hp, hq, (Session.words_nodup Registry.sober_standard Registry.quiet_standard).1 _⟩

end Frontend
