import Frontend.Proofs.Parse.Discipline

/-!
# Every rule keeps to a discipline

The rules of the grammar read, report and go on behind errors in no other way than a discipline allows,
and the trees they build begin at tokens they have read.
-/

namespace Frontend.Parse.Discipline

variable {d : Discipline} {s : ParseState} {sub : Nested} {α : Type} {reads : α → Bool}
variable {t u : ParseState} {n left : Node} {ns done : List Node} {b : Bracket} {g : Group}
  {opener token : Token}
variable {m : Node} {name : Ident} {ps : List Param} {ds : List (Ident × Option Node)} {ls : List Label} {body : Block}
  {rule : Parse Node} {inClass : Bool} {keyword : Token} {k : Keyword}

/-! ## Labels -/

theorem plain_of_startsLabel {k : TokenKind} (h : startsLabel k = true) : k.plain = true := by
  cases k <;> first | rfl | cases h

def labelGroup (fuel : Nat) : Parse (List Label) := do
  let opener ← advance
  let group ← members fuel opener []
  let _ ← advance
  return group

theorem groups_eq (fuel : Nat) (word : Token) (done : List (List Label)) : groups (fuel + 1) word done = (do
      if !(← check (.opening .square)) then return .mk word done.reverse
      if !takesGroups word.kind then
        failToken .general word (.entry .invalidDescriptor [.text word.literal])
      else
        let group ← labelGroup fuel
        groups fuel word (group :: done)) := by
  have hgroup : (do
      let opener ← advance
      let group ← members fuel opener []
      let _ ← advance
      groups fuel word (group :: done)) =
      (do let group ← labelGroup fuel; groups fuel word (group :: done)) := by
    unfold labelGroup
    simp only [andThen_assoc]
    rfl
  rw [← hgroup]
  rw [groups]

/-- What members of a group leave to be read begins with the closing bracket. -/
theorem next_of_members : ∀ {fuel opener done s ls t}, members fuel opener done s = (some ls, t) →
    t.next.kind = .closing .square
  | 0, _, _, _, _, _, h => by cases h
  | fuel + 1, opener, done, s, ls, t, h => by
    unfold members at h
    rw [peek_bind] at h
    split at h
    next hk =>
      cases h
      exact beq_iff_eq.mp hk
    · split at h
      · split at h <;> cases h
      · obtain ⟨inner, u, -, h⟩ := bind_eq_some h
        obtain ⟨b, v, -, h⟩ := bind_eq_some h
        obtain ⟨b', w, -, h⟩ := bind_eq_some h
        split at h
        · cases h
        · exact next_of_members h

theorem length_advance (s : ParseState) : (advance s).2.rest.length = s.rest.length - 1 := by
  simp [advance]

theorem pastNewlines_of_next (h : s.next.kind ≠ .newline) : pastNewlines s.rest = s.rest := by
  unfold pastNewlines
  cases hrest : s.rest with
  | nil => rfl
  | cons t rest =>
    have ht : t.kind ≠ .newline := by simpa [ParseState.next, hrest] using h
    simp [ht]

/-- A group of labels is taken with its brackets. -/
theorem eats_labelGroup {fuel : Nat} (hk : s.next.kind = .opening .square)
    (hmembers : ∀ opener, d.Keeps { s with rest := s.rest.drop 1 } (members fuel opener []) fun _ => True) :
    d.Eats s (labelGroup fuel) fun _ => True := by
  intro hs
  have hrest : s.rest = s.next :: s.rest.drop 1 := rest_eq_next hs (by simp [hk])
  obtain ⟨hinv, -⟩ := d.openUp s.depth s.inClass hs hrest hk
  have o := hmembers s.next hinv
  unfold labelGroup
  rw [advance_bind]
  cases hr : members fuel s.next [] { s with rest := s.rest.drop 1 } with
  | mk r t =>
    rw [hr] at o
    obtain ⟨hdepth, hclass, -⟩ : t.depth = s.depth ∧ t.inClass = s.inClass ∧ t.last = s.last := o.settings
    cases r with
    | none =>
      obtain ⟨hinv', hdoes⟩ := d.abandon hs hrest hk o.inv (o.failed rfl)
      rw [← hdepth, ← hclass] at hinv' hdoes
      rw [bind_apply_none hr]
      exact .of_none hinv' o.settings hdoes
    | some group =>
      have hclose := next_of_members hr
      have hrest' : t.rest = t.next :: t.rest.drop 1 := rest_eq_next o.inv (by simp [hclose])
      have hpast : pastNewlines t.rest = t.next :: t.rest.drop 1 := by
        rw [pastNewlines_of_next (by simp [hclose]), ← hrest']
      obtain ⟨hinv', hdoes⟩ := d.close hs hrest hk o.inv (o.done _ rfl).1 hpast hclose
      rw [← hdepth, ← hclass] at hinv' hdoes
      rw [bind_apply_some hr]
      exact .of_some hinv' o.settings hdoes trivial

theorem length_labelGroup (fuel : Nat) (s : ParseState) :
    (labelGroup fuel s).2.rest.length ≤ s.rest.length - 1 := by
  have hinside := (nonGrowing_members fuel s.next []).bind fun group =>
    NonGrowing.advance.bind fun _ => .pure group
  have h := (hinside { s with rest := s.rest.drop 1 }).1
  rw [List.length_drop] at h
  exact h

mutual
theorem eats_label : ∀ fuel s, 3 * s.rest.length + 2 ≤ fuel → startsLabel s.next.kind = true →
    d.Eats s (label fuel) fun _ => True
  | 0, _, hfuel, _ => by omega
  | fuel + 1, s, hfuel, hstarts => by
    unfold label
    refine (Eats.advance (plain_of_startsLabel hstarts)).andThen fun word t ht ⟨_, hplace⟩ => ?_
    have hlength := length_advance s
    rw [ht] at hlength
    exact keeps_groups fuel word [] t (by dsimp only at hlength; omega) hplace

theorem keeps_groups : ∀ fuel word done s, 3 * s.rest.length + 1 ≤ fuel → d.Place word.pos →
    d.Keeps s (groups fuel word done) fun _ => True
  | 0, _, _, _, hfuel, _ => by omega
  | fuel + 1, word, done, s, hfuel, hword => by
    rw [groups_eq]
    refine Runs.ask (Runs.ite (fun _ => Runs.pure rfl trivial) fun hopen => ?_)
    refine Runs.ite (fun _ => Runs.failToken hword) fun _ => ?_
    have hk : s.next.kind = .opening .square := by simpa using hopen
    intro hs
    have hlength : 0 < s.rest.length :=
      List.length_pos_iff.mpr (rest_ne_nil_of_kind (d.eof hs) (by simp [hk]))
    have hmembers : ∀ opener, d.Keeps { s with rest := s.rest.drop 1 } (members fuel opener [])
        fun _ => True := fun opener =>
      keeps_members fuel opener [] _ (by simp only [List.length_drop]; omega)
    refine Runs.andThen (eats_labelGroup hk hmembers) (fun group t ht _ => ?_) hs
    have hgrow := length_labelGroup fuel s
    rw [ht] at hgrow
    exact keeps_groups fuel word _ t (by dsimp only at hgrow; omega) hword

theorem keeps_members : ∀ fuel opener done s, 3 * s.rest.length + 3 ≤ fuel →
    d.Keeps s (members fuel opener done) fun _ => True
  | 0, _, _, _, hfuel => by omega
  | fuel + 1, opener, done, s, hfuel => by
    unfold members
    refine Runs.ask (Runs.ite (fun _ => Runs.pure rfl trivial) fun _ => ?_)
    refine Runs.ite (fun _ => Runs.ite (fun _ => Runs.failNext) fun _ => Runs.failNext) fun hstarts => ?_
    have hstarts' : startsLabel s.next.kind = true := by simpa using hstarts
    intro hs
    have hlength : 0 < s.rest.length := by
      refine List.length_pos_iff.mpr (rest_ne_nil_of_kind (d.eof hs) fun he => ?_)
      rw [he] at hstarts'
      cases hstarts'
    refine Runs.andThen (eats_label fuel s (by omega) hstarts') (fun inner t ht _ => ?_) hs
    have hshort : t.rest.length ≤ s.rest.length - 1 := by
      obtain ⟨k, rfl⟩ : ∃ k, fuel = k + 1 := ⟨fuel - 1, by omega⟩
      have h := length_label k s
      rwa [ht] at h
    refine .accept rfl (fun _ u hu => .ask (.ite ?_ fun _ => ?_)) fun _ => ?_
    · exact fun _ => .ask Runs.failNext
    · exact keeps_members fuel opener _ u (by omega)
    · refine .ask (.ite (fun _ => .ask Runs.failNext) fun _ => ?_)
      exact keeps_members fuel opener _ t (by omega)
end

def labelStep (done : List Label) : Parse (Progress (List Label) (List Label)) := do
  let l ← label (← labelFuel)
  if (← peekKind).isLabel then return .again (l :: done)
  else return .done (l :: done).reverse

theorem runs_labelStep (done : List Label) (hstarts : startsLabel s.next.kind = true) :
    d.Runs goesOn s (labelStep done) (leadsTo (fun _ => True) fun _ => True) := by
  refine .ask (.andThen (eats_label _ s (by omega) hstarts) fun l u _ _ => .ask ?_)
  exact .ite (fun _ => .pure rfl trivial) fun _ => .pure rfl trivial

/-- The loop goes on where another label begins. -/
theorem startsLabel_of_labelStep {done done' : List Label} (h : labelStep done s = (some (.again done'), t)) :
    startsLabel t.next.kind = true := by
  obtain ⟨fuel, v, -, h⟩ := bind_eq_some h
  obtain ⟨l, w, -, h⟩ := bind_eq_some h
  obtain ⟨k, x, ⟨⟩, h⟩ := bind_eq_some h
  split at h
  next hlabel =>
    cases h
    simp [startsLabel, hlabel]
  · cases h

/-- The labels behind a colon. -/
theorem keeps_labels : d.Keeps s labels fun _ => True := by
  unfold labels
  refine .ask (.ite (fun _ => .failNext) fun hstarts => ?_)
  exact .repeatWhile (I := fun _ => True) (K := fun t => startsLabel t.next.kind = true)
    (fun done t _ ht => runs_labelStep done ht) (fun _ _ _ _ => startsLabel_of_labelStep) trivial
    (by simpa using hstarts)

theorem keeps_functionLabels : d.Keeps s functionLabels fun _ => True := by
  unfold functionLabels
  refine .accept rfl (fun _ t _ => .ite (fun _ => keeps_labels) fun h => absurd rfl h) fun _ => ?_
  exact .ite (fun h => nomatch h) fun _ => .pure rfl trivial

/-! ## Trees -/

/-- A tree whose nodes begin where errors may be told, with names on the tokens they may stand on. -/
abbrev Stands (d : Discipline) (n : Node) : Prop := n.Standing d.Place d.Name

/-- Several such trees. -/
def AllStand (d : Discipline) (ns : List Node) : Prop := ∀ n ∈ ns, d.Stands n

theorem allStand_nil : d.AllStand [] := fun _ h => nomatch h

theorem AllStand.cons (hn : d.Stands n) (hns : d.AllStand ns) : d.AllStand (n :: ns) := by
  intro m hm
  rcases List.mem_cons.mp hm with rfl | hm
  · exact hn
  · exact hns m hm

theorem AllStand.reverse (h : d.AllStand ns) : d.AllStand ns.reverse :=
  fun n hn => h n (List.mem_reverse.mp hn)

theorem allStand_single (hn : d.Stands n) : d.AllStand [n] := AllStand.cons hn allStand_nil

theorem stands_named (hpos : d.Place n.pos) (ha : n.arrow? = none) (hn : ∀ i ∈ n.names, d.Name i.token)
    (h : d.AllStand n.children) : d.Stands n :=
  .intro hpos (fun _ ht => nomatch ha.symm.trans ht) hn h

section
variable (hpos : d.Place n.pos) (hn : (n.arrow?, n.names) = (none, []))
include hpos hn

/-- A tree without names of its own. -/
theorem stands_node (h : d.AllStand n.children) : d.Stands n := by
  obtain ⟨harrow, hnames⟩ := Prod.mk.inj hn
  exact stands_named hpos harrow (by simp [hnames]) h

/-- A tree of two trees. -/
theorem stands_pair {m' : Node} (h : n.children = [m, m']) (hm : d.Stands m) (hm' : d.Stands m') : d.Stands n :=
  stands_node hpos hn (h ▸ AllStand.cons hm (allStand_single hm'))

theorem stands_leaf (h : n.children = []) : d.Stands n :=
  stands_node hpos hn (h ▸ allStand_nil)

end

theorem allStand_itemsOf {body : Option Node} (h : ∀ n, body = some n → d.Stands n) :
    d.AllStand (Node.itemsOf body) := by
  unfold Node.itemsOf
  split
  · exact allStand_nil
  · exact fun m hm => (h _ rfl).child hm
  · exact fun m hm => (h _ rfl).child hm
  next n _ _ => exact allStand_single (h n rfl)

/-! ## Groups -/

/-- A nested expression keeps to the discipline and reads something; behind a faulty item reading goes on
at its end. -/
structure EatsNested (d : Discipline) (sub : Nested) : Prop where
  eats : ∀ level s, d.Eats s (sub level) d.Stands
  recover : ∀ b, sub.recover b = synchronize (some b)

/-- A state that the items of a group may lead to from the beginning of the group. -/
structure InGroup (d : Discipline) (s t : ParseState) : Prop where
  inv : d.Inv t
  does : d.Does false s true t
  settings : SameSettings s t

/-- What a step over an item of a group leads to. -/
structure GroupStep (d : Discipline) (s t : ParseState)
    (r : Option (Progress (List Node) (List Node)) × ParseState) : Prop where
  isSome : r.1 ≠ none
  again : ∀ done, r.1 = some (.again done) → d.AllStand done ∧ d.InGroup s r.2 ∧
    (¬ r.2.weight < t.weight → d.Does true s false r.2)
  done : ∀ items, r.1 = some (.done items) → d.AllStand items ∧
    ∃ u, d.InGroup s u ∧ r.2 = { u with rest := pastNewlines u.rest }

theorem GroupStep.of_again (hdone : d.AllStand done) (hu : d.InGroup s u)
    (hstuck : ¬ u.weight < t.weight → d.Does true s false u) : d.GroupStep s t (some (.again done), u) :=
  ⟨nofun, fun _ h => by cases h; exact ⟨hdone, hu, hstuck⟩, nofun⟩

theorem GroupStep.of_done {v : ParseState} {items : List Node} (hitems : d.AllStand items) (hu : d.InGroup s u)
    (hv : v = { u with rest := pastNewlines u.rest }) : d.GroupStep s t (some (.done items), v) :=
  ⟨nofun, nofun, fun _ h => by cases h; exact ⟨hitems, u, hu, hv⟩⟩

/-- Behind an error in a group, reading goes on in the group. -/
theorem GroupStep.of_resume (hopened : d.Opened b s) (hdone : d.AllStand done) (hu : d.Inv u)
    (hsettings : SameSettings s u) (hdoes : d.Does true s false u) :
    d.GroupStep s t (some (.again done), { u with rest := resumeAt (some b) 0 u.rest }) := by
  obtain ⟨hinv, hgoesOn, hstuck⟩ := d.resume hopened hu hdoes
  exact .of_again hdone ⟨hinv, hgoesOn, hsettings⟩ fun _ => hstuck

/-- The loop over the items of a group stays in the group. -/
theorem loop_group {step : List Node → Parse (Progress (List Node) (List Node))}
    (h : ∀ done t, d.InGroup s t → d.AllStand done → d.GroupStep s t (step done t)) (ht : d.InGroup s t)
    (hdone : d.AllStand done) :
    (∀ items, (repeatWhile step done t).1 = some items → d.AllStand items ∧ ∃ u, d.InGroup s u ∧
      (repeatWhile step done t).2 = { u with rest := pastNewlines u.rest }) ∧
    ((repeatWhile step done t).1 = none → d.InGroup s (repeatWhile step done t).2 ∧
      d.Does true s false (repeatWhile step done t).2) := by
  fun_induction repeatWhile step done t with
  | case1 done t items u hstep =>
    have key := h done t ht hdone
    rw [hstep] at key
    refine ⟨fun items' h' => ?_, fun h' => by cases h'⟩
    cases h'
    exact key.done items rfl
  | case2 done t done' u hstep hlt ih =>
    have key := h done t ht hdone
    rw [hstep] at key
    obtain ⟨hdone', hu, -⟩ := key.again done' rfl
    exact ih hu hdone'
  | case3 done t done' u hstep hlt =>
    have key := h done t ht hdone
    rw [hstep] at key
    obtain ⟨-, hu, hstuck⟩ := key.again done' rfl
    exact ⟨fun _ h' => (by cases h'), fun _ => ⟨hu, hstuck hlt⟩⟩
  | case4 done t u hstep =>
    have key := h done t ht hdone
    rw [hstep] at key
    exact absurd rfl key.isSome

/-- A group that holds a tree and begins where errors may be told. -/
def GroupStands (d : Discipline) (g : Group) : Prop :=
  d.Place g.opener.pos ∧ ∀ n, g.body = some n → d.Stands n

theorem GroupStands.items (h : d.GroupStands g) : d.AllStand g.items := allStand_itemsOf h.2

theorem GroupStands.node (h : d.GroupStands g) : d.Stands g.node :=
  stands_node h.1 rfl fun n hn => h.2 n (Option.mem_toList.mp hn)

theorem stands_block {b : Block} (hpos : d.Place b.pos) (h : d.AllStand b.items) : d.Stands (.block b) :=
  stands_node hpos rfl h

theorem groupStands_ofItems {closer : Token} {bracket : Bracket} {items : List Node} (hpos : d.Place opener.pos)
    (h : d.AllStand items) : d.GroupStands (Group.ofItems opener closer bracket items) := by
  refine ⟨hpos, fun n hn => ?_⟩
  unfold Group.ofItems at hn
  dsimp only at hn
  split at hn
  · cases hn
  · cases hn
    exact h _ List.mem_cons_self
  · cases hn
    exact stands_block hpos h

def groupStep (sub : Nested) (bracket : Bracket) (done : List Node) :
    Parse (Progress (List Node) (List Node)) := do
  skipNewlines
  let closes ← check (.closing bracket)
  if closes || (← ask fun s => s.atEnd || s.stopped) then return .done done.reverse
  Parse.calm
  match ← attempt (sub Binding.lowest) with
  | none =>
    sub.recover bracket
    return .again done
  | some item =>
    let done := item :: done
    let k ← peekKind
    if k == .newline || k == .closing bracket then return .again done
    else if k == .eof || k.isClosing then return .done done.reverse
    else
      reportUnexpected (← peek) ("newline or '" ++ bracket.closer.toString ++ "'")
      sub.recover bracket
      return .again done

theorem groupItems_eq (sub : Nested) (bracket : Bracket) :
    groupItems sub bracket = repeatWhile (groupStep sub bracket) [] := rfl

section
variable (hsub : d.EatsNested sub)
include hsub

/-- A step over an item stays in the group: an error in the item does not lead out of it. -/
theorem stays_groupStep (hopened : d.Opened b s) (hdepth : 0 < s.depth)
    (ht : d.InGroup s t) (hdone : d.AllStand done) : d.GroupStep s t (groupStep sub b done t) := by
  obtain ⟨hu, hskip⟩ := d.skip ht.inv (.inl (ht.settings.1 ▸ hdepth))
  obtain ⟨hv, hcalm⟩ := d.calm hu
  unfold groupStep
  rw [skipNewlines, change_bind, check, ask_bind, ask_bind, hsub.recover b]
  split
  · exact .of_done hdone.reverse ht rfl
  have o := hsub.eats Binding.lowest _ hv
  rw [Parse.calm, change_bind, attempt_bind]
  unfold pastNewlines at o hskip
  generalize sub Binding.lowest _ = r at o ⊢
  obtain ⟨item?, v⟩ := r
  have hsettings : SameSettings s v := ht.settings.trans o.settings
  cases item? with
  | none =>
    exact .of_resume hopened hdone o.inv hsettings
      (d.trans ht.does (hskip _ _ (d.does hcalm (o.failed rfl))))
  | some item =>
    obtain ⟨heats, hitem⟩ := o.done item rfl
    have hread : d.Does true t true v := hskip _ _ (d.does hcalm heats)
    have hv' : d.InGroup s v := ⟨o.inv, d.weaken (d.trans ht.does hread), hsettings⟩
    dsimp only
    rw [peekKind, ask_bind]
    split
    · exact .of_again (hdone.cons hitem) hv' fun hlt => d.trans ht.does (d.stuck hread hlt)
    next hgoes =>
      split
      · refine .of_done (hdone.cons hitem).reverse hv' ?_
        have hk : v.next.kind ≠ .newline := fun he => hgoes (by simp [he])
        rw [pastNewlines_of_next hk]
      · obtain ⟨hinv, hdoes⟩ := d.report hv'.inv (e := ⟨.unexpectedToken, v.next.pos,
          if v.next.columns < 1 then 1 else v.next.columns, .entry .unexpectedTokenType
            [.text v.next.describe, .text ("newline or '" ++ b.closer.toString ++ "'")]⟩) (d.next hv'.inv)
        rw [peek_bind, reportUnexpected, reportToken, reportAt_eq, change_bind]
        refine .of_resume hopened (hdone.cons hitem) hinv ?_ (d.trans hv'.does hdoes)
        exact hsettings.trans (settings_afterReport _ v)

/-- The rest of a group stays in its bracket. -/
theorem closes_groupBody (hopener : d.Place opener.pos) (b : Bracket) :
    d.Closes b s (groupBody sub opener b) d.GroupStands := by
  intro hs hopened hdepth
  have hstep : ∀ done t, d.InGroup s t → d.AllStand done → d.GroupStep s t (groupStep sub b done t) :=
    fun done t ht hdone => stays_groupStep hsub hopened hdepth ht hdone
  have hloop := loop_group hstep ⟨hs, d.stay s, .refl s⟩ allStand_nil
  unfold groupBody
  rw [groupItems_eq]
  cases hr : repeatWhile (groupStep sub b) [] s with
  | mk items? t =>
    rw [hr] at hloop
    cases items? with
    | none =>
      obtain ⟨ht, hdoes⟩ := hloop.2 rfl
      rw [bind_apply_none hr]
      exact .of_none ht.settings ht.inv hdoes
    | some items =>
      obtain ⟨hitems, u, hu, ht⟩ := hloop.1 items rfl
      rw [bind_apply_some hr]
      dsimp only at ht
      subst ht
      exact closing_next hdepth hu.inv hu.does hu.settings fun closer => groupStands_ofItems hopener hitems

/-- A group with its brackets. -/
theorem eats_group (hk : s.next.kind = .opening b) : d.Eats s (group sub b) d.GroupStands := by
  intro hs
  unfold group
  rw [advance_bind]
  exact outcome_inBrackets hs hk fun t => closes_groupBody hsub (d.next hs) b

omit hsub

/-- A block that holds trees and begins where errors may be told. -/
def BlockStands (d : Discipline) (b : Block) : Prop := d.Place b.pos ∧ d.AllStand b.items

theorem GroupStands.toBlock (h : d.GroupStands g) : d.BlockStands g.toBlock :=
  ⟨h.1, h.items⟩

include hsub

theorem eats_block : d.Eats s (block sub) d.BlockStands := by
  unfold block
  refine .ask (.ite (fun hk => ?_) fun _ => .failNext)
  exact .andThen (eats_group hsub (beq_iff_eq.mp hk)) fun g t _ hg => .pure rfl hg.toBlock

omit hsub

/-! ## Parameters, arguments and definitions -/

/-- Parameters whose names stand on the tokens they may stand on. -/
def Named (d : Discipline) (ps : List Param) : Prop := ∀ p ∈ ps, d.Name p.name.token

theorem name_ident (h : d.Stands (.ident name)) : d.Name name.token :=
  h.name (List.mem_singleton.mpr rfl)

theorem name_written {p : Param} (hp : p.Written n) (hn : d.Stands n) : d.Name p.name.token := by
  cases hp with
  | positional => exact name_ident hn
  | keyword => exact hn.name List.mem_cons_self
  | _ => exact name_ident (hn.child List.mem_cons_self)

theorem named_written (h : List.Forall₂ Param.Written ps ns) (hns : d.AllStand ns) : d.Named ps := by
  induction h with
  | nil => exact fun _ h => nomatch h
  | cons hp _ ih =>
    obtain ⟨hn, hns⟩ := List.forall_mem_cons.mp hns
    exact List.forall_mem_cons.mpr ⟨name_written hp hn, ih hns⟩

theorem keeps_params {items : List Node} (h : d.AllStand items) : d.Keeps s (params items) d.Named := by
  unfold params
  split
  next hps => exact .pure rfl (named_written (paramsOf_eq_ok_iff.mp hps).1 h)
  next he => exact .failNode (h _ (mem_of_paramsOf he).1)

theorem stands_argumentOf (hn : d.Stands n) (hm : argumentOf? n = some m) : d.Stands m := by
  unfold argumentOf? at hm
  split at hm
  · split at hm
    · cases hm
      have hname := name_ident (hn.child List.mem_cons_self)
      have hvalue := hn.child (List.mem_cons_of_mem _ List.mem_cons_self)
      exact stands_named hn.pos rfl (by simpa [Node.names] using hname) (allStand_single hvalue)
    · cases hm
  · cases hm
  · cases hm
    exact hn

theorem keeps_arguments {items : List Node} (h : d.AllStand items) : d.Keeps s (arguments items) d.AllStand := by
  induction items generalizing s with
  | nil => exact .pure rfl allStand_nil
  | cons n ns ih =>
    unfold arguments
    split
    next a ha =>
      refine (ih fun m hm => h m (List.mem_cons_of_mem _ hm)).bind fun rest t _ hrest => ?_
      exact .pure rfl (hrest.cons (stands_argumentOf (h n List.mem_cons_self) ha))
    · exact .failNode (h n List.mem_cons_self)

/-- What is known of something that is defined: its name, and its value if it has one. -/
def DefinitionStands (d : Discipline) (c : Ident × Option Node) : Prop :=
  d.Name c.1.token ∧ ∀ n, c.2 = some n → d.Stands n

/-- The first item of a definition is a name, perhaps with a value. -/
theorem definitionsOf_cons (h : definitionsOf (n :: ns) = .ok ds) :
    ∃ c rest, definitionsOf ns = .ok rest ∧ ds = c :: rest ∧
      (n = .ident c.1 ∧ c.2 = none ∨ ∃ op value, n = .assign (.ident c.1) op value ∧ c.2 = some value) := by
  have later : ∀ c, (definitionsOf ns >>= fun rest => Except.ok (c :: rest)) = .ok ds →
      ∃ rest, definitionsOf ns = .ok rest ∧ ds = c :: rest := by
    intro c h
    obtain ⟨rest, hrest, h⟩ := bind_ok h
    exact ⟨rest, hrest, (Except.ok.inj h).symm⟩
  unfold definitionsOf at h
  split at h
  next name =>
    obtain ⟨rest, hrest, rfl⟩ := later _ h
    exact ⟨_, rest, hrest, rfl, .inl ⟨rfl, rfl⟩⟩
  next name op value =>
    split at h
    · obtain ⟨rest, hrest, rfl⟩ := later _ h
      exact ⟨_, rest, hrest, rfl, .inr ⟨op, value, rfl, rfl⟩⟩
    · cases h
  · cases h

theorem stand_definitionsOf (hns : d.AllStand ns) (hds : definitionsOf ns = .ok ds) :
    ∀ c ∈ ds, d.DefinitionStands c := by
  induction ns generalizing ds with
  | nil =>
    cases hds
    simp
  | cons n ns ih =>
    have hn := hns n List.mem_cons_self
    have hthose : d.AllStand ns := fun m hm => hns m (List.mem_cons_of_mem _ hm)
    obtain ⟨⟨name, value?⟩, rest, hrest, rfl, ⟨rfl, rfl⟩ | ⟨op, value, rfl, rfl⟩⟩ := definitionsOf_cons hds
    · exact List.forall_mem_cons.mpr ⟨⟨name_ident hn, fun _ h => by cases h⟩, ih hthose hrest⟩
    · refine List.forall_mem_cons.mpr ⟨⟨name_ident (hn.child List.mem_cons_self), fun m hm => ?_⟩, ih hthose hrest⟩
      cases hm
      exact hn.child (List.mem_cons_of_mem _ List.mem_cons_self)

/-- A node that defines nothing is one of the nodes. -/
theorem mem_of_definitionsOf (h : definitionsOf ns = .error n) : n ∈ ns := by
  induction ns with
  | nil => cases h
  | cons m ns ih =>
    -- the first item defines something, so the fault is in the rest
    have later : ∀ first : Ident × Option Node,
        (definitionsOf ns >>= fun rest => Except.ok (first :: rest)) = .error n → n ∈ m :: ns := by
      intro first h
      cases hothers : definitionsOf ns with
      | error e =>
        rw [hothers] at h
        cases h
        exact List.mem_cons_of_mem _ (ih hothers)
      | ok rest =>
        rw [hothers] at h
        cases h
    unfold definitionsOf at h
    split at h
    · exact later _ h
    · split at h
      · exact later _ h
      · cases h
        exact List.mem_cons_self
    · cases h
      exact List.mem_cons_self

include hsub

/-! ## Expressions -/

theorem EatsNested.keeps (level : Nat) : d.Keeps s (sub level) d.Stands :=
  .eats (hsub.eats level s)

omit hsub

theorem eats_identifier (hk : s.next.kind = .ident) :
    d.Eats s identifier fun name => d.Place name.token.pos ∧ d.Name name.token := by
  intro hs
  have hname := d.name hs hk
  unfold identifier
  refine Runs.advance (hk ▸ rfl) (fun t hplace => Runs.accept rfl (fun _ u _ => ?_) fun _ => ?_) hs
  · exact .ite (fun _ => keeps_labels.bind fun ls v _ _ => .pure rfl ⟨hplace, hname⟩)
      fun h => absurd rfl h
  · exact .ite (fun h => nomatch h) fun _ => .pure rfl ⟨hplace, hname⟩

theorem eats_integer (hk : s.next.kind = .int) : d.Eats s integer d.Stands := by
  unfold integer
  refine Runs.advance (hk ▸ rfl) fun t hplace => ?_
  split
  · exact .pure rfl (stands_leaf hplace rfl rfl)
  · exact .failToken hplace

theorem eats_float (hk : s.next.kind = .float) : d.Eats s float d.Stands := by
  unfold float
  refine Runs.advance (hk ▸ rfl) fun t hplace => ?_
  split
  · exact .pure rfl (stands_leaf hplace rfl rfl)
  · exact .failToken hplace

/-- A token that is a tree of its own. -/
theorem eats_leaf {make : Token → Node} (hk : s.next.kind.plain = true)
    (hpos : ∀ t, (make t).pos = t.pos) (hn : ∀ t, ((make t).arrow?, (make t).names) = (none, []))
    (hc : ∀ t, (make t).children = []) : d.Eats s (do return make (← advance)) d.Stands :=
  Runs.advance hk fun _ hplace => Runs.pure rfl (stands_leaf (hpos _ ▸ hplace) (hn _) (hc _))

include hsub

theorem eats_unary (hk : s.next.kind.plain = true) : d.Eats s (unary sub) d.Stands := by
  refine Runs.advance hk fun t hplace => (hsub.keeps _).bind fun n u _ hn => ?_
  exact .pure rfl (stands_node hplace rfl (allStand_single hn))

theorem eats_list (hk : s.next.kind = .opening .square) : d.Eats s (list sub) d.Stands :=
  .andThen (eats_group hsub hk) fun _ _ _ hg => .pure rfl (stands_node hg.1 rfl hg.items)

theorem eats_braces (hk : s.next.kind = .opening .brace) : d.Eats s (braces sub) d.Stands := by
  refine .andThen (eats_group hsub hk) fun g t _ hg => ?_
  have hblock : d.Stands (.block g.toBlock) := stands_block hg.toBlock.1 hg.items
  refine .ite (fun _ => .pure rfl (stands_leaf hg.1 rfl rfl)) fun _ => ?_
  refine .ite (fun _ => .pure rfl hblock) fun _ => ?_
  refine .ite (fun _ => .pure rfl (stands_node hg.1 rfl hg.items)) fun _ => ?_
  exact .ite (fun _ => .failNode hg.node) fun _ => .pure rfl hblock

theorem eats_binary (hl : d.Stands left) (hk : s.next.kind.plain = true) : d.Eats s (binary sub left) d.Stands := by
  refine Runs.advance hk fun t _ => (hsub.keeps _).bind fun n u _ hn => ?_
  exact .pure rfl (stands_pair hl.pos rfl rfl hl hn)

theorem eats_assignment {target : Node} (ht : d.Stands target)
    (hk : s.next.kind.plain = true) : d.Eats s (assignment sub target) d.Stands := by
  refine Runs.advance hk fun t _ => Runs.ite (fun _ => ?_) fun _ => Runs.failNode ht
  refine (hsub.keeps _).bind fun n u _ hn => ?_
  exact .pure rfl (stands_pair ht.pos rfl rfl ht hn)

omit hsub

/-- Trees with commas between them begin where the first one begins. -/
theorem stands_parallel {items : List Node} (h : d.AllStand items) (hne : items ≠ []) :
    d.Stands (.parallel items) := by
  refine stands_node ?_ rfl h
  cases items with
  | nil => exact absurd rfl hne
  | cons n ns => exact (h n List.mem_cons_self).pos

/-- What is done with one expression behind a comma. -/
def parallelStep (sub : Nested) (done : List Node) : Parse (Progress (List Node) Node) := do
  if ← accept .comma then
    if (← ask (·.depth)) > 0 then skipNewlines
    return .again ((← sub Binding.parallel) :: done)
  else return .done (.parallel done.reverse)

include hsub

theorem runs_parallelStep (hdone : d.AllStand done ∧ done ≠ []) : d.Runs goesOn s (parallelStep sub done)
      (leadsTo (fun done => d.AllStand done ∧ done ≠ []) d.Stands) := by
  have more : ∀ t, d.Eats t (do return .again ((← sub Binding.parallel) :: done))
      (leadsTo (fun done => d.AllStand done ∧ done ≠ []) d.Stands) := fun t =>
    .andThen (hsub.eats _ t) fun n u _ hn => .pure rfl ⟨hdone.1.cons hn, nofun⟩
  refine .accept rfl (fun _ u _ => ?_) fun _ => ?_
  · refine .ite (fun _ => .ask (.ite (fun hdepth => ?_) fun _ => (more u).eats))
      fun h => absurd rfl h
    exact .skipNewlines (.inl hdepth) (more _)
  · refine .ite (fun h => nomatch h) fun _ => .pure rfl ?_
    exact stands_parallel hdone.1.reverse (by simpa using hdone.2)

theorem eats_parallel {first : Node} (hf : d.Stands first)
    (hk : s.next.kind = .comma) : d.Eats s (parallel sub first) d.Stands := by
  refine .loop (I := fun done => d.AllStand done ∧ done ≠ [])
    (fun done t hdone => runs_parallelStep hsub hdone) ⟨allStand_single hf, nofun⟩ fun n t hstep => ?_
  · obtain ⟨b, u, hb, hstep⟩ := bind_eq_some hstep
    have hcomma : Parse.accept .comma s = (some true, { s with rest := s.rest.drop 1 }) := by
      unfold Parse.accept
      rw [check, ask_bind, if_pos (beq_iff_eq.mpr hk)]
      rfl
    rw [hcomma] at hb
    cases hb
    rw [if_pos rfl] at hstep
    obtain ⟨depth, v, -, hstep⟩ := bind_eq_some hstep
    split at hstep
    · obtain ⟨_, w, -, hstep⟩ := bind_eq_some hstep
      obtain ⟨item, x, -, ⟨⟩⟩ := bind_eq_some hstep
    · obtain ⟨item, x, -, ⟨⟩⟩ := bind_eq_some hstep

theorem eats_entry {key : Node} (hkey : d.Stands key)
    (hk : s.next.kind.plain = true) : d.Eats s (entry sub key) d.Stands := by
  refine Runs.advance hk fun t _ => (hsub.keeps _).bind fun n u _ hn => ?_
  exact .pure rfl (stands_pair hkey.pos rfl rfl hkey hn)

omit hsub

theorem allStand_arrowBody {arrow : Token} {value : Node} (harrow : d.Place arrow.pos) (h : d.Stands value) :
    d.AllStand (arrowBody arrow value).items :=
  allStand_single (stands_node harrow rfl (allStand_single h))

theorem stands_lambda (ht : d.Place token.pos) (hps : d.Named ps) (hbody : d.AllStand body.items) :
    d.Stands (.lambda token ps ls body) :=
  stands_named ht rfl (List.forall_mem_map.mpr hps) hbody

include hsub

theorem eats_arrowed (hl : d.Stands left) (hk : s.next.kind.plain = true) :
    d.Eats s (arrowed sub left) d.Stands := by
  refine Runs.advance hk fun t hplace => (hsub.keeps _).bind fun right u _ hr => ?_
  split
  next opener closer body =>
    have hitems : d.AllStand (Node.itemsOf body) :=
      allStand_itemsOf fun n hn => hl.child (Option.mem_toList.mpr hn)
    refine (keeps_params hitems).bind fun ps v _ hps => .pure rfl ?_
    exact stands_lambda hl.pos hps (allStand_arrowBody hplace hr)
  · refine .pure rfl (.intro hl.pos ?_ (fun _ h => nomatch h) (AllStand.cons hl (allStand_single hr)))
    exact fun op hop => Option.some.inj hop ▸ hplace

theorem eats_call {callee : Node} (hc : d.Stands callee)
    (hk : s.next.kind = .opening .paren) : d.Eats s (call sub callee) d.Stands := by
  refine .andThen (eats_group hsub hk) fun g t _ hg => ?_
  refine .ite (fun _ => .failNode hg.node) fun _ => ?_
  refine (keeps_arguments hg.items).bind fun args u _ hargs => ?_
  exact .pure rfl (stands_node hc.pos rfl (hargs.cons hc))

theorem closes_indexBody (hl : d.Stands left) : d.Closes .square s (indexBody sub left opener) d.Stands := by
  intro hs hopened hdepth
  obtain ⟨hu, hskip⟩ := d.skip hs (.inl hdepth)
  have o := hsub.eats Binding.lowest _ hu
  unfold indexBody
  rw [skipNewlines, change_bind]
  unfold pastNewlines at o hskip
  cases hr : sub Binding.lowest { s with rest := s.rest.dropWhile (·.kind == .newline) } with
  | mk r t =>
    rw [hr] at o
    cases r with
    | none =>
      rw [bind_apply_none hr]
      exact .of_none o.settings o.inv (hskip _ _ (o.failed rfl))
    | some subscript =>
      obtain ⟨hdoes, hn⟩ := o.done subscript rfl
      rw [bind_apply_some hr, change_bind]
      exact closing_next hdepth o.inv (d.weaken (hskip _ _ hdoes)) o.settings fun _ =>
        stands_pair hl.pos rfl rfl hl hn

theorem eats_index (hl : d.Stands left) (hk : s.next.kind = .opening .square) :
    d.Eats s (index sub left) d.Stands := by
  intro hs
  unfold index
  rw [advance_bind, ask_bind]
  exact outcome_inBrackets hs hk fun t => closes_indexBody hsub hl

omit hsub

theorem eats_member {object : Node} (ho : d.Stands object) (hk : s.next.kind.plain = true) :
    d.Eats s (member object) d.Stands := by
  refine Runs.advance hk fun t _ => Runs.ask (Runs.ite (fun hname => ?_) fun _ => Runs.failNext)
  exact .advance (beq_iff_eq.mp hname ▸ rfl) fun u _ =>
    .pure rfl (stands_node ho.pos rfl (allStand_single ho))

theorem eats_increment {operand : Node} (ho : d.Stands operand) (hk : s.next.kind.plain = true) :
    d.Eats s (increment operand) d.Stands := by
  refine Runs.advance hk fun t _ => Runs.ite (fun _ => Runs.pure rfl ?_) fun _ => Runs.failNode ho
  exact stands_node ho.pos rfl (allStand_single ho)

include hsub

theorem eats_continuation (hl : d.Stands left) (h : continuation? sub left s.next.kind = some rule) :
    d.Eats s rule d.Stands := by
  unfold continuation? at h
  split at h
  next o ho =>
    have hk : s.next.kind.plain = true := ho ▸ rfl
    split at h
    all_goals cases h
    all_goals first
      | exact eats_binary hsub hl hk
      | exact eats_assignment hsub hl hk
      | exact eats_entry hsub hl hk
      | exact eats_arrowed hsub hl hk
      | exact eats_member hl hk
  next hk =>
    cases h
    exact eats_parallel hsub hl hk
  next hk =>
    cases h
    exact eats_call hsub hl hk
  next hk =>
    cases h
    exact eats_index hsub hl hk
  · cases h

omit hsub

/-- What is done with one operator behind a left operand. -/
def climbStep (sub : Nested) (level : Nat) (left : Node) : Parse (Progress Node Node) := do
  let k ← peekKind
  if k == .op .increment || k == .op .decrement then return .again (← increment left)
  splitNegative
  let t ← peek
  if Binding.ofKind t.kind ≤ level then return .done left
  match continuation? sub left t.kind with
  | some rule => return .again (← rule)
  | none => Parse.failToken .noRule t (.entry .cannotFollow [.text t.describe])

include hsub

theorem runs_climbStep (level : Nat) (hleft : d.Stands left) :
    d.Runs goesOn s (climbStep sub level left) (leadsTo d.Stands d.Stands) := by
  refine .ask (.ite (fun hk => ?_) fun _ => ?_)
  · have hplain : s.next.kind.plain = true := by
      rcases Bool.or_eq_true_iff.mp hk with hk | hk <;> exact beq_iff_eq.mp hk ▸ rfl
    exact .andThen (eats_increment hleft hplain) fun n u _ hn => .pure rfl hn
  · refine .splitNegative fun u => .ask (.ite (fun _ => .pure rfl hleft) fun _ => ?_)
    split
    next rule hrule =>
      exact .andThen (eats_continuation hsub hleft hrule) fun n v _ hn => .pure rfl hn
    · exact .failNext

theorem keeps_climb (level : Nat) (hl : d.Stands left) : d.Keeps s (climb sub level left) d.Stands :=
  .loop (fun _ _ hleft => runs_climbStep hsub level hleft) hl

omit hsub

/-! ## Definitions -/

theorem keeps_definitions {items : List Node} (ht : d.Place token.pos) (h : d.AllStand items) :
    d.Keeps s (match definitionsOf items with
      | .ok ds => return .varDef token (ds.map Prod.fst) (ds.map Prod.snd)
      | .error n => failNode n (.entry .invalidVarTarget [.text n.text])) d.Stands := by
  split
  next ds hds =>
    have hstand := stand_definitionsOf h hds
    refine .pure rfl (stands_named ht rfl (List.forall_mem_map.mpr fun c hc => (hstand c hc).1) fun m hm => ?_)
    obtain ⟨v, hv, hvm⟩ := List.mem_filterMap.mp hm
    obtain ⟨c, hc, rfl⟩ := List.mem_map.mp hv
    exact (hstand c hc).2 m hvm
  next hn => exact .failNode (h _ (mem_of_definitionsOf hn))

include hsub

theorem eats_varDefinition (hk : s.next.kind.plain = true) : d.Eats s (varDefinition sub) d.Stands := by
  refine Runs.advance hk fun t hplace => (hsub.keeps _).bind fun expr u _ hexpr => ?_
  split
  · exact keeps_definitions hplace fun m hm => hexpr.child hm
  · exact keeps_definitions hplace (allStand_single hexpr)

omit hsub

theorem keeps_functionHead (hn : d.Stands n) :
    d.Keeps s (functionHead n) fun head => d.Name head.1.token ∧ d.AllStand head.2 := by
  unfold functionHead
  split
  · refine .ite (fun _ => .pure rfl ⟨?_, ?_⟩) fun _ => .failNode (hn.child List.mem_cons_self)
    · exact name_ident (hn.child List.mem_cons_self)
    · exact fun m hm => hn.child (List.mem_cons_of_mem _ hm)
  · exact .failNode (hn.child List.mem_cons_self)
  · exact .failNode hn

theorem names_head (hname : d.Name name.token) (hps : d.Named ps) : ∀ i ∈ name :: ps.map (·.name), d.Name i.token :=
  List.forall_mem_cons.mpr ⟨hname, List.forall_mem_map.mpr hps⟩

theorem stands_functionNode {arrow : Bool} (ht : d.Place token.pos) (hname : d.Name name.token) (hps : d.Named ps)
    (hbody : d.AllStand body.items) : d.Stands (functionNode inClass token name ps ls body arrow) := by
  unfold functionNode
  split
  · exact stands_named ht rfl (names_head hname hps) hbody
  · exact stands_named ht rfl (names_head hname hps) hbody

include hsub

theorem keeps_namedFunction {head : Node} (ht : d.Place token.pos) (hhead : d.Stands head) :
    d.Keeps s (namedFunction sub token inClass head) d.Stands := by
  refine (keeps_functionHead hhead).bind fun parts t _ hparts => ?_
  obtain ⟨name, args⟩ := parts
  refine (keeps_params hparts.2).bind fun ps t _ hps => ?_
  refine keeps_functionLabels.bind fun ls t _ _ => .ask ?_
  refine .ite (fun hk => ?_) fun _ => .ite (fun _ => ?_) fun _ => ?_
  · refine .advance (beq_iff_eq.mp hk ▸ rfl) fun u hplace => ?_
    refine (hsub.keeps _).bind fun value v _ hvalue => .pure rfl ?_
    exact stands_functionNode ht hparts.1 hps (allStand_arrowBody hplace hvalue)
  · exact (eats_block hsub).eats.bind fun body u _ hbody =>
      .pure rfl (stands_functionNode ht hparts.1 hps hbody.2)
  · refine .ask (.ite (fun _ => .pure rfl ?_) fun _ => .failNext)
    exact stands_named ht rfl (names_head hparts.1 hps) allStand_nil

theorem keeps_lambdaFunction {items : List Node} (ht : d.Place token.pos)
    (hitems : d.AllStand items) : d.Keeps s (lambdaFunction sub token items) d.Stands := by
  refine (keeps_params hitems).bind fun ps t _ hps => ?_
  refine keeps_functionLabels.bind fun ls t _ _ => .ask (.ite (fun hk => ?_) fun _ => ?_)
  · refine .advance (beq_iff_eq.mp hk ▸ rfl) fun u hplace => ?_
    refine (hsub.keeps _).bind fun value v _ hvalue => .pure rfl ?_
    exact stands_lambda ht hps (allStand_arrowBody hplace hvalue)
  · exact (eats_block hsub).eats.bind fun body u _ hbody => .pure rfl (stands_lambda ht hps hbody.2)

theorem eats_function (hk : s.next.kind.plain = true) : d.Eats s (function sub) d.Stands := by
  refine Runs.advance hk fun t hplace => Runs.ask ((hsub.keeps _).bind fun head u _ hhead => ?_)
  split
  · refine .pure rfl (stands_lambda hplace ?_ fun m hm => hhead.child hm)
    exact fun p hp => hhead.name (List.mem_map.mpr ⟨p, hp, rfl⟩)
  · refine (keeps_functionHead (hhead.child List.mem_cons_self)).bind fun parts v _ hparts => ?_
    refine (keeps_params hparts.2).bind fun ps w _ hps => .pure rfl ?_
    refine stands_functionNode hplace hparts.1 hps (allStand_arrowBody (hhead.arrow rfl) ?_)
    exact hhead.child (List.mem_cons_of_mem _ List.mem_cons_self)
  · exact keeps_namedFunction hsub hplace hhead
  · refine keeps_lambdaFunction hsub hplace (allStand_itemsOf fun n hn => ?_)
    exact hhead.child (Option.mem_toList.mpr hn)
  · exact .failNode hhead

/-- The body of a class with its braces. -/
theorem eats_classBody (hk : s.next.kind = .opening .brace) :
    d.Eats s (do let opener ← advance; inBrackets true (groupBody sub opener .brace)) d.GroupStands := by
  intro hs
  rw [advance_bind]
  exact outcome_inBrackets hs hk fun t => closes_groupBody hsub (d.next hs) .brace

theorem eats_classDefinition (hk : s.next.kind.plain = true) : d.Eats s (classDefinition sub) d.Stands := by
  refine Runs.advance hk fun t hplace => Runs.ask (Runs.ite (fun hname => ?_) fun _ => Runs.failNext)
  refine (eats_identifier (beq_iff_eq.mp hname)).eats.bind fun name u _ ⟨_, hspelled⟩ => ?_
  have hnames : ∀ i ∈ [name], d.Name i.token := List.forall_mem_singleton.mpr hspelled
  refine .ask (.ite (fun _ => .pure rfl (stands_named hplace rfl hnames allStand_nil)) fun _ => ?_)
  refine .ask (.ite (fun hopen => ?_) fun _ => .failNext)
  rw [← andThen_assoc]
  exact .andThen (eats_classBody hsub (beq_iff_eq.mp hopen)) fun g v _ hg =>
    .pure rfl (stands_named hplace rfl hnames hg.items)

/-! ## Control flow -/

theorem eats_testOf : d.Eats s (testOf sub keyword) d.Stands := by
  refine .ask (.ite (fun hk => ?_) fun _ => .failNext)
  refine .andThen (eats_group hsub (beq_iff_eq.mp hk)) fun g t _ hg => ?_
  have hitems := hg.items
  split
  next test heq => exact .pure rfl (hitems test (heq ▸ List.mem_singleton.mpr rfl))
  · exact .failNode hg.node

omit hsub

/-- A test with what it guards, which begins where errors may be told. -/
def ConditionStands (d : Discipline) (c : Condition) : Prop :=
  d.Place c.keyword.pos ∧ d.AllStand (c.test :: c.body.items)

include hsub

theorem eats_condition (hk : d.Place keyword.pos) : d.Eats s (condition sub keyword) d.ConditionStands :=
  .andThen (eats_testOf hsub) fun _ _ _ htest => (eats_block hsub).eats.bind fun _ _ _ hbody =>
    .pure rfl ⟨hk, hbody.2.cons htest⟩

omit hsub

/-- The tests of a branch, of which there is one, begin where errors may be told. -/
def TestsStand (d : Discipline) (tests : List Condition) : Prop :=
  tests ≠ [] ∧ ∀ c ∈ tests, d.ConditionStands c

theorem stands_branch {done : List Condition} {otherwise : Option Block} (h : d.TestsStand done)
    (hotherwise : ∀ b, otherwise = some b → d.AllStand b.items) : d.Stands (.branch done.reverse otherwise) := by
  refine stands_node ?_ rfl fun m hm => ?_
  · cases hr : done.reverse with
    | nil => exact absurd (List.reverse_eq_nil_iff.mp hr) h.1
    | cons c cs => exact (h.2 c (List.mem_reverse.mp (hr ▸ List.mem_cons_self))).1
  · rcases List.mem_append.mp hm with hm | hm
    · obtain ⟨c, hc, hm⟩ := List.mem_flatMap.mp hm
      exact (h.2 c (List.mem_reverse.mp hc)).2 m hm
    · cases otherwise with
      | none => exact absurd hm List.not_mem_nil
      | some b => exact hotherwise b rfl m hm

/-- The first token behind line breaks, if it continues a branch. -/
theorem next_pastNewlines (ht : d.Inv t)
    (h : ((t.rest.dropWhile (·.kind == .newline)).headD t.last).kind = .keyword k) :
    pastNewlines t.rest ≠ [] ∧ ({ t with rest := pastNewlines t.rest } : ParseState).next.kind = .keyword k := by
  refine ⟨fun he => ?_, h⟩
  unfold pastNewlines at he
  rw [he] at h
  have hlast := d.eof ht
  simp [hlast] at h

/-- What is done with one further test of a branch. -/
def branchStep (sub : Nested) (done : List Condition) : Parse (Progress (List Condition) Node) := do
  let k ← kindPastNewlines
  if k == .keyword .elseCase then
    skipNewlines
    let _ ← Parse.advance
    let otherwise ← block sub
    return .done (.branch done.reverse (some otherwise))
  else if k == .keyword .elifTest then
    skipNewlines
    let c ← condition sub (← Parse.advance)
    return .again (c :: done)
  else return .done (.branch done.reverse none)

include hsub

theorem runs_branchStep {done : List Condition} (hdone : d.TestsStand done) :
    d.Runs goesOn s (branchStep sub done) (leadsTo d.TestsStand d.Stands) := by
  intro hv
  refine Runs.ask (Runs.ite (fun helse => ?_) fun _ => Runs.ite (fun helif => ?_) fun _ => ?_) hv
  · obtain ⟨hne, hnext⟩ := next_pastNewlines hv (beq_iff_eq.mp helse)
    refine Runs.skipNewlines (.inr hne) (Runs.advance (hnext ▸ rfl) fun w _ => ?_)
    refine (eats_block hsub).eats.bind fun b x _ hb => .pure rfl (stands_branch hdone ?_)
    exact fun b' hb' => Option.some.inj hb' ▸ hb.2
  · obtain ⟨hne, hnext⟩ := next_pastNewlines hv (beq_iff_eq.mp helif)
    refine Runs.skipNewlines (.inr hne) (Runs.advance (hnext ▸ rfl) fun w hkeyword => ?_)
    refine (eats_condition hsub hkeyword).eats.bind fun c x _ hc => .pure rfl ⟨nofun, ?_⟩
    exact List.forall_mem_cons.mpr ⟨hc, hdone.2⟩
  · exact .pure rfl (stands_branch hdone nofun)

section
variable (hk : s.next.kind.plain = true)
include hk

theorem eats_branch : d.Eats s (branch sub) d.Stands := by
  refine Runs.advance hk fun t hplace => ?_
  refine (eats_condition hsub hplace).eats.bind fun first u _ hfirst => ?_
  exact .loop (fun _ _ hdone => runs_branchStep hsub hdone) ⟨nofun, by simpa using hfirst⟩

theorem eats_whileLoop : d.Eats s (whileLoop sub) d.Stands := by
  refine Runs.advance hk fun t hplace => (eats_testOf hsub).eats.bind fun test u _ htest => ?_
  refine (eats_block hsub).eats.bind fun body v _ hbody => .pure rfl ?_
  exact stands_node hplace rfl (hbody.2.cons htest)

theorem eats_forLoop : d.Eats s (forLoop sub) d.Stands := by
  refine Runs.advance hk fun t hplace => Runs.ask (Runs.ite (fun hopen => ?_) fun _ => Runs.failNext)
  refine (eats_group hsub (beq_iff_eq.mp hopen)).eats.bind fun g u _ hg => ?_
  split
  next opener closer init test update heq =>
    have hparts : d.AllStand [init, test, update] := fun m hm => (hg.2 _ heq).child hm
    refine (eats_block hsub).eats.bind fun body v _ hbody => .pure rfl (stands_node hplace rfl ?_)
    exact List.forall_mem_append.mpr ⟨hparts, hbody.2⟩
  · exact .failNode hg.node

theorem eats_returnFrom : d.Eats s (returnFrom sub) d.Stands := by
  refine Runs.advance hk fun t hplace => Runs.ask (Runs.ite (fun _ => ?_) fun _ => ?_)
  · exact .pure rfl (stands_leaf hplace rfl rfl)
  · exact (hsub.keeps _).bind fun n u _ hn => .pure rfl (stands_node hplace rfl (allStand_single hn))

end

omit hsub

theorem eats_importFile (hk : s.next.kind.plain = true) : d.Eats s importFile d.Stands := by
  refine Runs.advance hk fun t hplace => Runs.ask (Runs.ite (fun hpath => ?_) fun _ => Runs.failNext)
  exact .advance (beq_iff_eq.mp hpath ▸ rfl) fun u _ => .pure rfl (stands_leaf hplace rfl rfl)

include hsub

theorem eats_ofKeyword (hnext : s.next.kind = .keyword k) : d.Eats s (ofKeyword sub k) d.Stands := by
  have hk : s.next.kind.plain = true := hnext ▸ rfl
  cases k with
  | varDef => exact eats_varDefinition hsub hk
  | funDef => exact eats_function hsub hk
  | classDef => exact eats_classDefinition hsub hk
  | ifTest => exact eats_branch hsub hk
  | elifTest => exact .ask Runs.failNext
  | elseCase => exact .ask Runs.failNext
  | whileLoop => exact eats_whileLoop hsub hk
  | forLoop => exact eats_forLoop hsub hk
  | returnFrom => exact eats_returnFrom hsub hk
  | importFile => exact eats_importFile hk
  | _ => exact eats_leaf hk (fun _ => rfl) (fun _ => rfl) fun _ => rfl

/-! ## Whole expressions -/

theorem eats_beginning (h : beginning? sub s.next.kind = some rule) : d.Eats s rule d.Stands := by
  unfold beginning? at h
  split at h
  next hk =>
    cases h
    refine .andThen (eats_identifier hk) fun name t _ ⟨hplace, hname⟩ => .pure rfl ?_
    exact stands_named hplace rfl (List.forall_mem_singleton.mpr hname) allStand_nil
  next hk =>
    cases h
    exact eats_integer hk
  next hk =>
    cases h
    exact eats_float hk
  next hk =>
    cases h
    exact eats_leaf (hk ▸ rfl) (fun _ => rfl) (fun _ => rfl) fun _ => rfl
  iterate 4
    next hk =>
      cases h
      exact eats_unary hsub (hk ▸ rfl)
  next hk =>
    cases h
    exact .andThen (eats_group hsub hk) fun g t _ hg => .pure rfl hg.node
  next hk =>
    cases h
    exact eats_list hsub hk
  next hk =>
    cases h
    exact eats_braces hsub hk
  next hk =>
    cases h
    exact eats_ofKeyword hsub hk
  · cases h

end

/-- Every expression keeps to every discipline. -/
theorem eats_expression (budget level : Nat) (s : ParseState) : d.Eats s (expression budget level) d.Stands := by
  induction budget generalizing level s with
  | zero => exact .ask Runs.failNext
  | succ budget ih =>
    have hsub : d.EatsNested ⟨expression budget, fun b => synchronize (some b)⟩ := ⟨ih, fun _ => rfl⟩
    refine .ask ?_
    split
    next rule hrule =>
      exact .andThen (eats_beginning hsub hrule) fun n t _ hn => keeps_climb hsub level hn
    · exact .failNext

end Frontend.Parse.Discipline
