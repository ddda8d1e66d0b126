import Frontend.Proofs.Parse.Items
import Frontend.Proofs.Token.Place

/-!
# Names in parsed programs

Parsing gives well-read trees: a name comes into a tree only from a token that is a name.
-/

namespace Frontend

namespace Parse

variable {P : List Token → Prop} {Name : Token → Prop} {s t : ParseState} {ns : List Node} {n : Node}

/-- What holds of tokens holds of those that are left of them, also where a negative number is taken apart. It tells
what names stand on. -/
structure Lasting (P : List Token → Prop) (Name : Token → Prop) : Prop where
  suffix : ∀ {tokens rest}, rest <:+ tokens → P tokens → P rest
  split : ∀ {tokens}, P tokens → P (splitFirst tokens)
  name : ∀ {t rest}, P (t :: rest) → t.kind = .ident → Name t

/-- A state in front of tokens of which something holds. -/
structure RestHas (P : List Token → Prop) (s : ParseState) : Prop where
  rest : P s.rest
  eof : s.last.kind = .eof

theorem RestHas.of_suffix (h : Lasting P Name) (hs : RestHas P s) (hrest : t.rest <:+ s.rest) (hlast : t.last = s.last) :
    RestHas P t :=
  ⟨h.suffix hrest hs.rest, hlast ▸ hs.eof⟩

theorem RestHas.report (h : Lasting P Name) (hs : RestHas P s) (e : ParseError) : RestHas P (afterReport e s) := by
  obtain ⟨hrest, hlast⟩ := rest_afterReport e s
  exact hs.of_suffix h (hrest ▸ List.suffix_refl _) hlast

/-- Whatever rules read, what lasts holds of the tokens that are left. -/
def lasting (h : Lasting P Name) : Discipline where
  Inv := RestHas P
  Place := fun _ => True
  Name := Name
  Does := fun _ _ _ _ => True
  Opened := fun _ _ => True
  eof := RestHas.eof
  next := fun _ => trivial
  name := fun {s} hs hk => by
    unfold ParseState.next at hk ⊢
    cases hrest : s.rest with
    | nil => simp [hrest, hs.eof] at hk
    | cons t rest => exact h.name (hrest ▸ hs.rest) (by simpa [hrest] using hk)
  stay := fun _ => trivial
  weaken := id
  trans := fun _ _ => trivial
  stuck := fun _ _ => trivial
  pass := fun hs hrest _ => ⟨hs.of_suffix h (hrest ▸ List.suffix_cons _ _) rfl, trivial⟩
  report := fun hs _ => ⟨hs.report h _, trivial⟩
  split := fun hs => ⟨⟨h.split hs.rest, hs.eof⟩, trivial⟩
  calm := fun hs => ⟨⟨hs.rest, hs.eof⟩, trivial⟩
  skip := fun hs _ => ⟨hs.of_suffix h (pastNewlines_suffix _) rfl, fun _ _ _ => trivial⟩
  openUp := fun _ _ hs hrest _ => ⟨hs.of_suffix h (hrest ▸ List.suffix_cons _ _) rfl, trivial⟩
  close := fun {_ _ _ _ _ _ _ t _ _} _ _ _ ht _ hclose _ => by
    have hcloser := hclose ▸ pastNewlines_suffix t.rest
    exact ⟨ht.of_suffix h ((List.suffix_cons _ _).trans hcloser) rfl, trivial⟩
  abandon := fun _ _ _ ht _ => ⟨⟨ht.rest, ht.eof⟩, trivial⟩
  resume := fun _ ht _ => ⟨ht.of_suffix h (resumeAt_suffix _ _ _) rfl, trivial, trivial⟩

theorem lasting_classified : Lasting (fun tokens => ∀ t ∈ tokens, t.Classified) fun _ => True where
  suffix := fun hrest h t ht => h t (hrest.subset ht)
  split := fun {tokens} h => by
    rcases splitFirst_cases tokens with hsame | ⟨t, rest, rfl, hnegative, hsplit⟩
    · exact hsame.symm ▸ h
    · obtain ⟨ht, hrest⟩ := List.forall_mem_cons.mp h
      obtain ⟨-, hpositive⟩ := Token.isNumeric_unsigned ht hnegative
      rw [hsplit]
      refine List.forall_mem_cons.mpr ⟨fun h => ?_, List.forall_mem_cons.mpr ⟨fun h => ?_, hrest⟩⟩
      · simp [Token.isNegativeNumber, Token.kind_minus] at h
      · simp [hpositive] at h
  name := fun _ _ => trivial

theorem lasting_spelled : Lasting (fun tokens => ∀ t ∈ tokens, t.Spelled) fun t => Word.Plain t.literal where
  suffix := fun hrest h t ht => h t (hrest.subset ht)
  split := fun {tokens} h => by
    rcases splitFirst_cases tokens with hsame | ⟨t, rest, rfl, -, hsplit⟩
    · exact hsame.symm ▸ h
    · rw [hsplit]
      exact List.forall_mem_cons.mpr ⟨Token.spelled_ofText _ _, List.forall_mem_cons.mpr
        ⟨Token.spelled_ofText _ _, (List.forall_mem_cons.mp h).2⟩⟩
  name := fun h hk => h _ List.mem_cons_self hk

/-- The rules of the grammar take names from tokens that are names. -/
def spelled : Discipline := lasting lasting_spelled

theorem wellRead_of_standing (h : spelled.Stands n) : n.WellRead := by
  induction h with
  | intro _ _ names _ ih => exact .intro names ih

theorem spelled_item (hs : spelled.Inv s) (h : item s = (some ns, t)) : spelled.Inv t ∧ ∀ n ∈ ns, n.WellRead := by
  have hend := spelled.itemEnd hs h
  cases hend with
  | faulty hv => exact ⟨RestHas.of_suffix lasting_spelled hv (resumeAt_suffix _ _ _) rfl, List.forall_mem_nil _⟩
  | read hv _ _ hn => exact ⟨hv, List.forall_mem_singleton.mpr (wellRead_of_standing hn)⟩
  | unexpected hv _ _ hn =>
    refine ⟨?_, List.forall_mem_singleton.mpr (wellRead_of_standing hn)⟩
    exact (RestHas.report lasting_spelled hv _).of_suffix lasting_spelled (resumeAt_suffix _ _ _) rfl

theorem ReadsItems.wellRead (h : ReadsItems s ns t) (hs : spelled.Inv s) : ∀ n ∈ ns, n.WellRead := by
  induction h with
  | ended => exact List.forall_mem_nil _
  | @item s t u ns more _ hitem _ _ ih =>
    have hfront : spelled.Inv s.atItem := RestHas.of_suffix lasting_spelled hs (pastNewlines_suffix _) rfl
    obtain ⟨ht, hns⟩ := spelled_item hfront hitem
    exact List.forall_mem_append.mpr ⟨hns, ih ht⟩

end Parse

namespace Program

/-- The names in a program that was read from a source text are plain words. -/
theorem wellRead_of_ofSource {src : Source} {file : String} {p : Program}
    (h : Program.ofSource src file = .ok p) : ∀ n ∈ p.body, n.WellRead := by
  unfold ofSource at h
  split at h
  · cases h
  next tokens htokens =>
    dsimp only at h
    split at h
    · cases h
      have hspelled := spelled_of_scan htokens
      obtain ⟨items, t, hreads⟩ := Parse.exists_readsItems (Parse.ready_ofTokens tokens)
      rw [(Parse.parsed_of_reads hreads).1]
      exact hreads.wellRead
        ⟨fun t ht => hspelled t (List.takeWhile_subset _ ht), ParseState.last_ofTokens tokens⟩
    · cases h

end Program

end Frontend
