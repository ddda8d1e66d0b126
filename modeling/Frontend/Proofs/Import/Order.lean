import Mathlib.Data.List.Basic
import Mathlib.Logic.Relation

/-!
# The order of imported files

Files consist of imports of other files and of other parts. Where a file is imported for the first time, its
parts take the place of the import; later imports of it stand for nothing, and an import of a file that is not
at its end yet ends everything. What comes of this is known: an end of this kind comes exactly when some cycle of
imports can be reached, and otherwise every file that can be reached is gone through once.
-/

namespace Frontend.ImportOrder


/-- A part of a file. -/
inductive Part (α : Type) where
  | link (file : String)
  | plain (a : α)

/-- What happens on the way through files. -/
inductive Event (α : Type) where
  | enter (file : String)
  | plain (file : String) (a : α)
  /-- A file ends, and the one that imported it goes on. -/
  | leave (back : String)

variable {α : Type}

/-- The way through the rest of a file inside of files around it, when some files have been begun already: what
happens, and the files that have been begun in the end, unless an import led back to a file around. -/
inductive Way (contents : String → List (Part α)) :
    List String → List String → String → List (Part α) → List (Event α) → Option (List String) → Prop where
  | done {around begun file} : Way contents around begun file [] [] (some begun)
  | plain {around begun file a parts events result} (rest : Way contents around begun file parts events result) :
      Way contents around begun file (.plain a :: parts) (.plain file a :: events) result
  /-- A file is imported again. -/
  | again {around begun file g parts events result} (hstack : g ∉ file :: around) (hbegun : g ∈ begun)
      (rest : Way contents around begun file parts events result) :
      Way contents around begun file (.link g :: parts) events result
  /-- A file is imported for the first time. -/
  | first {around begun file g parts events events' begun' result} (hstack : g ∉ file :: around) (hbegun : g ∉ begun)
      (inner : Way contents (file :: around) (begun ++ [g]) g (contents g) events (some begun'))
      (rest : Way contents around begun' file parts events' result) :
      Way contents around begun file (.link g :: parts) (.enter g :: events ++ .leave file :: events') result
  /-- A file is imported for the first time, and does not come to its end. -/
  | within {around begun file g parts events} (hstack : g ∉ file :: around) (hbegun : g ∉ begun)
      (inner : Way contents (file :: around) (begun ++ [g]) g (contents g) events none) :
      Way contents around begun file (.link g :: parts) (.enter g :: events) none
  | cycle {around begun file g parts} (hstack : g ∈ file :: around) :
      Way contents around begun file (.link g :: parts) [] none

/-- Follows the parts of a file, when `enter` follows a new file. -/
def follow (enter : List String → List String → String → Option (List (Event α) × Option (List String)))
    (around : List String) (file : String) : List String → List (Part α) → Option (List (Event α) × Option (List String))
  | begun, [] => some ([], some begun)
  | begun, .plain a :: parts => (follow enter around file begun parts).map fun r => (.plain file a :: r.1, r.2)
  | begun, .link g :: parts =>
    if g ∈ file :: around then some ([], none)
    else if g ∈ begun then follow enter around file begun parts
    else (enter (file :: around) (begun ++ [g]) g).bind fun
      | (events, none) => some (.enter g :: events, none)
      | (events, some begun') =>
        (follow enter around file begun' parts).map fun r => (.enter g :: events ++ .leave file :: r.1, r.2)

/-- Follows a file, with imports nested no deeper than a number of files. -/
def way? (contents : String → List (Part α)) :
    Nat → List String → List String → String → Option (List (Event α) × Option (List String))
  | 0, _, _, _ => none
  | n + 1, around, begun, file => follow (way? contents n) around file begun (contents file)

/-- A file imports another one. -/
def Links (contents : String → List (Part α)) (f g : String) : Prop := .link g ∈ contents f

def Reaches (contents : String → List (Part α)) : String → String → Prop := Relation.ReflTransGen (Links contents)

/-- A file from which imports lead back to it. -/
def OnCycle (contents : String → List (Part α)) (f : String) : Prop := Relation.TransGen (Links contents) f f

def plains (parts : List (Part α)) : List α :=
  parts.filterMap fun
    | .plain a => some a
    | .link _ => none

/-- What happens in one file. -/
def within (f : String) : List (Event α) → List α
  | [] => []
  | .plain g a :: events => if g = f then a :: within f events else within f events
  | .enter _ :: events | .leave _ :: events => within f events

variable {contents : String → List (Part α)} {around begun begun' : List String} {file f g : String}
  {parts : List (Part α)} {events events' : List (Event α)} {result : Option (List String)}

theorem within_append : within f (events ++ events') = within f events ++ within f events' := by
  induction events with
  | nil => rfl
  | cons e events ih =>
    cases e with
    | plain g a =>
      rw [List.cons_append, within, within, ih]
      split <;> rfl
    | enter g => exact ih
    | leave g => exact ih

/-! ## There is a way -/

theorem way_of_follow {enter : List String → List String → String → Option (List (Event α) × Option (List String))}
    (henter : ∀ around begun g events result, enter around begun g = some (events, result) →
      Way contents around begun g (contents g) events result)
    (h : follow enter around file begun parts = some (events, result)) :
    Way contents around begun file parts events result := by
  induction parts generalizing begun events result with
  | nil =>
    cases h
    exact .done
  | cons p parts ih =>
    cases p with
    | plain a =>
      obtain ⟨⟨es, r⟩, hrest, ⟨⟩⟩ := Option.map_eq_some_iff.mp h
      exact .plain (ih hrest)
    | link g =>
      rw [follow] at h
      split at h
      next hstack =>
        cases h
        exact .cycle hstack
      next hstack =>
        split at h
        next hbegun => exact .again hstack hbegun (ih h)
        next hbegun =>
          obtain ⟨⟨es, r⟩, hinner, h⟩ := Option.bind_eq_some_iff.mp h
          have hway := henter _ _ _ _ _ hinner
          cases r with
          | none =>
            cases h
            exact .within hstack hbegun hway
          | some begun' =>
            obtain ⟨⟨es', r'⟩, hrest, ⟨⟩⟩ := Option.map_eq_some_iff.mp h
            exact .first hstack hbegun hway (ih hrest)

/-- What is computed is a way. -/
theorem way_of_way? {n : Nat} (h : way? contents n around begun file = some (events, result)) :
    Way contents around begun file (contents file) events result := by
  induction n generalizing around begun file events result with
  | zero => cases h
  | succ n ih => exact way_of_follow (fun _ _ _ _ _ hinner => ih hinner) h

/-- The files of a set that have not been begun. -/
def left (files begun : List String) : List String := files.filter (· ∉ begun)

theorem begun_subset (h : Way contents around begun file parts events (some begun')) : begun ⊆ begun' := by
  generalize hresult : some begun' = result at h
  induction h generalizing begun' with
  | done =>
    cases hresult
    exact List.Subset.refl _
  | plain rest ih => exact ih hresult
  | again _ _ rest ih => exact ih hresult
  | first _ _ inner rest ih ih' =>
    exact List.Subset.trans (List.subset_append_left _ _) (List.Subset.trans (ih rfl) (ih' hresult))
  | within => cases hresult
  | cycle => cases hresult

/-- When one more file has been begun, fewer files are left. -/
theorem length_left_lt {files : List String} (hg : g ∈ files) (hnew : g ∉ begun) (hsub : begun ++ [g] ⊆ begun') :
    (left files begun').length < (left files begun).length := by
  have hleft : left files begun' = (left files begun).filter (· ∉ begun') := by
    unfold left
    rw [List.filter_filter]
    refine List.filter_congr fun f _ => ?_
    by_cases hf : f ∈ begun
    · simp [hf, hsub (List.mem_append_left _ hf)]
    · simp [hf]
  rw [hleft, List.length_filter_lt_length_iff_exists]
  refine ⟨g, List.mem_filter.mpr ⟨hg, by simpa using hnew⟩, ?_⟩
  simpa using hsub (List.mem_append_right _ List.mem_cons_self)

/-- However the files of a finite set import one another, there is a way through them. -/
theorem exists_way {files : List String} (hclosed : ∀ f ∈ files, ∀ g, Links contents f g → g ∈ files)
    (hparts : ∀ g, .link g ∈ parts → g ∈ files) (around begun : List String) (file : String) :
    ∃ events result, Way contents around begun file parts events result := by
  obtain ⟨n, hn⟩ : ∃ n, (left files begun).length ≤ n := ⟨_, Nat.le_refl _⟩
  -- on how many files are left, and for these on the parts of the file at hand
  induction n generalizing around begun file parts with
  | zero =>
    have hall : ∀ g ∈ files, g ∈ begun := by
      intro g hg
      by_contra hnew
      have hlt := length_left_lt hg hnew (List.Subset.refl _)
      omega
    induction parts with
    | nil => exact ⟨_, _, .done⟩
    | cons p parts ih =>
      obtain ⟨events, result, hway⟩ := ih fun g hg => hparts g (List.mem_cons_of_mem _ hg)
      cases p with
      | plain a => exact ⟨_, _, .plain hway⟩
      | link g =>
        by_cases hstack : g ∈ file :: around
        · exact ⟨_, _, .cycle hstack⟩
        · exact ⟨_, _, .again hstack (hall g (hparts g List.mem_cons_self)) hway⟩
  | succ n ih =>
    induction parts generalizing begun with
    | nil => exact ⟨_, _, .done⟩
    | cons p parts ihparts =>
      have hrest : ∀ g, .link g ∈ parts → g ∈ files := fun g hg => hparts g (List.mem_cons_of_mem _ hg)
      cases p with
      | plain a =>
        obtain ⟨events, result, hway⟩ := ihparts hrest begun hn
        exact ⟨_, _, .plain hway⟩
      | link g =>
        have hg : g ∈ files := hparts g List.mem_cons_self
        by_cases hstack : g ∈ file :: around
        · exact ⟨_, _, .cycle hstack⟩
        by_cases hbegun : g ∈ begun
        · obtain ⟨events, result, hway⟩ := ihparts hrest begun hn
          exact ⟨_, _, .again hstack hbegun hway⟩
        · have hlt := length_left_lt hg hbegun (List.Subset.refl _)
          obtain ⟨events, result, hinner⟩ := ih (hclosed g hg) (file :: around) (begun ++ [g]) g (by omega)
          cases result with
          | none => exact ⟨_, _, .within hstack hbegun hinner⟩
          | some begun' =>
            have hlt' := length_left_lt hg hbegun (begun_subset hinner)
            obtain ⟨events', result, hway⟩ := ihparts hrest begun' (by omega)
            exact ⟨_, _, .first hstack hbegun hinner hway⟩

/-! ## Cycles -/

/-- A way that an import of a file around ends has come to a cycle. -/
theorem onCycle_of_none (h : Way contents around begun file parts events none) (hparts : parts ⊆ contents file)
    (haround : ∀ f ∈ around, Reaches contents f file) : ∃ g, Reaches contents file g ∧ OnCycle contents g := by
  generalize hresult : (none : Option (List String)) = result at h
  induction h with
  | done => cases hresult
  | plain rest ih => exact ih (List.Subset.trans (List.subset_cons_self _ _) hparts) haround hresult
  | again _ _ rest ih => exact ih (List.Subset.trans (List.subset_cons_self _ _) hparts) haround hresult
  | first _ _ inner rest _ ih => exact ih (List.Subset.trans (List.subset_cons_self _ _) hparts) haround hresult
  | @within around begun file g parts events _ _ inner ih =>
    have hlink : Links contents file g := hparts List.mem_cons_self
    have haround' : ∀ f ∈ file :: around, Reaches contents f g :=
      List.forall_mem_cons.mpr ⟨.single hlink, fun f hf => (haround f hf).tail hlink⟩
    obtain ⟨c, hreach, hcycle⟩ := ih (List.Subset.refl _) haround' rfl
    exact ⟨c, .head hlink hreach, hcycle⟩
  | @cycle around begun file g parts hstack =>
    have hlink : Links contents file g := hparts List.mem_cons_self
    refine ⟨file, .refl, ?_⟩
    rcases List.mem_cons.mp hstack with rfl | hg
    · exact .single hlink
    · exact .head' hlink (haround g hg)

/-- From a file of this kind no cycle can be reached. -/
def Grounded (contents : String → List (Part α)) (f : String) : Prop :=
  Acc (fun a b => Links contents b a) f

theorem Grounded.not_onCycle (h : Grounded contents f) : ¬ ∃ g, Reaches contents f g ∧ OnCycle contents g := by
  induction h with
  | intro f _ ih =>
    rintro ⟨g, hreach, hcycle⟩
    rcases Relation.ReflTransGen.cases_head hreach with rfl | ⟨c, hlink, hreach⟩
    · obtain ⟨c, hlink, hback⟩ := Relation.TransGen.head'_iff.mp hcycle
      exact ih c hlink ⟨f, hback, hcycle⟩
    · exact ih c hlink ⟨g, hreach, hcycle⟩

/-- A way to the end has gone through every file that it began, or still stands in it. -/
theorem grounded_of_some (h : Way contents around begun file parts events (some begun'))
    (hbegun : ∀ f ∈ begun, f ∉ file :: around → Grounded contents f) :
    (∀ f ∈ begun', f ∉ file :: around → Grounded contents f) ∧ ∀ g, .link g ∈ parts → Grounded contents g := by
  generalize hresult : some begun' = result at h
  induction h generalizing begun' with
  | done =>
    cases hresult
    exact ⟨hbegun, fun g hg => absurd hg List.not_mem_nil⟩
  | plain rest ih =>
    obtain ⟨hall, hlinks⟩ := ih hbegun hresult
    exact ⟨hall, fun g hg => hlinks g (by simpa using hg)⟩
  | again hstack hmem rest ih =>
    obtain ⟨hall, hlinks⟩ := ih hbegun hresult
    refine ⟨hall, fun g hg => ?_⟩
    rcases List.mem_cons.mp hg with hg | hg
    · cases hg
      exact hbegun _ hmem hstack
    · exact hlinks g hg
  | @first around begun file g parts events events' begun₁ result hstack hnew inner rest ih ih' =>
    have hbefore : ∀ f ∈ begun ++ [g], f ∉ g :: file :: around → Grounded contents f := by
      intro f hf hout
      rw [List.mem_cons, not_or] at hout
      have hold : f ∈ begun := (List.mem_append.mp hf).resolve_right fun h => hout.1 (List.mem_singleton.mp h)
      exact hbegun f hold hout.2
    obtain ⟨hall, hlinks⟩ := ih hbefore rfl
    have hg : Grounded contents g := .intro g hlinks
    have hmiddle : ∀ f ∈ begun₁, f ∉ file :: around → Grounded contents f := by
      intro f hf hout
      by_cases hfg : f = g
      · exact hfg ▸ hg
      · exact hall f hf (by simpa [hfg] using hout)
    obtain ⟨hall', hlinks'⟩ := ih' hmiddle hresult
    refine ⟨hall', fun c hc => ?_⟩
    rcases List.mem_cons.mp hc with hc | hc
    · cases hc
      exact hg
    · exact hlinks' c hc
  | within => cases hresult
  | cycle => cases hresult

/-! ## Every file once -/

/-- A way has begun new files and gone through them: in each of them, and in the rest of the file at hand,
everything has happened once and in order. The new files are those to which imports lead from here. -/
structure Through (contents : String → List (Part α)) (begun : List String) (file : String) (parts : List (Part α))
    (events : List (Event α)) (new : List String) : Prop where
  nodup : new.Nodup
  fresh : ∀ f ∈ new, f ∉ begun
  here : within file events = plains parts
  whole : ∀ f ∈ new, within f events = plains (contents f)
  nowhere : ∀ f ∉ new, f ≠ file → within f events = []
  links : ∀ g, .link g ∈ parts → g ∈ begun ++ new
  closed : ∀ f ∈ new, ∀ g, Links contents f g → g ∈ begun ++ new
  reached : ∀ f ∈ new, ∃ g, .link g ∈ parts ∧ Reaches contents g f

variable {new new' : List String} {a : α}

theorem Through.plain (h : Through contents begun file parts events new) (hfile : file ∈ begun) :
    Through contents begun file (.plain a :: parts) (.plain file a :: events) new where
  nodup := h.nodup
  fresh := h.fresh
  here := by
    rw [within, if_pos rfl, h.here]
    rfl
  whole f hf := by
    have hne : file ≠ f := fun heq => h.fresh f hf (heq ▸ hfile)
    rw [within, if_neg hne, h.whole f hf]
  nowhere f hf hne := by
    rw [within, if_neg hne.symm, h.nowhere f hf hne]
  links g hg := h.links g (by simpa using hg)
  closed := h.closed
  reached f hf := by
    obtain ⟨g, hg, hreach⟩ := h.reached f hf
    exact ⟨g, List.mem_cons_of_mem _ hg, hreach⟩

theorem Through.again (h : Through contents begun file parts events new) (hg : g ∈ begun) :
    Through contents begun file (.link g :: parts) events new where
  nodup := h.nodup
  fresh := h.fresh
  here := h.here
  whole := h.whole
  nowhere := h.nowhere
  links c hc := by
    rcases List.mem_cons.mp hc with hc | hc
    · cases hc
      exact List.mem_append_left _ hg
    · exact h.links c hc
  closed := h.closed
  reached f hf := by
    obtain ⟨c, hc, hreach⟩ := h.reached f hf
    exact ⟨c, List.mem_cons_of_mem _ hc, hreach⟩

/-- The way through a new file, and then on behind it. -/
theorem Through.first (h : Through contents (begun ++ [g]) g (contents g) events new)
    (h' : Through contents (begun ++ [g] ++ new) file parts events' new') (hg : g ∉ begun) (hfile : file ∈ begun) :
    Through contents begun file (.link g :: parts) (.enter g :: events ++ .leave file :: events') (g :: new ++ new') := by
  have hout : ∀ f ∈ new, f ∉ begun ∧ f ≠ g := by
    intro f hf
    have hfresh := h.fresh f hf
    rw [List.mem_append, not_or, List.mem_singleton] at hfresh
    exact hfresh
  have hout' : ∀ f ∈ new', f ∉ begun ∧ f ≠ g ∧ f ∉ new := by
    intro f hf
    have hfresh := h'.fresh f hf
    simp only [List.mem_append, List.mem_singleton, not_or] at hfresh
    exact ⟨hfresh.1.1, hfresh.1.2, hfresh.2⟩
  have hne : file ≠ g := fun heq => hg (heq ▸ hfile)
  have hsplit : ∀ f, within f (.enter g :: events ++ .leave file :: events') = within f events ++ within f events' := by
    intro f
    rw [within_append]
    rfl
  have hassoc : begun ++ [g] ++ new ++ new' = begun ++ (g :: new ++ new') := by simp
  have hmem : ∀ c, c ∈ begun ++ [g] ++ new → c ∈ begun ++ (g :: new ++ new') := fun c hc =>
    hassoc ▸ List.mem_append_left _ hc
  refine ⟨?_, ?_, ?_, ?_, ?_, ?_, ?_, ?_⟩
  · rw [List.cons_append, List.nodup_cons, List.nodup_append]
    refine ⟨?_, h.nodup, h'.nodup, ?_⟩
    · rw [List.mem_append, not_or]
      exact ⟨fun hmem => (hout g hmem).2 rfl, fun hmem => (hout' g hmem).2.1 rfl⟩
    · rintro c hc _ hc' rfl
      exact (hout' c hc').2.2 hc
  · intro f hf
    rcases List.mem_append.mp hf with hf | hf
    · rcases List.mem_cons.mp hf with rfl | hf
      · exact hg
      · exact (hout f hf).1
    · exact (hout' f hf).1
  · rw [hsplit, h'.here, h.nowhere file (fun hmem => (hout file hmem).1 hfile) hne]
    rfl
  · intro f hf
    rw [hsplit]
    rcases List.mem_append.mp hf with hf | hf
    · have hlater : within f events' = [] := by
        have hearlier : f ∈ begun ++ [g] ++ new := by
          rcases List.mem_cons.mp hf with rfl | hf
          · exact List.mem_append_left _ (List.mem_append_right _ List.mem_cons_self)
          · exact List.mem_append_right _ hf
        refine h'.nowhere f (fun hmem => h'.fresh f hmem hearlier) ?_
        rintro rfl
        rcases List.mem_cons.mp hf with heq | hf
        · exact hne heq
        · exact (hout f hf).1 hfile
      rw [hlater, List.append_nil]
      rcases List.mem_cons.mp hf with rfl | hf
      · exact h.here
      · exact h.whole f hf
    · obtain ⟨hbegun, hfg, hfnew⟩ := hout' f hf
      rw [h.nowhere f hfnew hfg, h'.whole f hf, List.nil_append]
  · intro f hf hfile
    simp only [List.cons_append, List.mem_cons, List.mem_append, not_or] at hf
    rw [hsplit, h.nowhere f hf.2.1 hf.1, h'.nowhere f hf.2.2 hfile, List.append_nil]
  · intro c hc
    rcases List.mem_cons.mp hc with hc | hc
    · cases hc
      simp
    · exact hassoc ▸ h'.links c hc
  · intro f hf c hc
    rcases List.mem_append.mp hf with hf | hf
    · rcases List.mem_cons.mp hf with rfl | hf
      · exact hmem c (h.links c hc)
      · exact hmem c (h.closed f hf c hc)
    · exact hassoc ▸ h'.closed f hf c hc
  · intro f hf
    rcases List.mem_append.mp hf with hf | hf
    · rcases List.mem_cons.mp hf with rfl | hf
      · exact ⟨f, List.mem_cons_self, .refl⟩
      · obtain ⟨c, hc, hreach⟩ := h.reached f hf
        exact ⟨g, List.mem_cons_self, .head hc hreach⟩
    · obtain ⟨c, hc, hreach⟩ := h'.reached f hf
      exact ⟨c, List.mem_cons_of_mem _ hc, hreach⟩

theorem through_of_some (h : Way contents around begun file parts events (some begun')) (hfile : file ∈ begun) :
    ∃ new, begun' = begun ++ new ∧ Through contents begun file parts events new := by
  generalize hresult : some begun' = result at h
  induction h generalizing begun' with
  | done =>
    cases hresult
    exact ⟨[], (List.append_nil _).symm, List.nodup_nil, nofun, rfl, nofun, fun _ _ _ => rfl, nofun, nofun, nofun⟩
  | plain rest ih =>
    obtain ⟨new, rfl, hrest⟩ := ih hfile hresult
    exact ⟨new, rfl, hrest.plain hfile⟩
  | again _ hbegun rest ih =>
    obtain ⟨new, rfl, hrest⟩ := ih hfile hresult
    exact ⟨new, rfl, hrest.again hbegun⟩
  | first hstack hbegun inner rest ih ih' =>
    obtain ⟨new, rfl, hinner⟩ := ih (List.mem_append_right _ List.mem_cons_self) rfl
    obtain ⟨new', rfl, hrest⟩ := ih' (List.mem_append_left _ (List.mem_append_left _ hfile)) hresult
    exact ⟨_, by simp, hinner.first hrest hbegun hfile⟩
  | within => cases hresult
  | cycle => cases hresult

/-! ## The way from an entry file -/

variable {entry : String}

/-- An import of a file around ends the way exactly when a cycle can be reached. -/
theorem eq_none_iff (h : Way contents [] [entry] entry (contents entry) events result) :
    result = none ↔ ∃ g, Reaches contents entry g ∧ OnCycle contents g := by
  refine ⟨?_, fun hcycle => ?_⟩
  · rintro rfl
    exact onCycle_of_none h (List.Subset.refl _) (fun _ hf => absurd hf List.not_mem_nil)
  · cases result with
    | none => rfl
    | some begun =>
      obtain ⟨-, hlinks⟩ := grounded_of_some h fun f hf hout => absurd hf hout
      exact absurd hcycle (Grounded.not_onCycle (.intro entry hlinks))

/-- Otherwise the files that can be reached have been begun once each, and gone through once each. -/
theorem whole_of_some (h : Way contents [] [entry] entry (contents entry) events (some begun)) :
    begun.Nodup ∧ (∀ f, f ∈ begun ↔ Reaches contents entry f) ∧
      ∀ f, within f events = if f ∈ begun then plains (contents f) else [] := by
  obtain ⟨new, rfl, hnew⟩ := through_of_some h List.mem_cons_self
  have hentry : entry ∉ new := fun hmem => hnew.fresh entry hmem List.mem_cons_self
  refine ⟨List.nodup_cons.mpr ⟨hentry, hnew.nodup⟩, fun f => ⟨fun hf => ?_, fun hreach => ?_⟩, fun f => ?_⟩
  · rcases List.mem_cons.mp hf with rfl | hf
    · exact .refl
    · obtain ⟨g, hg, hreach⟩ := hnew.reached f hf
      exact .head hg hreach
  · induction hreach with
    | refl => exact List.mem_cons_self
    | @tail f g _ hlink ih =>
      rcases List.mem_cons.mp ih with rfl | hf
      · exact hnew.links g hlink
      · exact hnew.closed f hf g hlink
  · split
    next hf =>
      rcases List.mem_cons.mp hf with rfl | hf
      · exact hnew.here
      · exact hnew.whole f hf
    next hf =>
      rw [List.singleton_append, List.mem_cons, not_or] at hf
      exact hnew.nowhere f hf.2 hf.1

end Frontend.ImportOrder
