import Frontend.Proofs.File.Tree

/-!
# Full paths

The absolute form of a path is a path from the root that is as short as it can be. Such a path is its
own absolute form, so that a file is known by it wherever it is seen from; and where a path leads to is
its absolute form.
-/

namespace Frontend.Path

variable {p q : String} {ps done : List String}
variable {part : String}

/-- A path from the root that is as short as it can be. -/
structure Full (p : String) : Prop where
  absolute : isAbsolute p = true
  clean : clean p = p

/-- A part that a path keeps: a name, and no step back. -/
structure Solid (part : String) : Prop where
  name : part ≠ "" ∧ part ≠ "."
  forward : part ≠ ".."
  whole : '/' ∉ part.toList

/-- The path from the root along some parts. -/
def rooted (ps : List String) : String := "/" ++ Text.joinWith "/" ps

theorem isAbsolute_append (hp : isAbsolute p = true) (q : String) : isAbsolute (p ++ q) = true := by
  unfold isAbsolute at hp ⊢
  cases hc : p.toList with
  | nil => rw [hc] at hp; exact nomatch hp
  | cons c cs => rw [hc] at hp; simpa [hc] using hp

theorem isAbsolute_rooted (ps : List String) : isAbsolute (rooted ps) = true :=
  isAbsolute_append rfl _

theorem ne_empty_of_isAbsolute (hp : isAbsolute p = true) : p ≠ "" := by
  rintro rfl
  exact nomatch hp

/-- Text between separators holds none. -/
theorem not_mem_of_mem_splitAt {cs part : List Char} (h : part ∈ Text.splitAt (· == '/') cs) : '/' ∉ part := by
  induction cs generalizing part with
  | nil =>
    obtain rfl : part = [] := by simpa using h
    exact List.not_mem_nil
  | cons c cs ih =>
    rw [Text.splitAt_cons] at h
    split at h
    · rcases List.mem_cons.mp h with rfl | h
      · exact List.not_mem_nil
      · exact ih h
    next hc =>
      cases hs : Text.splitAt (· == '/') cs with
      | nil => exact absurd hs (Text.splitAt_ne_nil _ cs)
      | cons first rest =>
        rw [hs] at h ih
        rcases List.mem_cons.mp h with rfl | h
        · rintro (_ | ⟨_, hmem⟩)
          · exact hc rfl
          · exact ih List.mem_cons_self hmem
        · exact ih (List.mem_cons_of_mem _ h)

theorem whole_of_mem_parts (h : part ∈ parts p) : (part ≠ "" ∧ part ≠ ".") ∧ '/' ∉ part.toList := by
  obtain ⟨hmem, hkept⟩ := List.mem_filter.mp h
  obtain ⟨cs, hcs, rfl⟩ := List.mem_map.mp hmem
  refine ⟨by simpa using hkept, ?_⟩
  rw [String.toList_ofList]
  exact not_mem_of_mem_splitAt hcs

/-- A path from the root keeps no steps back. -/
theorem forward_of_mem_fold (hdone : ".." ∉ done) (h : part ∈ fold true done ps) :
    part ≠ ".." ∧ (part ∈ done ∨ part ∈ ps) := by
  fun_induction fold true done ps with
  | case1 done =>
    have hmem : part ∈ done := List.mem_reverse.mp h
    exact ⟨fun he => hdone (he ▸ hmem), .inl hmem⟩
  | case2 step rest hstep _ ih =>
    obtain ⟨hne, hmem | hmem⟩ := ih hdone h
    · cases hmem
    · exact ⟨hne, .inr (List.mem_cons_of_mem _ hmem)⟩
  | case3 step rest hstep habs ih => exact absurd rfl habs
  | case4 step rest hstep last before hlast ih =>
    exact absurd (List.mem_cons.mpr (.inl (eq_of_beq hlast).symm)) hdone
  | case5 step rest hstep last before hlast ih =>
    obtain ⟨hne, hmem | hmem⟩ := ih (fun he => hdone (List.mem_cons_of_mem _ he)) h
    · exact ⟨hne, .inl (List.mem_cons_of_mem _ hmem)⟩
    · exact ⟨hne, .inr (List.mem_cons_of_mem _ hmem)⟩
  | case6 done step rest hstep ih =>
    have hdone' : ".." ∉ step :: done := by
      rintro (_ | ⟨_, he⟩)
      · exact hstep rfl
      · exact hdone he
    obtain ⟨hne, hmem | hmem⟩ := ih hdone' h
    · rcases List.mem_cons.mp hmem with rfl | hmem
      · exact ⟨hne, .inr List.mem_cons_self⟩
      · exact ⟨hne, .inl hmem⟩
    · exact ⟨hne, .inr (List.mem_cons_of_mem _ hmem)⟩

theorem solid_of_mem_fold (h : part ∈ fold true [] (parts p)) : Solid part := by
  obtain ⟨hne, hmem | hmem⟩ := forward_of_mem_fold List.not_mem_nil h
  · exact nomatch hmem
  · obtain ⟨hname, hwhole⟩ := whole_of_mem_parts hmem
    exact ⟨hname, hne, hwhole⟩

theorem fold_of_forward (h : ∀ part ∈ ps, part ≠ "..") (done : List String) :
    fold true done ps = done.reverse ++ ps := by
  induction ps generalizing done with
  | nil => simp [fold]
  | cons part ps ih =>
    have hpart : (part == "..") = false := beq_eq_false_iff_ne.mpr (h part List.mem_cons_self)
    have htail := ih (fun q hq => h q (List.mem_cons_of_mem _ hq)) (part :: done)
    rw [fold.eq_def]
    simp only [hpart, Bool.false_eq_true, if_false]
    rw [htail]
    simp

/-! ## Parts -/

/-- A slash between two paths stands between their parts. -/
theorem parts_append (p q : String) : parts (p ++ "/" ++ q) = parts p ++ parts q := by
  have cut : Text.splitOn '/' (p ++ "/" ++ q) = Text.splitOn '/' p ++ Text.splitOn '/' q := by
    unfold Text.splitOn
    obtain hf | ⟨init, last, hf⟩ := (Text.splitAt (· == '/') p.toList).eq_nil_or_concat
    · exact absurd hf (Text.splitAt_ne_nil _ _)
    · rw [List.concat_eq_append] at hf
      have slash : Text.splitAt (· == '/') ("/" ++ q).toList =
          [] :: Text.splitAt (· == '/') q.toList := by
        rw [String.toList_append, show "/".toList = ['/'] from rfl, List.singleton_append,
          Text.splitAt_cons, if_pos (beq_self_eq_true _)]
      rw [String.append_assoc, String.toList_append, Text.splitAt_append hf slash, hf]
      simp
  unfold parts
  rw [cut, List.filter_append]

theorem Solid.parts_eq (h : Solid part) : parts part = [part] := by
  have cut : Text.splitAt (· == '/') part.toList = [part.toList] :=
    Text.splitAt_eq_singleton fun c hc => beq_eq_false_iff_ne.mpr fun he => h.whole (he ▸ hc)
  simp [parts, Text.splitOn, cut, h.name]

theorem parts_joinWith (h : ∀ part ∈ ps, Solid part) : parts (Text.joinWith "/" ps) = ps := by
  induction ps with
  | nil => rfl
  | cons part ps ih =>
    have hpart := (h part List.mem_cons_self).parts_eq
    cases ps with
    | nil => simpa [Text.joinWith] using hpart
    | cons next rest =>
      have tail := ih fun q hq => h q (List.mem_cons_of_mem _ hq)
      have joined : Text.joinWith "/" (part :: next :: rest) =
          part ++ "/" ++ Text.joinWith "/" (next :: rest) := by
        simp [Text.joinWith, String.intercalate_cons_cons]
      rw [joined, parts_append, hpart, tail]
      rfl

/-- The parts of a path from the root that was joined from them. -/
theorem parts_rooted (h : ∀ part ∈ ps, Solid part) : parts (rooted ps) = ps :=
  (parts_append "" _).trans (parts_joinWith h)

/-! ## Shortest paths -/

theorem clean_of_isAbsolute (h : isAbsolute p = true) : clean p = rooted (fold true [] (parts p)) := by
  unfold clean
  simp only [h, if_true]
  rfl

theorem full_clean (h : isAbsolute p = true) : Full (clean p) := by
  have habs : isAbsolute (clean p) = true := by
    rw [clean_of_isAbsolute h]
    exact isAbsolute_rooted _
  refine ⟨habs, ?_⟩
  have solid : ∀ part ∈ fold true [] (parts p), Solid part := fun _ => solid_of_mem_fold
  rw [clean_of_isAbsolute habs, clean_of_isAbsolute h, parts_rooted solid,
    fold_of_forward fun part hmem => (solid part hmem).forward]
  rfl

theorem join_eq_clean (hp : isAbsolute p = true) (hq : q ≠ "") : join [p, q] = clean (p ++ "/" ++ q) := by
  simp [join, ne_empty_of_isAbsolute hp, hq, Text.joinWith]

/-- Seen from the root, the absolute form of a path is full. -/
theorem full_absolute {cwd : String} (hcwd : isAbsolute cwd = true) (p : String) : Full (absolute cwd p) := by
  unfold absolute
  split
  next h => exact full_clean h
  next =>
    by_cases hp : p = ""
    · have hjoin : join [cwd, p] = clean cwd := by
        simp [join, ne_empty_of_isAbsolute hcwd, hp, Text.joinWith]
      rw [hjoin]
      exact full_clean hcwd
    · rw [join_eq_clean hcwd hp]
      exact full_clean (isAbsolute_append (isAbsolute_append hcwd _) _)

/-- A full path is its own absolute form. -/
theorem Full.absolute_eq (h : Full p) (cwd : String) : Path.absolute cwd p = p := by
  rw [Path.absolute, if_pos h.absolute, h.clean]

theorem Full.isEmpty_eq (h : Full p) : p.isEmpty = false := by
  simpa using ne_empty_of_isAbsolute h.absolute

/-! ## Steps along a path -/

/-- Joining a path to one from the root goes on along its parts. -/
theorem join_of_isAbsolute (hp : isAbsolute p = true) (hq : q ≠ "") :
    join [p, q] = rooted (fold true (fold true [] (parts p)).reverse (parts q)) := by
  have habs : isAbsolute (p ++ "/" ++ q) = true := isAbsolute_append (isAbsolute_append hp "/") q
  rw [join_eq_clean hp hq, clean_of_isAbsolute habs, parts_append, fold_append]

/-- A step forward. -/
theorem join_rooted (hps : ∀ x ∈ ps, Solid x) (hpart : Solid part) :
    join [rooted ps, part] = rooted (ps ++ [part]) := by
  have forward : ∀ x ∈ ps ++ [part], x ≠ ".." := by
    intro x hx
    rcases List.mem_append.mp hx with hx | hx
    · exact (hps x hx).forward
    · exact List.mem_singleton.mp hx ▸ hpart.forward
  rw [join_of_isAbsolute (isAbsolute_rooted ps) hpart.name.1, parts_rooted hps, hpart.parts_eq,
    ← fold_append, fold_of_forward forward]
  rfl

theorem dir_append {front : String} (h : '/' ∉ part.toList) :
    dir (front ++ "/" ++ part) = clean (front ++ "/") := by
  have stop : ∀ c ∈ part.toList.reverse, (c != '/') = true := by
    intro c hc
    simp only [bne_iff_ne]
    rintro rfl
    exact h (List.mem_reverse.mp hc)
  have back : (front ++ "/" ++ part).toList.reverse =
      part.toList.reverse ++ '/' :: front.toList.reverse := by simp
  unfold dir splitLast
  dsimp only
  rw [back, List.dropWhile_append_of_pos stop]
  simp

/-- A step back. -/
theorem dir_rooted (hps : ∀ x ∈ ps, Solid x) (hpart : Solid part) : dir (rooted (ps ++ [part])) = rooted ps := by
  have split : ∃ front, rooted (ps ++ [part]) = front ++ "/" ++ part ∧ parts front = ps ∧
      isAbsolute (front ++ "/") = true := by
    cases ps with
    | nil => exact ⟨"", by simp [rooted, Text.joinWith], rfl, rfl⟩
    | cons first rest =>
      refine ⟨rooted (first :: rest), ?_, parts_rooted hps, isAbsolute_append (isAbsolute_rooted _) _⟩
      unfold rooted Text.joinWith
      rw [String.intercalate_append_of_ne_nil (List.cons_ne_nil first rest) (by simp)]
      simp [String.append_assoc]
  obtain ⟨front, heq, hparts, habs⟩ := split
  have kept : parts (front ++ "/") = ps := by
    have cut := parts_append front ""
    rw [String.append_empty, hparts] at cut
    exact cut.trans (List.append_nil ps)
  rw [heq, dir_append hpart.whole, clean_of_isAbsolute habs, kept, fold_of_forward fun x hx => (hps x hx).forward]
  rfl

end Frontend.Path

namespace Frontend.FileTree

open Frontend.Path

variable {t : FileTree} {p q : String}

theorem walk_eq_ok {done parts : List String} (hdone : ∀ part ∈ done, Solid part)
    (hparts : ∀ part ∈ parts, '/' ∉ part.toList) (h : t.walk (rooted done.reverse) parts = .ok q) :
    q = rooted (fold true done (parts.filter fun s => !s.isEmpty && s != ".")) := by
  induction parts generalizing done with
  | nil =>
    rw [walk] at h
    simpa [fold] using (Except.ok.inj h).symm
  | cons part parts ih =>
    have hrest : ∀ x ∈ parts, '/' ∉ x.toList := fun x hx => hparts x (List.mem_cons_of_mem _ hx)
    rw [walk] at h
    split at h
    · cases h
    · cases h
    split at h
    next hskip =>
      have skipped : (!part.isEmpty && part != ".") = false := by
        simpa [or_iff_not_imp_left] using hskip
      rw [List.filter_cons, skipped]
      exact ih hdone hrest h
    next hskip =>
      have kept : (!part.isEmpty && part != ".") = true := by simpa using hskip
      rw [List.filter_cons, kept, if_pos rfl, fold.eq_def]
      dsimp only
      split at h
      next hback =>
        rw [if_pos hback]
        cases done with
        | nil => exact ih hdone hrest h
        | cons last before =>
          have hlast : (last == "..") = false :=
            beq_eq_false_iff_ne.mpr (hdone last List.mem_cons_self).forward
          have hbefore : ∀ x ∈ before, Solid x := fun x hx => hdone x (List.mem_cons_of_mem _ hx)
          rw [List.reverse_cons, dir_rooted (fun x hx => hbefore x (List.mem_reverse.mp hx))
            (hdone last List.mem_cons_self)] at h
          simp only [hlast, Bool.false_eq_true, if_false]
          exact ih hbefore hrest h
      next hforward =>
        rw [if_neg hforward]
        split at h
        · cases h
        have solid : Solid part :=
          ⟨by simpa using kept, by simpa using hforward, hparts part List.mem_cons_self⟩
        have hdone' : ∀ x ∈ part :: done, Solid x := by
          rintro x (_ | ⟨_, hx⟩)
          · exact solid
          · exact hdone x hx
        rw [join_rooted (fun x hx => hdone x (List.mem_reverse.mp hx)) solid, ← List.reverse_cons] at h
        exact ih hdone' hrest h

/-- A path leads to its absolute form, if it leads anywhere. -/
theorem place?_eq_absolute (hcwd : Full t.cwd) (h : t.place? p = some q) : q = Path.absolute t.cwd p := by
  have hl := locate_eq_ok.mpr h
  have whole : ∀ part ∈ Text.splitOn '/' p, '/' ∉ part.toList := by
    intro part hpart
    obtain ⟨cs, hcs, rfl⟩ := List.mem_map.mp hpart
    rw [String.toList_ofList]
    exact not_mem_of_mem_splitAt hcs
  unfold locate at hl
  unfold Path.absolute
  split at hl
  · cases hl
  next hempty =>
    split at hl
    · cases hl
    split at hl
    · cases hl
    split at hl
    next habs =>
      rw [if_pos habs, clean_of_isAbsolute habs]
      have root : ∀ part ∈ ([] : List String), Solid part := fun _ hx => nomatch hx
      exact walk_eq_ok root whole hl
    next habs =>
      have solid : ∀ x ∈ (fold true [] (parts t.cwd)).reverse, Solid x := fun x hx =>
        solid_of_mem_fold (List.mem_reverse.mp hx)
      have here : t.cwd = rooted (fold true [] (parts t.cwd)).reverse.reverse := by
        rw [List.reverse_reverse]
        exact hcwd.clean.symm.trans (clean_of_isAbsolute hcwd.absolute)
      rw [if_neg habs, join_of_isAbsolute hcwd.absolute (by simpa using hempty)]
      rw [here] at hl
      exact walk_eq_ok solid whole hl

end Frontend.FileTree
