import Frontend.Cache.Basic
import Frontend.Proofs.List

/-!
# Files that are written and removed

What a path leads to is decided by the directories alone, so writing and removing files moves nothing:
a file that is written is read where the path leads, a file that is removed is gone from there, and
every other file stays as it was.
-/

namespace Frontend

namespace FileTree

variable {t t' : FileTree} {p q r text : String}

/-- Two trees with the same directories, seen from the same one. -/
structure SameDirs (t t' : FileTree) : Prop where
  cwd : t'.cwd = t.cwd
  dirs : t'.dirs = t.dirs

theorem SameDirs.refl (t : FileTree) : SameDirs t t := ⟨rfl, rfl⟩

theorem SameDirs.trans {t'' : FileTree} (h : SameDirs t t') (h' : SameDirs t' t'') : SameDirs t t'' :=
  ⟨h'.cwd.trans h.cwd, h'.dirs.trans h.dirs⟩

/-- The place that a path leads to, if it leads anywhere. -/
def place? (t : FileTree) (p : String) : Option String := (t.locate p).toOption

theorem locate_eq_ok : t.locate p = .ok q ↔ t.place? p = some q := by
  unfold place?
  cases t.locate p <;> simp [Except.toOption]

theorem exists_locate_eq_error (h : t.place? p = none) : ∃ e, t.locate p = .error e := by
  unfold place? at h
  cases hl : t.locate p with
  | error e => exact ⟨e, rfl⟩
  | ok q => rw [hl] at h; exact nomatch h

theorem entryAt?_of_dir (h : t.dirs.contains q = true) : t.entryAt? q = some .dir := if_pos h

theorem entryAt?_of_not_dir (h : t.dirs.contains q = false) :
    t.entryAt? q = (t.files.lookup q).map .file := if_neg (by rw [h]; exact Bool.false_ne_true)

/-- Where a walk ends is decided by the directories. -/
theorem toOption_walk (h : SameDirs t t') (here : String) (parts : List String) :
    (t'.walk here parts).toOption = (t.walk here parts).toOption := by
  induction parts generalizing here with
  | nil => rfl
  | cons part parts ih =>
    cases hd : t.dirs.contains here with
    | true =>
      rw [walk, walk, entryAt?_of_dir hd, entryAt?_of_dir (h.dirs ▸ hd)]
      dsimp only
      repeat' split
      all_goals first | exact ih _ | rfl
    | false =>
      -- Whether a file stands there makes a difference for the failure only.
      rw [walk, walk, entryAt?_of_not_dir hd, entryAt?_of_not_dir (h.dirs ▸ hd)]
      cases t.files.lookup here <;> cases t'.files.lookup here <;> rfl

theorem place?_eq (h : SameDirs t t') (p : String) : t'.place? p = t.place? p := by
  unfold place? locate
  rw [h.cwd]
  repeat' split
  all_goals first | exact toOption_walk h _ _ | rfl

/-- What a path leads to is what stands at its place. -/
theorem stat_eq (hq : t.place? p = some q) : t.stat p = match t.entryAt? q with
      | some e => .ok e
      | none => .error .notFound := by
  rw [stat, locate_eq_ok.mpr hq]
  rfl

theorem read?_eq (t : FileTree) (p : String) :
    t.read? p = (t.place? p).bind fun q => if t.dirs.contains q then none else t.files.lookup q := by
  cases hq : t.place? p with
  | none =>
    obtain ⟨e, hl⟩ := exists_locate_eq_error hq
    rw [read?, read, stat, hl]
    rfl
  | some q =>
    rw [read?, read, stat_eq hq, Option.bind_some]
    cases hd : t.dirs.contains q with
    | true => rw [entryAt?_of_dir hd]; rfl
    | false => rw [entryAt?_of_not_dir hd]; cases t.files.lookup q <;> rfl

/-- What is read is the text of the file at the place. -/
theorem read?_eq_some : t.read? p = some text ↔
    ∃ q, t.place? p = some q ∧ t.dirs.contains q = false ∧ t.files.lookup q = some text := by
  rw [read?_eq, Option.bind_eq_some_iff]
  refine exists_congr fun q => and_congr_right fun _ => ?_
  cases t.dirs.contains q <;> simp

/-- Files are what can be read. -/
theorem isFile_eq_isSome (t : FileTree) (p : String) : t.isFile p = (t.read? p).isSome := by
  unfold isFile read? read
  cases t.stat p with
  | error e => rfl
  | ok entry => cases entry <;> rfl

/-- Trees with the same directories have the same text under a path when they have the same file at its
place. -/
theorem read?_congr (h : SameDirs t t') (hfiles : ∀ q, t.place? p = some q → t'.files.lookup q = t.files.lookup q) :
    t'.read? p = t.read? p := by
  rw [read?_eq, read?_eq, place?_eq h, h.dirs]
  cases hp : t.place? p with
  | none => rfl
  | some q => rw [Option.bind_some, Option.bind_some, hfiles q hp]

/-! ## Writing -/

/-- What writing a file does. -/
theorem write_eq_ok (h : t.write p text = .ok t') : ∃ q, t.place? p = some q ∧ t.dirs.contains q = false ∧
      t' = { t with files := (q, text) :: t.files.filter (·.1 != q) } := by
  unfold write at h
  obtain ⟨q, hq, h⟩ := bind_ok h
  split at h
  · exact nomatch h
  next hd =>
    split at h
    · exact nomatch h
    · exact ⟨q, locate_eq_ok.mp hq, by simpa using hd, (Except.ok.inj h).symm⟩

theorem sameDirs_write (h : t.write p text = .ok t') : SameDirs t t' := by
  obtain ⟨q, -, -, rfl⟩ := write_eq_ok h
  exact ⟨rfl, rfl⟩

/-- What is written is read where the path leads, and everything else is as before. -/
theorem read?_write (h : t.write p text = .ok t') (r : String) :
    t'.read? r = if t.place? r = t.place? p then some text else t.read? r := by
  have hs := sameDirs_write h
  obtain ⟨q, hq, hd, rfl⟩ := write_eq_ok h
  split
  next hr => simp only [read?_eq, place?_eq hs, hr, hq, Option.bind_some, hd, lookup_cons_eq]; simp
  next hr =>
    refine read?_congr hs fun q' hq' => ?_
    have hne : q' ≠ q := fun he => hr (by rw [hq', hq, he])
    rw [lookup_cons_eq, if_neg hne, lookup_filter (fun name => name != q)]
    simp [hne]

/-! ## Removing -/

section
variable (hq : t.place? p = some q) (hd : t.dirs.contains q = false)
include hq hd

/-- Removing what is no directory takes a file away, if there is one. -/
theorem drop_eq : SameDirs t (Cache.drop t p) ∧
      ∀ name, (Cache.drop t p).files.lookup name = if name = q then none else t.files.lookup name := by
  unfold Cache.drop remove
  simp only [locate_eq_ok.mpr hq, bind, Except.bind, entryAt?_of_not_dir hd]
  cases hl : t.files.lookup q with
  | none =>
    refine ⟨.refl t, fun name => ?_⟩
    by_cases hn : name = q
    · rw [if_pos hn, hn]
      exact hl
    · rw [if_neg hn]
      rfl
  | some old =>
    refine ⟨⟨rfl, rfl⟩, fun name => ?_⟩
    refine (lookup_filter (fun name => name != q) name t.files).trans ?_
    by_cases hn : name = q <;> simp [hn]

theorem sameDirs_drop :
    SameDirs t (Cache.drop t p) := (drop_eq hq hd).1

/-- A file at another place is not touched by removing one. -/
theorem read?_drop (hr : t.place? r ≠ some q) : (Cache.drop t p).read? r = t.read? r := by
  obtain ⟨hs, hfiles⟩ := drop_eq hq hd
  refine read?_congr hs fun q' hq' => ?_
  rw [hfiles, if_neg]
  rintro rfl
  exact hr hq'

end

/-- A path that leads to a file does not lead to a directory. -/
theorem place?_of_isFile (h : t.isFile p) : ∃ q, t.place? p = some q ∧ t.dirs.contains q = false := by
  rw [isFile_eq_isSome] at h
  obtain ⟨text, h⟩ := Option.isSome_iff_exists.mp h
  obtain ⟨q, hq, hd, -⟩ := read?_eq_some.mp h
  exact ⟨q, hq, hd⟩

/-- Removing files one after another leaves the directories as they are. -/
theorem sameDirs_foldl_drop {paths : List String}
    (h : ∀ p ∈ paths, ∃ q, t.place? p = some q ∧ t.dirs.contains q = false) :
    SameDirs t (paths.foldl Cache.drop t) := by
  induction paths generalizing t with
  | nil => exact .refl t
  | cons p paths ih =>
    obtain ⟨q, hq, hd⟩ := h p List.mem_cons_self
    have hs := sameDirs_drop hq hd
    refine hs.trans (ih fun p' hp' => ?_)
    obtain ⟨q', hq', hd'⟩ := h p' (List.mem_cons_of_mem p hp')
    exact ⟨q', (place?_eq hs p').trans hq', by rw [hs.dirs]; exact hd'⟩

theorem sameDirs_dropCode (t : FileTree) (dir : String) : SameDirs t (Cache.dropCode t dir) :=
  sameDirs_foldl_drop fun _ hp => place?_of_isFile (List.mem_filter.mp hp).2

/-! ## The working directory -/

/-- Making directories changes nothing but which directories there are. -/
theorem exists_makeEach (t : FileTree) (ps : List String) : ∃ dirs, (t.makeEach ps).2 = { t with dirs } := by
  fun_induction makeEach t ps with
  | case1 t => exact ⟨_, rfl⟩
  | case2 t p rest _ ih => exact ih
  | case3 t p rest => exact ⟨_, rfl⟩
  | case4 t p rest => exact ⟨_, rfl⟩
  | case5 t p rest _ _ _ _ ih => exact ih

/-- A file is written once the directories above it are made. -/
theorem exists_write_of_place (h : t.place p text = .ok t') : ∃ dirs, { t with dirs }.write p text = .ok t' := by
  unfold place at h
  simp only [bind, Except.bind] at h
  split at h
  · cases h
  · unfold makeDirs at h
    split at h
    · exact ⟨_, h⟩
    · obtain ⟨dirs, hmade⟩ := exists_makeEach t (stages (Path.dir (Path.absolute t.cwd p)))
      exact ⟨dirs, hmade ▸ h⟩

/-- Where no directory had to be made, other files are as before. -/
theorem read?_placed (hsome : (t.place p text).toOption.isSome)
    (hdirs : ((t.place p text).toOption.getD t).dirs = t.dirs) (hne : t.place? q ≠ t.place? p) :
    ((t.place p text).toOption.getD t).read? q = t.read? q := by
  obtain ⟨t', hplace⟩ := Option.isSome_iff_exists.mp hsome
  rw [hplace, Option.getD_some] at hdirs ⊢
  obtain ⟨dirs, hwrite⟩ := exists_write_of_place (toOption_eq_some.mp hplace)
  obtain rfl : dirs = t.dirs := (sameDirs_write hwrite).dirs.symm.trans hdirs
  rw [read?_write hwrite, if_neg hne]

theorem cwd_place (h : t.place p text = .ok t') : t'.cwd = t.cwd :=
  let ⟨_, hwrite⟩ := exists_write_of_place h
  (sameDirs_write hwrite).cwd

theorem cwd_remove (h : t.remove p = .ok t') : t'.cwd = t.cwd := by
  unfold remove at h
  simp only [bind, Except.bind] at h
  repeat' split at h
  all_goals cases h
  all_goals rfl

/-- Removing adds no file. -/
theorem files_drop_subset (t : FileTree) (p : String) : (Cache.drop t p).files ⊆ t.files := by
  unfold Cache.drop
  cases h : t.remove p with
  | error e => exact List.Subset.refl _
  | ok t' =>
    change t'.files ⊆ t.files
    unfold remove at h
    simp only [bind, Except.bind] at h
    repeat' split at h
    all_goals cases h
    · exact List.filter_sublist.subset
    · exact List.Subset.refl _

end FileTree

/-! ## The last part of a path

A path that ends in a proper name is cleaned to a path that ends in the same name, and leads to a place
that ends in it. So paths that end in different names lead to different places. -/

namespace Path

/-- What a path ends in: the name behind its last slash. -/
def EndsIn (name : List Char) (p : String) : Prop :=
  '/' ∉ name ∧ (p.toList = name ∨ ∃ front, p.toList = front ++ '/' :: name)

/-- A name that a path can be cut at: it is not empty, and neither one dot nor two. -/
def Proper (name : List Char) : Prop := name ≠ [] ∧ name ≠ ['.'] ∧ name ≠ ['.', '.']

variable {name : List Char} {p q : String}

theorem Proper.ofList_ne (h : Proper name) :
    String.ofList name ≠ "" ∧ String.ofList name ≠ "." ∧ String.ofList name ≠ ".." := by
  refine ⟨fun he => h.1 ?_, fun he => h.2.1 ?_, fun he => h.2.2 ?_⟩
  all_goals simpa using congrArg String.toList he

theorem EndsIn.toList_ne_nil (h : EndsIn name p) (hname : Proper name) : p.toList ≠ [] := by
  obtain hp | ⟨front, hp⟩ := h.2
  · exact hp ▸ hname.1
  · simp [hp]

theorem splitAt_of_endsIn (h : EndsIn name p) : ∃ front, Text.splitAt (· == '/') p.toList = front ++ [name] := by
  obtain ⟨hslash, hp⟩ := h
  have hname : Text.splitAt (· == '/') name = [name] :=
    Text.splitAt_eq_singleton fun c hc => beq_eq_false_iff_ne.mpr fun he => hslash (he ▸ hc)
  obtain hp | ⟨front, hp⟩ := hp
  · exact ⟨[], by rw [hp, hname]; rfl⟩
  · have htail : Text.splitAt (· == '/') ('/' :: name) = [] :: [name] := by
      rw [Text.splitAt_cons, hname]
      rfl
    obtain hf | ⟨init, last, hf⟩ := (Text.splitAt (· == '/') front).eq_nil_or_concat
    · exact absurd hf (Text.splitAt_ne_nil _ front)
    · refine ⟨init ++ [last], ?_⟩
      rw [hp, Text.splitAt_append (by rw [hf, List.concat_eq_append]) htail]
      simp

theorem splitOn_of_endsIn (h : EndsIn name p) : ∃ front, Text.splitOn '/' p = front ++ [String.ofList name] := by
  obtain ⟨front, hf⟩ := splitAt_of_endsIn h
  exact ⟨front.map String.ofList, by rw [Text.splitOn, hf, List.map_append]; rfl⟩

/-- Every path ends in something. -/
theorem exists_endsIn (p : String) : ∃ name, EndsIn name p := by
  have key : ∀ cs : List Char, ∃ name, '/' ∉ name ∧ (cs = name ∨ ∃ front, cs = front ++ '/' :: name) := by
    intro cs
    induction cs with
    | nil => exact ⟨[], by simp, .inl rfl⟩
    | cons c cs ih =>
      obtain ⟨name, hslash, rfl | ⟨front, rfl⟩⟩ := ih
      · by_cases hc : c = '/'
        · exact ⟨cs, hslash, .inr ⟨[], by rw [hc]; rfl⟩⟩
        · exact ⟨c :: cs, by simp [Ne.symm hc, hslash], .inl rfl⟩
      · exact ⟨name, hslash, .inr ⟨c :: front, rfl⟩⟩
  exact key p.toList

theorem fold_append (absolute : Bool) (done ps qs : List String) :
    fold absolute done (ps ++ qs) = fold absolute (fold absolute done ps).reverse qs := by
  fun_induction fold absolute done ps with
  | case1 done => simp
  | case2 part rest hpart habs ih => simpa [fold, hpart, habs] using ih
  | case3 part rest hpart habs ih => simpa [fold, hpart, habs] using ih
  | case4 part rest hpart last before hlast ih => simpa [fold, hpart, hlast] using ih
  | case5 part rest hpart last before hlast ih => simpa [fold, hpart, hlast] using ih
  | case6 done part rest hpart ih => simpa [fold, hpart] using ih

/-- Going through the parts of a path keeps a proper last one. -/
theorem fold_append_of_proper (hname : Proper name) (absolute : Bool) (done front : List String) :
    ∃ kept, fold absolute done (front ++ [String.ofList name]) = kept ++ [String.ofList name] := by
  have hdots : (String.ofList name == "..") = false := beq_eq_false_iff_ne.mpr hname.ofList_ne.2.2
  exact ⟨fold absolute done front, by simp [fold_append, fold, hdots]⟩

/-- The parts of a path end in its last name, if that is proper. -/
theorem parts_of_endsIn (h : EndsIn name p) (hname : Proper name) :
    ∃ front, parts p = front ++ [String.ofList name] := by
  obtain ⟨front, hf⟩ := splitOn_of_endsIn h
  obtain ⟨hempty, hdot, -⟩ := hname.ofList_ne
  refine ⟨front.filter fun s => !s.isEmpty && s != ".", ?_⟩
  rw [parts, hf, List.filter_append]
  simp [hempty, hdot]

/-- Parts that are joined end in the last of them. -/
theorem endsIn_joinWith (hslash : '/' ∉ name) (front : List String) :
    EndsIn name (Text.joinWith "/" (front ++ [String.ofList name])) := by
  refine ⟨hslash, ?_⟩
  cases front with
  | nil => exact .inl (by simp [Text.joinWith])
  | cons part front =>
    refine .inr ⟨(Text.joinWith "/" (part :: front)).toList, ?_⟩
    rw [Text.joinWith, String.intercalate_append_of_ne_nil (List.cons_ne_nil part front) (by simp)]
    simp [Text.joinWith]

/-- Cleaning a path keeps a proper last name. -/
theorem endsIn_clean (h : EndsIn name p) (hname : Proper name) : EndsIn name (clean p) := by
  obtain ⟨front, hparts⟩ := parts_of_endsIn h hname
  obtain ⟨kept, hkept⟩ := fold_append_of_proper hname (isAbsolute p) [] front
  have hbody := endsIn_joinWith h.1 kept
  rw [← hkept, ← hparts] at hbody
  unfold clean
  dsimp only
  split
  · refine ⟨h.1, .inr ?_⟩
    obtain hb | ⟨front, hb⟩ := hbody.2
    · exact ⟨[], by simp [hb]⟩
    · exact ⟨'/' :: front, by simp [hb]⟩
  · split
    next he =>
      exact absurd (by simpa using he) (hbody.toList_ne_nil hname)
    next => exact hbody

/-- A name that is joined to a directory is what the path ends in. -/
theorem endsIn_join (dir : String) (h : EndsIn name p) (hname : Proper name) : EndsIn name (join [dir, p]) := by
  have hp : p.isEmpty = false := by
    rw [Bool.eq_false_iff]
    intro he
    exact h.toList_ne_nil hname (by simpa using he)
  cases hd : dir.isEmpty with
  | true =>
    have hjoin : join [dir, p] = clean p := by simp [join, hd, hp, Text.joinWith]
    rw [hjoin]
    exact endsIn_clean h hname
  | false =>
    have hjoin : join [dir, p] = clean (dir ++ "/" ++ p) := by
      simp [join, hd, hp, Text.joinWith]
    rw [hjoin]
    refine endsIn_clean ⟨h.1, .inr ?_⟩ hname
    obtain hb | ⟨front, hb⟩ := h.2
    · exact ⟨dir.toList, by simp [hb]⟩
    · exact ⟨dir.toList ++ '/' :: front, by simp [hb]⟩

end Path

namespace FileTree

open Frontend.Path

variable {t : FileTree} {name name' : List Char} {p p' q : String}

/-- A walk along a path ends in its last name. -/
theorem endsIn_walk (hname : Proper name) (hslash : '/' ∉ name) {here : String} {front : List String}
    (h : t.walk here (front ++ [String.ofList name]) = .ok q) : EndsIn name q := by
  induction front generalizing here with
  | nil =>
    obtain ⟨hempty, hdot, hdots⟩ := hname.ofList_ne
    simp only [List.nil_append, walk, hempty, hdot, hdots, String.isEmpty_iff, beq_iff_eq,
      Bool.or_eq_true, or_self, if_false] at h
    repeat' split at h
    case h_3.isFalse =>
      obtain rfl := Except.ok.inj h
      exact endsIn_join here ⟨hslash, .inl (String.toList_ofList)⟩ hname
    all_goals cases h
  | cons part front ih =>
    rw [List.cons_append, walk] at h
    repeat' split at h
    all_goals first | exact ih h | cases h

/-- A path that ends in a proper name leads to a place that ends in it. -/
theorem endsIn_place? (h : EndsIn name p) (hname : Proper name) (hq : t.place? p = some q) : EndsIn name q := by
  have hl := locate_eq_ok.mpr hq
  obtain ⟨front, hf⟩ := splitOn_of_endsIn h
  unfold locate at hl
  rw [hf] at hl
  repeat' split at hl
  all_goals first | exact endsIn_walk hname h.1 hl | exact nomatch hl

/-- Paths that end in different names do not lead to the same place. -/
theorem place?_ne_of_endsIn (h : EndsIn name p) (h' : EndsIn name' p') (hname : Proper name)
    (hname' : Proper name') (hne : name.getLast? ≠ name'.getLast?) (hq : t.place? p = some q) :
    t.place? p' ≠ some q := by
  intro hq'
  have key : ∀ {n : List Char}, EndsIn n q → Proper n → q.toList.getLast? = n.getLast? := by
    intro n hn hproper
    obtain hq | ⟨front, hq⟩ := hn.2
    · rw [hq]
    · obtain ⟨c, cs, rfl⟩ := List.exists_cons_of_ne_nil hproper.1
      rw [hq, List.getLast?_append_cons, List.getLast?_cons_cons]
  exact hne ((key (endsIn_place? h hname hq) hname).symm.trans (key (endsIn_place? h' hname' hq') hname'))

end FileTree

end Frontend
