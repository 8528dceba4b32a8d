import Carving.Console.Host

/-!
# Writing below a directory

Where a path leads is told by its names, the current directory and the links alone
(`FileTree.place`), and directories that have been made once are found again by every later write
(`makeDirectories_again`). So all files that are written below one directory path go to one place.
In a tree whose names can all be followed, a file written there is read back by the path that it was
written by (`readFile_joinPath`). Whatever the system does, a write leaves all files as they are or
puts a content at the place of its file (`writeFile_cases`).
-/

namespace Carving.Console

/-- A name that leads to something of that name, below the directory where it is read. -/
structure LeadsBelow (name : OsText) : Prop where
  not_idle : isIdle name = false
  ne_above : name ≠ ".."

/-- A name by which a file or a directory can be reached. -/
structure IsProper (name : OsText) : Prop extends LeadsBelow name where
  no_slash : slash ∉ name
  no_nul : 0 ∉ name
  short : name.length ≤ maxNameSize

instance (name : OsText) : Decidable (IsProper name) :=
  decidable_of_iff ((isIdle name = false ∧ name ≠ "..")
    ∧ slash ∉ name ∧ 0 ∉ name ∧ name.length ≤ maxNameSize)
    ⟨fun ⟨⟨h1, h2⟩, h3, h4, h5⟩ => ⟨⟨h1, h2⟩, h3, h4, h5⟩,
      fun ⟨⟨h1, h2⟩, h3, h4, h5⟩ => ⟨⟨h1, h2⟩, h3, h4, h5⟩⟩

theorem IsProper.ne_nil {name : OsText} (h : IsProper name) : name ≠ [] := by
  rintro rfl
  exact absurd h.not_idle (by decide)

theorem leadsBelow_or (name : OsText) : isIdle name ∨ name = ".." ∨ LeadsBelow name := by
  by_cases h1 : isIdle name
  · exact .inl h1
  by_cases h2 : name = ".."
  · exact .inr (.inl h2)
  · exact .inr (.inr ⟨by simpa using h1, h2⟩)

theorem not_isIdle_above : isIdle ".." = false := by decide

namespace FileTree

variable {t u w : FileTree} {l l' : Location} {name path : OsText} {names : List OsText}
  {content : Array UInt8}

/-- The place that a name leads to. -/
def step (t : FileTree) (location : Location) (name : OsText) : Location :=
  if isIdle name then location
  else if name = ".." then location.dropLast
  else t.behind (location ++ [name])

theorem step_below (h : LeadsBelow name) : t.step l name = t.behind (l ++ [name]) := by
  rw [step, if_neg (by simp [h.not_idle]), if_neg h.ne_above]

/-- The place that a path leads to. -/
def place (t : FileTree) (path : OsText) : Location :=
  (pathNames path).foldl t.step (t.origin path)

/-- Paths are read from a directory, and every directory is in one and has proper names. -/
structure IsNavigable (t : FileTree) : Prop where
  current : t.isDirectory t.current
  closed : ∀ l ∈ t.directories, t.isDirectory l.dropLast
  directory : ∀ l ∈ t.directories, ∀ name ∈ l, IsProper name

/-- The second tree has the directories of the first one and may have more, and the same links. -/
structure Extends (t u : FileTree) : Prop where
  current_eq : u.current = t.current
  links_eq : u.links = t.links
  subset : t.directories ⊆ u.directories

theorem Extends.refl (t : FileTree) : t.Extends t := ⟨rfl, rfl, List.Subset.refl _⟩

theorem Extends.trans (h : t.Extends u) (h' : u.Extends w) : t.Extends w :=
  ⟨h'.current_eq.trans h.current_eq, h'.links_eq.trans h.links_eq,
    List.Subset.trans h.subset h'.subset⟩

theorem isDirectory_iff : t.isDirectory l ↔ l = [] ∨ l ∈ t.directories := by
  simp [isDirectory]

theorem Extends.isDirectory (h : t.Extends u) (hl : t.isDirectory l) : u.isDirectory l := by
  rw [isDirectory_iff] at *
  exact hl.imp_right fun hm => h.subset hm

theorem Extends.origin_eq (h : t.Extends u) (path : OsText) : u.origin path = t.origin path := by
  simp only [origin, h.current_eq]

theorem Extends.link?_eq (h : t.Extends u) (l : Location) : u.link? l = t.link? l := by
  simp only [link?, h.links_eq]

theorem Extends.behind_eq (h : t.Extends u) (l : Location) : u.behind l = t.behind l := by
  simp only [behind, h.link?_eq]

theorem Extends.step_eq (h : t.Extends u) (l : Location) (name : OsText) :
    u.step l name = t.step l name := by
  simp only [step, h.behind_eq]

theorem Extends.place_eq (h : t.Extends u) (path : OsText) : u.place path = t.place path := by
  have hstep : u.step = t.step := funext fun l => funext (h.step_eq l)
  rw [place, place, h.origin_eq, hstep]

theorem behind_of_link?_eq_none (h : t.link? l = none) : t.behind l = l := by
  rw [behind, h, Option.getD_none]

theorem isFile_iff : t.isFile l ↔ l ∈ t.files.map Prod.fst := by
  simp [isFile, content?]

section Put

theorem content?_put (t : FileTree) (l l' : Location) (content : Array UInt8) :
    (t.put l content).content? l' = if l' = l then some content else t.content? l' := by
  unfold put content?
  by_cases hl : t.isFile l
  · -- A file is replaced by one of the same location, so the search ends at the same one.
    have hsame : ((fun file : Location × Array UInt8 => decide (file.1 = l')) ∘
        fun file => if file.1 = l then (l, content) else file)
          = fun file => decide (file.1 = l') := by
      funext file
      by_cases hf : file.1 = l <;> simp [hf]
    simp only [hl, if_true, List.find?_map, hsame]
    cases hfind : t.files.find? (·.1 = l') with
    | none =>
      have hne : l' ≠ l := by
        rintro rfl
        simp [isFile, content?, hfind] at hl
      simp [hne]
    | some file =>
      have hfile : file.1 = l' := by simpa using List.find?_some hfind
      by_cases hne : l' = l <;> simp [hfile, hne]
  · simp only [hl, if_false, Bool.false_eq_true, List.find?_append]
    by_cases hne : l' = l
    · subst hne
      have hnone : t.content? l' = none := by simpa [isFile] using hl
      rw [content?, Option.map_eq_none_iff] at hnone
      simp [hnone]
    · simp [hne, Ne.symm hne]

theorem directories_put : (t.put l content).directories = t.directories := by
  unfold put
  split <;> rfl

theorem extends_put (t : FileTree) (l : Location) (content : Array UInt8) :
    t.Extends (t.put l content) := by
  unfold put
  split <;> exact ⟨rfl, rfl, List.Subset.refl _⟩

theorem put_of_free (h : t.isFile l = false) :
    t.put l content = { t with files := t.files ++ [(l, content)] } := by
  rw [put, if_neg (by simp [h])]

end Put

section Enter

theorem enter_below (hb : LeadsBelow name) : enter (t, l) name =
    if maxNameSize < name.length then none
    else if t.isDirectory (t.behind (l ++ [name])) then some (t, t.behind (l ++ [name]))
    else if t.isFile (l ++ [name]) || (t.link? (l ++ [name])).isSome then none
    else some ({ t with directories := t.directories ++ [l ++ [name]] }, l ++ [name]) := by
  simp [enter, hb.not_idle, hb.ne_above]

/-- A name stays, leads upwards, or leads to a directory that is there or is made. -/
theorem enter_cases (h : enter (t, l) name = some (u, l')) :
    (isIdle name ∨ name = "..") ∧ u = t ∧ l' = t.step l name
      ∨ LeadsBelow name ∧ name.length ≤ maxNameSize ∧ l' = t.behind (l ++ [name])
        ∧ u.isDirectory l'
        ∧ (u = t ∨ u = { t with directories := t.directories ++ [l'] } ∧ l' = l ++ [name]) := by
  obtain hidle | rfl | hb := leadsBelow_or name
  · simp only [enter, hidle, if_true, Option.some.injEq, Prod.mk.injEq] at h
    exact .inl ⟨.inl hidle, h.1.symm, by rw [step, if_pos hidle, h.2]⟩
  · cases h
    exact .inl ⟨.inr rfl, rfl, rfl⟩
  · rw [enter_below hb] at h
    split at h
    · cases h
    rename_i hshort
    refine .inr ⟨hb, Nat.not_lt.1 hshort, ?_⟩
    by_cases hdir : t.isDirectory (t.behind (l ++ [name]))
    · rw [if_pos hdir] at h
      cases h
      exact ⟨rfl, hdir, .inl rfl⟩
    · rw [if_neg hdir] at h
      split at h
      · cases h
      · rename_i hfree
        cases h
        rw [Bool.or_eq_true, not_or, Option.not_isSome_iff_eq_none] at hfree
        exact ⟨(behind_of_link?_eq_none hfree.2).symm,
          isDirectory_iff.2 (.inr (List.mem_append_right _ List.mem_cons_self)), .inr ⟨rfl, rfl⟩⟩

theorem enter_place (h : enter (t, l) name = some (u, l')) : l' = t.step l name := by
  obtain ⟨-, -, hl⟩ | ⟨hb, -, hl, -⟩ := enter_cases h
  · exact hl
  · rw [hl, step_below hb]

theorem enter_files (h : enter (t, l) name = some (u, l')) : u.files = t.files := by
  obtain ⟨-, rfl, -⟩ | ⟨-, -, -, -, rfl | ⟨rfl, -⟩⟩ := enter_cases h <;> rfl

theorem enter_extends (h : enter (t, l) name = some (u, l')) : t.Extends u := by
  obtain ⟨-, rfl, -⟩ | ⟨-, -, -, -, rfl | ⟨rfl, -⟩⟩ := enter_cases h
  · exact .refl _
  · exact .refl _
  · exact ⟨rfl, rfl, List.subset_append_left _ _⟩

/-- What has been entered once is there from then on. -/
theorem enter_again (h : enter (t, l) name = some (u, l')) (hw : u.Extends w) :
    enter (w, l) name = some (w, l') := by
  have hlinks := ((enter_extends h).trans hw).behind_eq (l ++ [name])
  obtain ⟨hidle | rfl, -, rfl⟩ | ⟨hb, hshort, rfl, hdir, -⟩ := enter_cases h
  · simp [enter, step, hidle]
  · rfl
  · rw [enter_below hb, if_neg (Nat.not_lt.2 hshort), hlinks, if_pos (hw.isDirectory hdir)]

theorem IsNavigable.proper (ht : t.IsNavigable) (hl : t.isDirectory l) :
    ∀ name ∈ l, IsProper name := by
  obtain rfl | hm := isDirectory_iff.1 hl
  · exact fun _ h => nomatch h
  · exact ht.directory l hm

theorem IsNavigable.isDirectory_dropLast (ht : t.IsNavigable) (hl : t.isDirectory l) :
    t.isDirectory l.dropLast := by
  obtain rfl | hm := isDirectory_iff.1 hl
  · exact hl
  · exact ht.closed l hm

theorem enter_isDirectory (ht : t.IsNavigable) (hl : t.isDirectory l)
    (h : enter (t, l) name = some (u, l')) : u.isDirectory l' := by
  obtain ⟨hidle | rfl, rfl, rfl⟩ | ⟨-, -, -, hdir, -⟩ := enter_cases h
  · rwa [step, if_pos hidle]
  · exact ht.isDirectory_dropLast hl
  · exact hdir

theorem IsNavigable.enter (ht : t.IsNavigable) (hl : t.isDirectory l)
    (hslash : slash ∉ name) (hnul : 0 ∉ name)
    (h : enter (t, l) name = some (u, l')) : u.IsNavigable := by
  have hext := enter_extends h
  obtain ⟨-, rfl, -⟩ | ⟨hb, hshort, -, -, rfl | ⟨rfl, rfl⟩⟩ := enter_cases h
  · exact ht
  · exact ht
  refine ⟨hext.isDirectory ht.current, fun m hm => ?_, fun m hm a ha => ?_⟩
  · rcases List.mem_append.1 hm with hm | hm
    · exact hext.isDirectory (ht.closed m hm)
    · rw [List.mem_singleton.1 hm, List.dropLast_concat]
      exact hext.isDirectory hl
  · rcases List.mem_append.1 hm with hm | hm
    · exact ht.directory m hm a ha
    · rw [List.mem_singleton.1 hm, List.mem_append, List.mem_singleton] at ha
      rcases ha with ha | rfl
      · exact ht.proper hl a ha
      · exact ⟨hb, hslash, hnul, hshort⟩

theorem follow_below (hl : t.isDirectory l) (hb : LeadsBelow name)
    (hshort : name.length ≤ maxNameSize) (ho : t.occupied (t.behind (l ++ [name]))) :
    t.follow l name = .ok (t.behind (l ++ [name])) := by
  simp [follow, hl, hb.not_idle, hb.ne_above, Nat.not_lt.2 hshort, ho]

theorem follow_of_enter (hl : t.isDirectory l) (h : FileTree.enter (t, l) name = some (t, l')) :
    t.follow l name = .ok l' := by
  obtain ⟨hidle | rfl, -, rfl⟩ | ⟨hb, hshort, rfl, hdir, -⟩ := enter_cases h
  · simp [follow, hl, step, hidle]
  · simp [follow, hl, step, not_isIdle_above]
  · exact follow_below hl hb hshort (by simp [occupied, hdir])

end Enter

section EnterAll

theorem enterAll_cons_eq_some : t.enterAll l (name :: names) = (u, some l') ↔
    ∃ w k, FileTree.enter (t, l) name = some (w, k) ∧ w.enterAll k names = (u, some l') := by
  rw [enterAll]
  cases h : FileTree.enter (t, l) name with
  | none => simp
  | some place =>
    refine ⟨fun hall => ⟨_, _, rfl, hall⟩, ?_⟩
    rintro ⟨w, k, hplace, hall⟩
    obtain rfl := Option.some.inj hplace
    exact hall

/-- What every name that is entered keeps is kept, however far the names can be entered. -/
theorem enterAll_induction {P : FileTree → Location → Prop} (names : List OsText) (hstart : P t l)
    (hstep : ∀ name ∈ names, ∀ {t l u k}, P t l →
      FileTree.enter (t, l) name = some (u, k) → P u k) :
    ∃ k, P (t.enterAll l names).1 k ∧ ∀ l', (t.enterAll l names).2 = some l' → k = l' := by
  induction names generalizing t l with
  | nil => exact ⟨l, hstart, fun _ h => Option.some.inj h⟩
  | cons name names ih =>
    rw [enterAll]
    cases h : FileTree.enter (t, l) name with
    | none => exact ⟨l, hstart, nofun⟩
    | some place =>
      exact ih (hstep name List.mem_cons_self hstart h)
        fun other hother => hstep other (List.mem_cons_of_mem _ hother)

theorem enterAll_files : (t.enterAll l names).1.files = t.files :=
  (enterAll_induction (P := fun u _ => u.files = t.files) names rfl
    fun _ _ _ _ _ _ hu h => (enter_files h).trans hu).choose_spec.1

theorem enterAll_extends (names : List OsText) : t.Extends (t.enterAll l names).1 :=
  (enterAll_induction (P := fun u _ => t.Extends u) names (.refl t)
    fun _ _ _ _ _ _ hu h => hu.trans (enter_extends h)).choose_spec.1

theorem extends_of_enterAll (h : t.enterAll l names = (u, some l')) : t.Extends u := by
  have hext := enterAll_extends (t := t) (l := l) names
  rwa [h] at hext

theorem enterAll_place (h : t.enterAll l names = (u, some l')) : l' = names.foldl t.step l := by
  induction names generalizing t l with
  | nil =>
    cases h
    rfl
  | cons name names ih =>
    obtain ⟨w, k, h, h'⟩ := enterAll_cons_eq_some.1 h
    have hstep : w.step = t.step := funext fun l => funext ((enter_extends h).step_eq l)
    rw [ih h', List.foldl_cons, enter_place h, hstep]

theorem enterAll_again (h : t.enterAll l names = (u, some l')) (hw : u.Extends w) :
    w.enterAll l names = (w, some l') := by
  induction names generalizing t l with
  | nil =>
    cases h
    rfl
  | cons name names ih =>
    obtain ⟨m, k, h, h'⟩ := enterAll_cons_eq_some.1 h
    have hback : m.Extends u := extends_of_enterAll h'
    exact enterAll_cons_eq_some.2 ⟨w, k, enter_again h (hback.trans hw), ih h'⟩

theorem IsNavigable.enterAll (ht : t.IsNavigable) (hl : t.isDirectory l)
    (hnames : ∀ name ∈ names, slash ∉ name ∧ 0 ∉ name) : (t.enterAll l names).1.IsNavigable := by
  obtain ⟨k, ⟨hnav, -⟩, -⟩ := enterAll_induction (P := fun u k => u.IsNavigable ∧ u.isDirectory k)
    names ⟨ht, hl⟩ fun name hname _ _ _ _ hu h =>
      ⟨hu.1.enter hu.2 (hnames name hname).1 (hnames name hname).2 h,
        enter_isDirectory hu.1 hu.2 h⟩
  exact hnav

/-- In a tree that has all directories on the way, their names are followed to the same place. -/
theorem followAll_of_enterAll (ht : t.IsNavigable) (hl : t.isDirectory l)
    (h : t.enterAll l names = (t, some l')) :
    names.foldlM t.follow l = .ok l' ∧ t.isDirectory l' := by
  induction names generalizing l with
  | nil =>
    cases h
    exact ⟨rfl, hl⟩
  | cons name names ih =>
    obtain ⟨m, k, h, h'⟩ := enterAll_cons_eq_some.1 h
    have hback : m.Extends t := extends_of_enterAll h'
    have hk := enter_again h hback
    rw [List.foldlM_cons, follow_of_enter hl hk]
    exact ih (enter_isDirectory ht hl hk) (enterAll_again h' (.refl t))

end EnterAll

section Paths

theorem not_mem_of_mem_pathNames (h : name ∈ pathNames path) : slash ∉ name ∧ name ⊆ path := by
  unfold pathNames at h
  generalize path = text at h
  induction text generalizing name with
  | nil =>
    rw [List.splitOn_nil, List.mem_singleton] at h
    simp [h]
  | cons b text ih =>
    rw [List.splitOn_cons_eq_if_modifyHead] at h
    by_cases hb : b = slash
    · rw [if_pos (by simpa using hb), List.mem_cons] at h
      rcases h with rfl | h
      · simp
      · exact ⟨(ih h).1, fun x hx => List.mem_cons_of_mem _ ((ih h).2 hx)⟩
    · rw [if_neg (by simpa using hb)] at h
      cases hs : text.splitOn slash with
      | nil => exact absurd hs (List.splitOn_ne_nil slash text)
      | cons first pieces =>
        rw [hs, List.modifyHead_cons, List.mem_cons] at h
        rw [hs] at ih
        rcases h with rfl | h
        · obtain ⟨hno, hsub⟩ := ih List.mem_cons_self
          exact ⟨by simp [Ne.symm hb, hno], List.cons_subset_cons b hsub⟩
        · obtain ⟨hno, hsub⟩ := ih (List.mem_cons_of_mem _ h)
          exact ⟨hno, fun x hx => List.mem_cons_of_mem _ (hsub hx)⟩

theorem joinPath_eq (directory name : OsText) : joinPath directory name =
    if directory = [] ∨ directory.getLast? = some slash then directory ++ name
    else directory ++ slash :: name := by
  simp [joinPath]

theorem pathNames_of_not_mem (hslash : slash ∉ name) : pathNames name = [name] :=
  List.splitOn_eq_singleton hslash

/-- The names of a joined path end with those that were joined to it. A slash or nothing at the end
of the directory's path counts as an empty name there. -/
theorem pathNames_joinPath (directory text : OsText) :
    ∃ names, (pathNames directory = names ∨ pathNames directory = names ++ [[]])
      ∧ pathNames (joinPath directory text) = names ++ pathNames text := by
  unfold pathNames
  rw [joinPath_eq]
  by_cases hempty : directory = []
  · exact ⟨[], .inr (by simp [hempty]), by simp [hempty]⟩
  by_cases hlast : directory.getLast? = some slash
  · obtain ⟨front, rfl⟩ := List.getLast?_eq_some_iff.1 hlast
    refine ⟨front.splitOn slash, .inr ?_, ?_⟩
    · simp [List.splitOn_append_cons_self]
    · simp [List.splitOn_append_cons_self]
  · refine ⟨_, .inl rfl, ?_⟩
    simp [hempty, hlast, List.splitOn_append_cons_self]

theorem origin_joinPath (t : FileTree) (directory : OsText) {text : OsText}
    (hhead : text.head? ≠ some slash) :
    t.origin (joinPath directory text) = t.origin directory := by
  unfold origin
  rw [joinPath_eq]
  by_cases hempty : directory = []
  · simp [hempty, hhead]
  · obtain ⟨c, rest, rfl⟩ := List.exists_cons_of_ne_nil hempty
    split <;> simp

end Paths

section Directories

variable {barred : Option Nat}

theorem makeDirectories_eq_some : t.makeDirectories path barred = (u, some l) ↔ barred = none
    ∧ 0 ∉ path ∧ (trimPath path).length ≤ maxPathSize
    ∧ t.enterAll (t.origin path) (pathNames path) = (u, some l) := by
  simp only [makeDirectories, Bool.or_eq_true, List.contains_iff_mem, decide_eq_true_eq]
  by_cases h : 0 ∈ path ∨ maxPathSize < (trimPath path).length
  · rw [if_pos h]
    simp only [Prod.mk.injEq, reduceCtorEq, and_false, false_iff]
    rintro ⟨-, h1, h2, -⟩
    exact h.elim h1 (Nat.not_lt.2 h2)
  · rw [if_neg h]
    obtain ⟨h1, h2⟩ := not_or.1 h
    cases barred with
    | none => simp [h1, Nat.not_lt.1 h2]
    | some count => simp

theorem makeDirectories_place (h : t.makeDirectories path barred = (u, some l)) :
    l = t.place path :=
  enterAll_place (makeDirectories_eq_some.1 h).2.2.2

theorem makeDirectories_files (t : FileTree) (path : OsText) (barred : Option Nat) :
    (t.makeDirectories path barred).1.files = t.files := by
  unfold makeDirectories
  split
  · rfl
  · split <;> exact enterAll_files

theorem makeDirectories_extends (t : FileTree) (path : OsText) (barred : Option Nat) :
    t.Extends (t.makeDirectories path barred).1 := by
  unfold makeDirectories
  split
  · exact .refl t
  · split <;> exact enterAll_extends _

/-- Directories that have been made are there from then on. -/
theorem makeDirectories_again (h : t.makeDirectories path barred = (u, some l))
    (hw : u.Extends w) : w.makeDirectories path none = (w, some l) := by
  obtain ⟨-, hnul, hshort, hall⟩ := makeDirectories_eq_some.1 h
  refine makeDirectories_eq_some.2 ⟨rfl, hnul, hshort, ?_⟩
  rw [((extends_of_enterAll hall).trans hw).origin_eq]
  exact enterAll_again hall hw

theorem IsNavigable.isDirectory_origin (ht : t.IsNavigable) (path : OsText) :
    t.isDirectory (t.origin path) := by
  unfold origin
  split
  · rfl
  · exact ht.current

theorem IsNavigable.makeDirectories (ht : t.IsNavigable) (path : OsText) (barred : Option Nat) :
    (t.makeDirectories path barred).1.IsNavigable := by
  unfold FileTree.makeDirectories
  split
  · exact ht
  rename_i hplain
  have hnames : ∀ name ∈ pathNames path, slash ∉ name ∧ 0 ∉ name := by
    simp only [Bool.or_eq_true, List.contains_iff_mem, not_or] at hplain
    intro name hname
    obtain ⟨hslash, hsub⟩ := not_mem_of_mem_pathNames hname
    exact ⟨hslash, fun h => hplain.1 (hsub h)⟩
  split
  · exact ht.enterAll (ht.isDirectory_origin path) hnames
  · exact ht.enterAll (ht.isDirectory_origin path) fun name hname =>
      hnames name (List.mem_of_mem_take hname)

theorem IsNavigable.put (ht : t.IsNavigable) : (t.put l content).IsNavigable := by
  have hext := extends_put t l content
  refine ⟨hext.current_eq ▸ hext.isDirectory ht.current, fun m hm => ?_, fun m hm => ?_⟩
  · exact hext.isDirectory (ht.closed m (directories_put ▸ hm))
  · exact ht.directory m (directories_put ▸ hm)

theorem locate_eq_ok : t.locate path = .ok l ↔
    0 ∉ path ∧ path ≠ [] ∧ path.length ≤ maxPathSize
      ∧ (pathNames path).foldlM t.follow (t.origin path) = .ok l := by
  simp only [locate, List.contains_iff_mem]
  by_cases hnul : 0 ∈ path
  · simp [hnul]
  by_cases hempty : path = []
  · simp [hempty]
  by_cases hlong : maxPathSize < path.length
  · simp [hnul, hempty, hlong, Nat.not_le.2 hlong]
  · simp [hnul, hempty, hlong, Nat.not_lt.1 hlong]

theorem locate?_eq_some : t.locate? path = some l ↔ t.locate path = .ok l := by
  rw [locate?]
  cases t.locate path <;> simp [Except.toOption]

/-- A slash behind a path changes nothing if the path leads to a directory. -/
theorem followAll_of_concat_nil (h : (names ++ [[]]).foldlM t.follow l = .ok l') :
    names.foldlM t.follow l = .ok l' := by
  rw [List.foldlM_append] at h
  cases hfront : names.foldlM t.follow l with
  | error absence =>
    rw [hfront] at h
    cases h
  | ok k =>
    rw [hfront] at h
    change (t.follow k [] >>= pure) = _ at h
    by_cases hk : t.isDirectory k
    · simpa [follow, hk, isIdle] using h
    · simp [follow, hk] at h

/-- A name that is joined to a directory's path is followed from where that path leads. -/
theorem locate_joined (hnul : 0 ∉ path) (hname : IsProper name)
    (hshort : (joinPath path name).length ≤ maxPathSize)
    (hpath : (pathNames path).foldlM t.follow (t.origin path) = .ok l) :
    t.locate (joinPath path name) = t.follow l name := by
  have hhead : name.head? ≠ some slash := fun h => hname.no_slash (List.mem_of_mem_head? h)
  obtain ⟨names, hnames, hjoined⟩ := pathNames_joinPath path name
  have hfront : names.foldlM t.follow (t.origin path) = .ok l := by
    rcases hnames with h | h
    · rwa [h] at hpath
    · rw [h] at hpath
      exact followAll_of_concat_nil hpath
  have hplain : 0 ∉ joinPath path name ∧ joinPath path name ≠ [] := by
    rw [joinPath_eq]
    split <;> simp [hnul, hname.no_nul, hname.ne_nil, slash]
  rw [locate, if_neg (by simpa using hplain.1), if_neg hplain.2, if_neg (Nat.not_lt.2 hshort),
    hjoined, origin_joinPath t path hhead, pathNames_of_not_mem hname.no_slash, List.foldlM_append,
    hfront]
  exact bind_pure (t.follow l name)

/-- A path that is joined to a directory's path leads below the directory that is made for it. -/
theorem locate_joinPath (ht : t.IsNavigable) (hmade : t.makeDirectories path none = (t, some l))
    (hname : IsProper name) (hpath : (joinPath path name).length ≤ maxPathSize)
    (ho : t.occupied (t.behind (l ++ [name]))) :
    t.locate (joinPath path name) = .ok (t.behind (l ++ [name])) := by
  obtain ⟨-, hnul, -, hall⟩ := makeDirectories_eq_some.1 hmade
  obtain ⟨hfollow, hl⟩ := followAll_of_enterAll ht (ht.isDirectory_origin path) hall
  rw [locate_joined hnul hname hpath hfollow, follow_below hl hname.toLeadsBelow hname.short ho]

/-- Nothing is found by a name that is too long. -/
theorem locate_long (t : FileTree) (directory : OsText) (hslash : slash ∉ name)
    (hlong : maxNameSize < name.length) (l : Location) :
    t.locate (joinPath directory name) ≠ .ok l := by
  have hfollow : ∀ k, ∃ absence, t.follow k name = .error absence := by
    intro k
    have hb : LeadsBelow name := by
      obtain hidle | rfl | hb := leadsBelow_or name
      · simp only [isIdle, Bool.or_eq_true, decide_eq_true_eq] at hidle
        rcases hidle with rfl | rfl
        · exact absurd hlong (by decide)
        · exact absurd hlong (by decide)
      · exact absurd hlong (by decide)
      · exact hb
    unfold follow
    split
    · exact ⟨_, rfl⟩
    · exact ⟨.tooLong, by simp [hb.not_idle, hb.ne_above]⟩
  obtain ⟨names, -, hjoined⟩ := pathNames_joinPath directory name
  intro h
  obtain ⟨-, -, -, hall⟩ := locate_eq_ok.1 h
  rw [hjoined, pathNames_of_not_mem hslash, List.foldlM_append] at hall
  cases hfront : names.foldlM t.follow (t.origin (joinPath directory name)) with
  | error absence =>
    rw [hfront] at hall
    cases hall
  | ok k =>
    obtain ⟨absence, hk⟩ := hfollow k
    rw [hfront] at hall
    change (t.follow k name >>= pure) = .ok l at hall
    rw [hk] at hall
    cases hall

end Directories

end FileTree

section Write

open FileTree

variable {t u w : FileTree} {l : Location} {force : Bool} {directory name : OsText}
  {content : Array UInt8} {hindrance : Option Hindrance} {failure : Option WriteError}

/-- The place of a file in a directory is one where it can be written. -/
structure IsOpen (t : FileTree) (force : Bool) (place : Location) : Prop where
  free : t.occupied place → force
  plain : t.isDirectory place = false

/-- A write fails and leaves all files as they are, or it puts at least a beginning of the content
at the place of the file. -/
theorem writeFile_cases (h : writeFile t force directory name content hindrance = (w, failure)) :
    (∃ cause, failure = some cause ∧ (∀ path, cause ≠ .fileNotWritten path)
        ∧ w = (t.makeDirectories directory (hindrance.bind Hindrance.way?)).1)
      ∨ ∃ u l stored, t.makeDirectories directory none = (u, some l)
        ∧ IsOpen u force (u.behind (l ++ [name])) ∧ name.length ≤ maxNameSize
        ∧ (joinPath directory name).length ≤ maxPathSize
        ∧ w = u.put (u.behind (l ++ [name])) stored
        ∧ (failure = none ∧ stored = content
          ∨ failure = some (.fileNotWritten (joinPath directory name))
            ∧ ∃ size, stored = content.take size) := by
  unfold writeFile at h
  rcases hmade : t.makeDirectories directory (hindrance.bind Hindrance.way?) with ⟨u, _ | l⟩
  · rw [hmade] at h
    cases h
    exact .inl ⟨_, rfl, nofun, rfl⟩
  rw [hmade] at h
  dsimp only at h
  split at h
  · cases h
    exact .inl ⟨_, rfl, nofun, rfl⟩
  rename_i hfree
  split at h
  · cases h
    exact .inl ⟨_, rfl, nofun, rfl⟩
  rename_i hplain
  simp only [Bool.or_eq_true, decide_eq_true_eq, not_or, Bool.not_eq_true, Nat.not_lt] at hplain
  obtain ⟨⟨⟨hdirectory, ⟨hname, hpath⟩, hplace⟩, -⟩, -⟩ := hplain
  have hway := (makeDirectories_eq_some.1 hmade).1
  rw [hway] at hmade
  have hopen : IsOpen u force (u.behind (l ++ [name])) := by
    refine ⟨fun ho => ?_, hdirectory⟩
    simpa [ho, Nat.not_lt.2 hname, Nat.not_lt.2 hpath, hplace] using hfree
  refine .inr ⟨u, l, ?_⟩
  split at h
  · cases h
    exact ⟨_, hmade, hopen, hname, hpath, rfl, .inr ⟨rfl, _, rfl⟩⟩
  · cases h
    exact ⟨_, hmade, hopen, hname, hpath, rfl, .inl ⟨rfl, rfl⟩⟩

/-- A write succeeds if the directory can be made, nothing bars the place of the file, its name and
its path are not too long, and the system does not hinder it. -/
theorem writeFile_of_free (hmade : t.makeDirectories directory none = (u, some l))
    (hplace : u.link? (l ++ [name]) = none) (hfree : u.occupied (l ++ [name]) = false)
    (hname : name.length ≤ maxNameSize) (hpath : (joinPath directory name).length ≤ maxPathSize) :
    writeFile t force directory name content none = (u.put (l ++ [name]) content, none) := by
  have hdirectory := (Bool.or_eq_false_iff.1 hfree).2
  simp [writeFile, hmade, behind_of_link?_eq_none hplace, hfree, hdirectory, Nat.not_lt.2 hname,
    Nat.not_lt.2 hpath]

theorem writeFile_extends (h : writeFile t force directory name content hindrance = (w, failure)) :
    t.Extends w := by
  obtain ⟨-, -, -, rfl⟩ | ⟨u, l, stored, hmade, -, -, -, rfl, -⟩ := writeFile_cases h
  · exact makeDirectories_extends _ _ _
  · have hext := makeDirectories_extends t directory none
    rw [hmade] at hext
    exact hext.trans (extends_put _ _ _)

theorem FileTree.IsNavigable.writeFile (ht : t.IsNavigable)
    (h : Console.writeFile t force directory name content hindrance = (w, failure)) :
    w.IsNavigable := by
  obtain ⟨-, -, -, rfl⟩ | ⟨u, l, stored, hmade, -, -, -, rfl, -⟩ := writeFile_cases h
  · exact ht.makeDirectories _ _
  · have hu := ht.makeDirectories directory none
    rw [hmade] at hu
    exact hu.put

end Write

end Carving.Console
