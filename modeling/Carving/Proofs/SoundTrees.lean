import Carving.Proofs.FileWrites

/-!
# Trees without gaps

A tree is whole if everything in it is in a directory, has proper names and has a place of its own.
Then the names of a place below a directory, joined to a path of the directory, lead to what is
there (`IsWhole.locate_pathBelow`). The directories of a tree that is given by the paths of its
files can all be followed (`isNavigable_ofFiles`).
-/

namespace Carving.Console

/-- A path of what some names lead to, from where a path leads. -/
def pathBelow (path : OsText) (names : List OsText) : OsText := names.foldl joinPath path

theorem length_joinPath_le (path name : OsText) : path.length + name.length
    ≤ (joinPath path name).length := by
  rw [FileTree.joinPath_eq]
  split <;> simp only [List.length_append, List.length_cons] <;> omega

/-- Each name makes a path longer. -/
theorem length_joinPath_lt (path : OsText) {name : OsText} (h : name ≠ []) :
    path.length < (joinPath path name).length := by
  have hname := List.length_pos_iff.2 h
  have hle := length_joinPath_le path name
  omega

theorem length_le_pathBelow (path : OsText) {names : List OsText}
    (h : ∀ name ∈ names, name ≠ []) :
    path.length + names.length ≤ (pathBelow path names).length := by
  induction names generalizing path with
  | nil => exact Nat.le_refl _
  | cons name names ih =>
    obtain ⟨hname, hrest⟩ := List.forall_mem_cons.1 h
    have hlt := length_joinPath_lt path hname
    have hle := ih (joinPath path name) hrest
    rw [List.length_cons]
    exact Nat.le_trans (by omega) hle

namespace FileTree

variable {t : FileTree} {l l' : Location} {path name : OsText} {names : List OsText}
  {content : Array UInt8}

/-- Everything is in a directory and has proper names, and no two things have one place. -/
structure IsWhole (t : FileTree) : Prop where
  current : t.isDirectory t.current
  parent : ∀ place ∈ t.places, t.isDirectory place.dropLast
  proper : ∀ place ∈ t.places, ∀ name ∈ place, IsProper name
  nodup : t.places.Nodup

instance (t : FileTree) : Decidable t.IsWhole :=
  decidable_of_iff (t.isDirectory t.current ∧ (∀ place ∈ t.places, t.isDirectory place.dropLast)
    ∧ (∀ place ∈ t.places, ∀ name ∈ place, IsProper name) ∧ t.places.Nodup)
    ⟨fun ⟨h1, h2, h3, h4⟩ => ⟨h1, h2, h3, h4⟩, fun ⟨h1, h2, h3, h4⟩ => ⟨h1, h2, h3, h4⟩⟩

instance (t : FileTree) : Decidable t.IsNavigable :=
  decidable_of_iff (t.isDirectory t.current ∧ (∀ l ∈ t.directories, t.isDirectory l.dropLast)
    ∧ ∀ l ∈ t.directories, ∀ name ∈ l, IsProper name)
    ⟨fun ⟨h1, h2, h3⟩ => ⟨h1, h2, h3⟩, fun ⟨h1, h2, h3⟩ => ⟨h1, h2, h3⟩⟩

theorem mem_places : l ∈ t.places ↔ l ∈ t.directories ∨ t.isFile l ∨ (t.link? l).isSome := by
  simp [places, isFile, content?, link?]

theorem IsWhole.toIsNavigable (ht : t.IsWhole) : t.IsNavigable where
  current := ht.current
  closed := fun _ hl => ht.parent _ (mem_places.2 (.inl hl))
  directory := fun _ hl => ht.proper _ (mem_places.2 (.inl hl))

/-- There is no link where a directory is. -/
theorem IsWhole.behind_eq (ht : t.IsWhole) (hl : t.isDirectory (l ++ [name])) :
    t.behind (l ++ [name]) = l ++ [name] := by
  have hmem : l ++ [name] ∈ t.directories := by simpa using isDirectory_iff.1 hl
  refine behind_of_link?_eq_none (Option.map_eq_none_iff.2 (List.find?_eq_none.2 ?_))
  intro link hlink heq
  obtain ⟨-, -, hdisjoint⟩ := List.nodup_append.1 ht.nodup
  refine hdisjoint _ (List.mem_append_left _ hmem) _ (List.mem_map_of_mem hlink) ?_
  simpa using (of_decide_eq_true heq).symm

section Below

/-- A place that leads to a directory is one. -/
theorem IsNavigable.isDirectory_of_append (ht : t.IsNavigable) (h : t.isDirectory (l ++ names)) :
    t.isDirectory l := by
  induction names generalizing l with
  | nil => rwa [List.append_nil] at h
  | cons name names ih =>
    rw [List.append_cons] at h
    have hbelow := ht.isDirectory_dropLast (ih h)
    rwa [List.dropLast_concat] at hbelow

theorem length_le_length_pathBelow (path : OsText) (names : List OsText) :
    path.length ≤ (pathBelow path names).length := by
  induction names generalizing path with
  | nil => exact Nat.le_refl _
  | cons name names ih =>
    have hle := length_joinPath_le path name
    exact Nat.le_trans (by omega) (ih (joinPath path name))

/-- A name of a directory in a directory, joined to a path that leads there, leads on. -/
theorem IsWhole.locate_directory (ht : t.IsWhole) (hlocate : t.locate path = .ok l)
    (hl : t.isDirectory l) (hdirectory : t.isDirectory (l ++ [name]))
    (hshort : (joinPath path name).length ≤ maxPathSize) :
    t.locate (joinPath path name) = .ok (l ++ [name]) := by
  obtain ⟨hnul, -, -, hpath⟩ := locate_eq_ok.1 hlocate
  have hname := ht.toIsNavigable.proper hdirectory name (by simp)
  have hbehind := ht.behind_eq hdirectory
  rw [locate_joined hnul hname hshort hpath, follow_below hl hname.toLeadsBelow hname.short
    (by simp [hbehind, occupied, hdirectory]), hbehind]

/-- The names of a place below a directory, joined to a path that leads to the directory, are
followed to what is at the place. -/
theorem IsWhole.locate_pathBelow (ht : t.IsWhole) (hlocate : t.locate path = .ok l)
    (hdirectory : t.isDirectory (l ++ names)) (hname : IsProper name)
    (hshort : (pathBelow path (names ++ [name])).length ≤ maxPathSize) :
    t.locate (pathBelow path (names ++ [name])) = t.follow (l ++ names) name := by
  induction names generalizing path l with
  | nil =>
    obtain ⟨hnul, -, -, hpath⟩ := locate_eq_ok.1 hlocate
    rw [List.append_nil]
    exact locate_joined hnul hname hshort hpath
  | cons first names ih =>
    rw [List.append_cons] at hdirectory
    rw [List.append_cons l first names]
    have hfirst : t.isDirectory (l ++ [first]) :=
      ht.toIsNavigable.isDirectory_of_append hdirectory
    have hl : t.isDirectory l := ht.toIsNavigable.isDirectory_of_append hfirst
    have hle := length_le_length_pathBelow (joinPath path first) (names ++ [name])
    exact ih (ht.locate_directory hlocate hl hfirst (Nat.le_trans hle hshort)) hdirectory hshort

end Below

section OfFiles

/-- The locations above another one are its proper beginnings, but for the root. -/
theorem mem_parents : l ∈ ofFiles.parents l' ↔ ∃ k, 0 < k ∧ k < l'.length ∧ l'.take k = l := by
  simp only [ofFiles.parents, List.mem_map, List.range_eq_range', List.drop_range',
    List.mem_range'_1]
  refine exists_congr fun k => ?_
  rw [← and_assoc]
  refine and_congr_left fun _ => ?_
  omega

/-- What a location or one above it is in is the root, or above that location, too. -/
theorem dropLast_take {k : Nat} (hk : k ≤ l.length) :
    (l.take k).dropLast = [] ∨ (l.take k).dropLast ∈ ofFiles.parents l := by
  rw [List.dropLast_eq_take, List.length_take, Nat.min_eq_left hk, List.take_take,
    Nat.min_eq_left (Nat.sub_le k 1)]
  by_cases hone : k - 1 = 0
  · exact .inl (by rw [hone, List.take_zero])
  · exact .inr (mem_parents.2 ⟨k - 1, by omega, by omega, rfl⟩)

/-- A tree with all directories above a location. -/
def withParents (t : FileTree) (l : Location) : FileTree :=
  { t with directories :=
      t.directories ++ (ofFiles.parents l).filter fun above => !t.isDirectory above }

theorem extends_withParents (t : FileTree) (l : Location) : t.Extends (t.withParents l) :=
  ⟨rfl, rfl, List.subset_append_left _ _⟩

theorem isDirectory_withParents_dropLast {k : Nat} (hk : k ≤ l.length) :
    (t.withParents l).isDirectory (l.take k).dropLast := by
  obtain hroot | habove := dropLast_take hk
  · rw [hroot]
    rfl
  · rw [isDirectory_iff]
    by_cases hthere : t.isDirectory (l.take k).dropLast
    · exact (isDirectory_iff.1 hthere).imp_right (List.mem_append_left _)
    · exact .inr (List.mem_append_right _ (List.mem_filter.2 ⟨habove, by simp [hthere]⟩))

theorem IsNavigable.withParents (ht : t.IsNavigable) (hl : ∀ name ∈ l, IsProper name) :
    (t.withParents l).IsNavigable := by
  have hextends := extends_withParents t l
  have hdirectories : ∀ m ∈ (t.withParents l).directories,
      m ∈ t.directories ∨ ∃ k ≤ l.length, l.take k = m := by
    intro m hm
    refine (List.mem_append.1 hm).imp_right fun hm => ?_
    obtain ⟨k, -, hk, hm⟩ := mem_parents.1 (List.mem_filter.1 hm).1
    exact ⟨k, Nat.le_of_lt hk, hm⟩
  refine ⟨hextends.isDirectory ht.current, fun m hm => ?_, fun m hm => ?_⟩
  · obtain hm | ⟨k, hk, rfl⟩ := hdirectories m hm
    · exact hextends.isDirectory (ht.closed m hm)
    · exact isDirectory_withParents_dropLast hk
  · obtain hm | ⟨k, -, rfl⟩ := hdirectories m hm
    · exact ht.directory m hm
    · exact fun name hname => hl name (List.mem_of_mem_take hname)

/-- In a tree that is given by the paths of its files, all directories can be followed. -/
theorem isNavigable_ofFiles {current : Location} {files : List (OsText × Array UInt8)}
    (hcurrent : ∀ name ∈ current, IsProper name)
    (hfiles : ∀ file ∈ files, ∀ name ∈ pathNames file.1, IsProper name) :
    (ofFiles current files).IsNavigable := by
  unfold ofFiles
  have hstart : IsNavigable
      { files := [], directories := ofFiles.parents current ++ [current], current } := by
    have htake : ∀ l ∈ ofFiles.parents current ++ [current], ∃ k ≤ current.length,
        l = current.take k := by
      intro l hl
      rcases List.mem_append.1 hl with hl | hl
      · obtain ⟨k, -, hk, rfl⟩ := mem_parents.1 hl
        exact ⟨k, Nat.le_of_lt hk, rfl⟩
      · exact ⟨_, Nat.le_refl _, (List.mem_singleton.1 hl).trans List.take_length.symm⟩
    refine ⟨isDirectory_iff.2 (.inr (by simp)), fun l hl => ?_, fun l hl => ?_⟩
    · obtain ⟨k, hk, rfl⟩ := htake l hl
      exact isDirectory_iff.2 ((dropLast_take hk).imp_right (List.mem_append_left _))
    · obtain ⟨k, -, rfl⟩ := htake l hl
      exact fun name hname => hcurrent name (List.mem_of_mem_take hname)
  generalize ({ files := [], directories := ofFiles.parents current ++ [current], current } :
    FileTree) = t at hstart
  induction files generalizing t with
  | nil => exact hstart
  | cons file files ih =>
    obtain ⟨hfile, hrest⟩ := List.forall_mem_cons.1 hfiles
    have hnames : ∀ name ∈ t.current ++ pathNames file.1, IsProper name := fun name hname =>
      (List.mem_append.1 hname).elim (hstart.proper hstart.current name) (hfile name)
    exact ih hrest _ (hstart.withParents hnames).put

end OfFiles

end FileTree

end Carving.Console
