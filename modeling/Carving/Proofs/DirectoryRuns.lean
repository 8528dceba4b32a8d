import Mathlib.Data.List.Nodup
import Carving.Proofs.PrintedLines
import Carving.Proofs.Duplicates
import Carving.Proofs.KeptFiles
import Carving.Proofs.SoundTrees

/-!
# Runs on directories

A run that does not carve keeps nothing in mind from one blob to the next, so it lists of each blob
below a directory what it would list of that blob alone (`history_listed`). It meets each file below
the directory once, and each link to one, except those whose own names are hidden, whatever the
order in which the system finds them (`Run.walk_idle`). So it lists what runs on the single files
list, one after another in some order of the files (`directory_run_eq`).
-/

namespace Carving.Console

open OsText (newline ofString)

/-- The byte that the names of hidden files begin with. -/
def dot : UInt8 := 0x2E

/-- The system finds each name in a directory once. -/
def Host.ListsOnce (host : Host) (t : FileTree) : Prop :=
  ∀ location, t.isDirectory location → (host.names t location).Perm (t.namesIn location)

namespace FileTree

/-- A file below a location, or a link to one, whose own name does not begin with a dot. -/
structure IsVisible (t : FileTree) (location : Location) (names : List OsText) : Prop where
  directory : t.isDirectory (location ++ names.dropLast)
  file : t.isFile (t.behind (location ++ names))
  name : ∃ name, names.getLast? = some name ∧ name.head? ≠ some dot

/-- An order of all files below a location but the hidden ones. -/
structure IsVisit (t : FileTree) (location : Location) (order : List (List OsText)) : Prop where
  nodup : order.Nodup
  mem_iff : ∀ names, names ∈ order ↔ t.IsVisible location names

/-- What is in the directories below a location, except directories, in the order of the system and
down to some depth. -/
def leaves (t : FileTree) (host : Host) : Nat → Location → List (List OsText)
  | 0, _ => []
  | depth + 1, location => (host.names t location).flatMap fun name =>
    if t.isDirectory (location ++ [name]) then
      (t.leaves host depth (location ++ [name])).map (name :: ·)
    else [[name]]

/-- Something in a directory below a location that is not a directory itself. -/
structure IsLeaf (t : FileTree) (location : Location) (names : List OsText) : Prop where
  directory : t.isDirectory (location ++ names.dropLast)
  place : location ++ names ∈ t.places
  plain : t.isDirectory (location ++ names) = false

section Leaves

variable {t : FileTree} {host : Host} {location : Location} {name : OsText}
  {names rest : List OsText} {depth : Nat}

theorem mem_namesIn : name ∈ t.namesIn location ↔ location ++ [name] ∈ t.places := by
  simp only [namesIn, List.mem_filterMap, Option.ite_none_right_eq_some]
  constructor
  · rintro ⟨place, hplace, rfl, hlast⟩
    rwa [List.dropLast_append_getLast? _ hlast]
  · intro hplace
    exact ⟨_, hplace, List.dropLast_concat, List.getLast?_concat⟩

theorem IsWhole.nodup_namesIn (ht : t.IsWhole) (location : Location) :
    (t.namesIn location).Nodup := by
  refine List.Nodup.filterMap (fun place place' name hname hname' => ?_) ht.nodup
  obtain ⟨hdrop, hlast⟩ := Option.ite_none_right_eq_some.1 hname
  obtain ⟨hdrop', hlast'⟩ := Option.ite_none_right_eq_some.1 hname'
  rw [← List.dropLast_append_getLast? _ hlast, ← List.dropLast_append_getLast? _ hlast', hdrop,
    hdrop']

theorem IsLeaf.ne_nil (hl : t.isDirectory location) (h : t.IsLeaf location names) : names ≠ [] := by
  rintro rfl
  have hplain := h.plain
  rw [List.append_nil, hl] at hplain
  cases hplain

/-- What is below a directory is in it, or below a directory in it. -/
theorem IsWhole.isLeaf_cons (ht : t.IsWhole) (hl : t.isDirectory location) :
    t.IsLeaf location (name :: rest) ↔ location ++ [name] ∈ t.places
      ∧ if t.isDirectory (location ++ [name]) then t.IsLeaf (location ++ [name]) rest
        else rest = [] := by
  cases rest with
  | nil =>
    constructor
    · rintro ⟨-, hplace, hplain⟩
      exact ⟨hplace, by simp [hplain]⟩
    · rintro ⟨hplace, h⟩
      have hplain : t.isDirectory (location ++ [name]) = false := by
        by_contra hdirectory
        rw [if_pos (by simpa using hdirectory)] at h
        exact h.ne_nil (by simpa using hdirectory) rfl
      exact ⟨by simpa using hl, hplace, hplain⟩
  | cons second rest =>
    have hdrop : location ++ (name :: second :: rest).dropLast
        = location ++ [name] ++ (second :: rest).dropLast := by simp
    constructor
    · rintro ⟨hdirectory, hplace, hplain⟩
      rw [hdrop] at hdirectory
      have hbelow := ht.toIsNavigable.isDirectory_of_append hdirectory
      rw [List.append_cons] at hplace hplain
      have hmem : location ++ [name] ∈ t.directories := by simpa using isDirectory_iff.1 hbelow
      rw [if_pos hbelow]
      exact ⟨mem_places.2 (.inl hmem), hdirectory, hplace, hplain⟩
    · rintro ⟨-, h⟩
      split at h
      · obtain ⟨hdirectory, hplace, hplain⟩ := h
        rw [← List.append_cons] at hplace hplain
        exact ⟨hdrop ▸ hdirectory, hplace, hplain⟩
      · cases h

/-- All that there is down to some depth is listed, and nothing else. -/
theorem IsWhole.mem_leaves (ht : t.IsWhole) (hhost : host.ListsOnce t)
    (hl : t.isDirectory location) :
    names ∈ t.leaves host depth location ↔ t.IsLeaf location names ∧ names.length ≤ depth := by
  induction depth generalizing location names with
  | zero =>
    refine iff_of_false List.not_mem_nil fun h => h.1.ne_nil hl ?_
    exact List.length_eq_zero_iff.1 (Nat.le_zero.1 h.2)
  | succ depth ih =>
    cases names with
    | nil =>
      refine iff_of_false (fun h => ?_) fun h => h.1.ne_nil hl rfl
      obtain ⟨name, -, h⟩ := List.mem_flatMap.1 h
      split at h <;> simp at h
    | cons name rest =>
      rw [ht.isLeaf_cons hl, leaves, List.mem_flatMap]
      have hname (other : OsText) : other ∈ host.names t location
          ↔ location ++ [other] ∈ t.places := (hhost location hl).mem_iff.trans mem_namesIn
      constructor
      · rintro ⟨other, hother, h⟩
        split at h
        · rename_i hdirectory
          obtain ⟨below, hbelow, heq⟩ := List.mem_map.1 h
          obtain ⟨rfl, rfl⟩ := List.cons.inj heq
          obtain ⟨hleaf, hlength⟩ := (ih hdirectory).1 hbelow
          exact ⟨⟨(hname _).1 hother, by rwa [if_pos hdirectory]⟩, Nat.succ_le_succ hlength⟩
        · rename_i hdirectory
          obtain ⟨rfl, rfl⟩ := List.cons.inj (List.mem_singleton.1 h)
          exact ⟨⟨(hname _).1 hother, by rw [if_neg hdirectory]⟩, Nat.succ_le_succ (Nat.zero_le _)⟩
      · rintro ⟨⟨hplace, h⟩, hlength⟩
        refine ⟨name, (hname name).2 hplace, ?_⟩
        split at h
        · rename_i hdirectory
          rw [if_pos hdirectory]
          exact List.mem_map_of_mem ((ih hdirectory).2 ⟨h, Nat.le_of_succ_le_succ hlength⟩)
        · rename_i hdirectory
          rw [if_neg hdirectory, h, List.mem_singleton]

theorem IsWhole.nodup_leaves (ht : t.IsWhole) (hhost : host.ListsOnce t)
    (hl : t.isDirectory location) : (t.leaves host depth location).Nodup := by
  induction depth generalizing location with
  | zero => exact List.nodup_nil
  | succ depth ih =>
    refine List.nodup_flatMap.2 ⟨fun name _ => ?_, ?_⟩
    · split
      · exact (ih ‹_›).map List.cons_injective
      · exact List.nodup_singleton _
    · -- What begins with different names is different.
      refine ((hhost location hl).nodup_iff.2 (ht.nodup_namesIn location)).imp fun hne => ?_
      have hfirst {name : OsText} {names : List OsText}
          (h : names ∈ if t.isDirectory (location ++ [name]) then
            (t.leaves host depth (location ++ [name])).map (name :: ·) else [[name]]) :
          names.head? = some name := by
        split at h
        · obtain ⟨rest, -, rfl⟩ := List.mem_map.1 h
          rfl
        · rw [List.mem_singleton.1 h]
          rfl
      intro names h h'
      exact hne (Option.some.inj ((hfirst h).symm.trans (hfirst h')))

/-- Each file that is visible is a leaf, for a link is where nothing else is. -/
theorem IsWhole.isLeaf_of_isVisible (ht : t.IsWhole) (h : t.IsVisible location names) :
    t.IsLeaf location names := by
  obtain ⟨name, hlast, -⟩ := h.name
  have hne : location ++ names ≠ [] := by
    rintro heq
    rw [(List.append_eq_nil_iff.1 heq).2] at hlast
    cases hlast
  refine ⟨h.directory, ?_, ?_⟩
  · rw [mem_places]
    refine .inr (Decidable.or_iff_not_imp_right.2 fun hlink => ?_)
    have hfile := h.file
    rwa [behind_of_link?_eq_none (by simpa using hlink)] at hfile
  · by_contra hdirectory
    have hdirectory : t.isDirectory (location ++ names) := by simpa using hdirectory
    have hmem := (isDirectory_iff.1 hdirectory).resolve_left hne
    have hbehind : t.behind (location ++ names) = location ++ names := by
      rw [← List.dropLast_append_getLast? _ hlast, ← List.append_assoc] at hdirectory ⊢
      exact ht.behind_eq hdirectory
    have hfile := isFile_iff.1 (hbehind ▸ h.file)
    obtain ⟨hplaces, -, -⟩ := List.nodup_append.1 ht.nodup
    exact (List.nodup_append.1 hplaces).2.2 _ hmem _ hfile rfl

/-- The files that are visible below a location, in the order of the system. -/
def visible (t : FileTree) (host : Host) (location : Location) : List (List OsText) :=
  (t.leaves host (maxPathSize + t.places.flatten.length) location).filter fun names =>
    t.isFile (t.behind (location ++ names)) && names.getLast?.any (·.head? ≠ some dot)

theorem IsWhole.isVisit_visible (ht : t.IsWhole) (hhost : host.ListsOnce t)
    (hl : t.isDirectory location) : t.IsVisit location (t.visible host location) where
  nodup := (ht.nodup_leaves hhost hl).filter _
  mem_iff names := by
    rw [visible, List.mem_filter, ht.mem_leaves hhost hl, Bool.and_eq_true, Option.any_eq_true]
    constructor
    · rintro ⟨⟨hleaf, -⟩, hfile, name, hlast, hname⟩
      exact ⟨hleaf.directory, hfile, name, hlast, by simpa using hname⟩
    · intro h
      obtain ⟨name, hlast, hname⟩ := h.name
      have hleaf := ht.isLeaf_of_isVisible h
      refine ⟨⟨hleaf, ?_⟩, h.file, name, hlast, by simpa using hname⟩
      have hle := (List.sublist_flatten_of_mem hleaf.place).length_le
      rw [List.length_append] at hle
      omega

end Leaves

end FileTree

section Met

variable {t : FileTree} {location : Location} {path name : OsText} {names : List OsText}

/-- There is a file where a path leads, and it is not hidden. -/
def FileTree.meets (t : FileTree) (path : OsText) : Bool := t.leadsToFile path && !isHidden path

theorem fileName?_joinPath (directory : OsText) (hname : IsProper name) :
    fileName? (joinPath directory name) = some name := by
  obtain ⟨names, -, hjoined⟩ := FileTree.pathNames_joinPath directory name
  rw [fileName?, hjoined, FileTree.pathNames_of_not_mem hname.no_slash, List.reverse_append,
    List.reverse_singleton, List.singleton_append,
    List.dropWhile_cons_of_neg (by simp [hname.not_idle])]
  exact if_neg hname.ne_above

theorem head?_ofString (s : String) : (ofString s).head? = some dot ↔ s.startsWith "." := by
  rw [String.startsWith_string_iff, show ".".toList = ['.'] from rfl, ofString]
  cases s.toList with
  | nil => simp
  | cons c text =>
    have hne : String.utf8EncodeChar c ≠ [] := List.ne_nil_of_length_pos (by
      rw [String.length_utf8EncodeChar]
      exact Char.utf8Size_pos c)
    rw [List.flatMap_cons, List.head?_append_of_ne_nil _ hne]
    constructor
    · intro h
      have hc := OsText.eq_of_mem_encode (by decide) (List.mem_of_mem_head? h)
      simp [show c = '.' from hc]
    · intro h
      have hc : c = '.' := by simpa [eq_comm] using h
      rw [hc]
      rfl

/-- No name that begins with a dot is anything but a string. -/
def FileTree.HasPlainDots (t : FileTree) : Prop :=
  ∀ place ∈ t.places, ∀ name ∈ place.getLast?, name.head? = some dot → (OsText.string? name).isSome

instance (t : FileTree) : Decidable t.HasPlainDots :=
  inferInstanceAs (Decidable (∀ place ∈ t.places, ∀ name ∈ place.getLast?, _ → _))

theorem isHidden_joinPath (directory : OsText) (hname : IsProper name)
    (hdot : name.head? = some dot → (OsText.string? name).isSome) :
    isHidden (joinPath directory name) ↔ name.head? = some dot := by
  have hstring {s : String} : OsText.string? name = some s → (name.head? = some dot
      ↔ s.startsWith ".") := fun hs => by
    rw [OsText.string?_eq_some.1 hs, head?_ofString]
  rw [isHidden, fileName?_joinPath directory hname, Option.bind_some, Option.any_eq_true]
  constructor
  · rintro ⟨s, hs, hstarts⟩
    exact (hstring hs).2 hstarts
  · intro hhead
    obtain ⟨s, hs⟩ := Option.isSome_iff_exists.1 (hdot hhead)
    exact ⟨s, hs, (hstring hs).1 hhead⟩

variable (ht : t.IsWhole) (hlocate : t.locate path = .ok location) (hl : t.isDirectory location)
include ht hlocate hl

/-- The path of a leaf leads to a file if it is not too long, and that is there or a link to it. -/
theorem leadsToFile_pathBelow (hleaf : t.IsLeaf location names) :
    t.leadsToFile (pathBelow path names) ↔ (pathBelow path names).length ≤ maxPathSize
      ∧ t.isFile (t.behind (location ++ names)) := by
  obtain ⟨above, name, rfl⟩ : ∃ above name, names = above ++ [name] :=
    ⟨_, _, (List.dropLast_append_getLast (hleaf.ne_nil hl)).symm⟩
  have hdirectory := hleaf.directory
  rw [List.dropLast_concat] at hdirectory
  have hname : IsProper name := ht.proper _ hleaf.place name (by simp)
  have hplace : location ++ (above ++ [name]) = location ++ above ++ [name] :=
    (List.append_assoc ..).symm
  rw [hplace]
  by_cases hshort : (pathBelow path (above ++ [name])).length ≤ maxPathSize
  · rw [FileTree.leadsToFile, FileTree.locate?,
      ht.locate_pathBelow hlocate hdirectory hname hshort]
    have hfollow : t.follow (location ++ above) name
        = if t.occupied (t.behind (location ++ above ++ [name]))
          then .ok (t.behind (location ++ above ++ [name])) else .error .notFound := by
      simp [FileTree.follow, hdirectory, hname.not_idle, hname.ne_above, Nat.not_lt.2 hname.short]
    rw [hfollow]
    split
    · simp [hshort, Except.toOption]
    · rename_i hfree
      simp_all [FileTree.occupied, Except.toOption]
  · refine iff_of_false (fun h => hshort ?_) fun h => hshort h.1
    rw [FileTree.leadsToFile, Option.any_eq_true] at h
    obtain ⟨place, hlocate, -⟩ := h
    exact (FileTree.locate_eq_ok.1 (FileTree.locate?_eq_some.1 hlocate)).2.2.1

/-- What a run meets is visible. -/
theorem meets_pathBelow (hdots : t.HasPlainDots) (hleaf : t.IsLeaf location names) :
    t.meets (pathBelow path names) = (t.leadsToFile (pathBelow path names)
      && (t.isFile (t.behind (location ++ names)) && names.getLast?.any (·.head? ≠ some dot))) := by
  obtain ⟨above, name, rfl⟩ : ∃ above name, names = above ++ [name] :=
    ⟨_, _, (List.dropLast_append_getLast (hleaf.ne_nil hl)).symm⟩
  have hname : IsProper name := ht.proper _ hleaf.place name (by simp)
  have hhidden : isHidden (pathBelow path (above ++ [name])) ↔ name.head? = some dot := by
    rw [pathBelow, List.foldl_append]
    exact isHidden_joinPath _ hname (hdots _ hleaf.place name (by simp))
  have hleads := leadsToFile_pathBelow ht hlocate hl hleaf
  rw [FileTree.meets, List.getLast?_concat, Bool.eq_iff_iff]
  simp only [Bool.and_eq_true, Bool.not_eq_true', ← Bool.not_eq_true, hhidden, hleads,
    Option.any_some, decide_eq_true_eq]
  tauto

end Met

section Walk

variable {digest : List UInt8 → List UInt8} {host : Host} {o : Options} {t : FileTree}
  {location : Location} {path : OsText}

/-- A run that writes nothing leaves the tree as it is at each blob. -/
theorem Run.tree_processAmong (hidle : o.carve = false ∨ o.dryRun) (r : Run) (path : OsText) :
    (r.processAmong digest host o path).tree = r.tree := by
  have hledger := (Run.visits_processAmong digest host o r path).carves.ledger_eq
  exact (congrArg Ledger.tree hledger).trans
    (Ledger.Explains.tree_after hidle (Ledger.explains_history _))

theorem Run.tree_foldl_processAmong (hidle : o.carve = false ∨ o.dryRun) (r : Run)
    (paths : List OsText) : (paths.foldl (processAmong digest host o) r).tree = r.tree := by
  induction paths generalizing r with
  | nil => rfl
  | cons path paths ih => exact (ih _).trans (tree_processAmong hidle r path)

theorem Run.visits_foldl_processAmong (r : Run) (paths : List OsText) :
    r.Visits digest host o paths (paths.foldl (processAmong digest host o) r) := by
  induction paths generalizing r with
  | nil => exact .refl r
  | cons path paths ih => exact (visits_processAmong digest host o r path).trans (ih _)

/-- If each step of a fold that leaves the tree processes some blobs, so does the fold. -/
theorem Run.foldl_idle (hidle : o.carve = false ∨ o.dryRun) {step : Run → OsText → Run}
    {visited : OsText → List OsText} {names : List OsText}
    (hstep : ∀ r : Run, r.tree = t → ∀ name ∈ names,
      step r name = (visited name).foldl (processAmong digest host o) r) (r : Run)
    (hr : r.tree = t) :
    names.foldl step r = (names.flatMap visited).foldl (processAmong digest host o) r := by
  induction names generalizing r with
  | nil => rfl
  | cons name names ih =>
    rw [List.foldl_cons, List.flatMap_cons, List.foldl_append, hstep r hr name List.mem_cons_self]
    refine ih (fun r hr name hname => hstep r hr name (List.mem_cons_of_mem _ hname)) _ ?_
    rw [tree_foldl_processAmong hidle, hr]

theorem meets_of_long (hlong : maxPathSize < path.length) : t.meets path = false := by
  have hlocate : t.locate? path = none := Option.eq_none_iff_forall_ne_some.2 fun place h =>
    Nat.not_lt.2 (FileTree.locate_eq_ok.1 (FileTree.locate?_eq_some.1 h)).2.2.1 hlong
  simp [FileTree.meets, FileTree.leadsToFile, hlocate]

/-- Nothing is met below a directory if the paths there are too long. -/
theorem filter_meets_of_long (ht : t.IsWhole) (hhost : host.ListsOnce t)
    (hl : t.isDirectory location) (hlong : maxPathSize ≤ path.length) (bound : Nat) :
    ((t.leaves host bound location).map (pathBelow path)).filter t.meets = [] := by
  refine List.filter_eq_nil_iff.2 fun below hbelow => ?_
  obtain ⟨names, hnames, rfl⟩ := List.mem_map.1 hbelow
  have hleaf := ((ht.mem_leaves hhost hl).1 hnames).1
  have hle := length_le_pathBelow path fun name hname =>
    (ht.proper _ hleaf.place name (List.mem_append_right _ hname)).ne_nil
  have hpos := List.length_pos_iff.2 (hleaf.ne_nil hl)
  simp [meets_of_long (t := t) (show maxPathSize < (pathBelow path names).length by omega)]

/-- On its way below a directory a run that writes nothing processes each leaf whose path leads to a
file that is not hidden. -/
theorem Run.walk_idle (hidle : o.carve = false ∨ o.dryRun) (ht : t.IsWhole)
    (hhost : host.ListsOnce t) {depth bound : Nat} (hbound : depth ≤ bound) {r : Run}
    (hr : r.tree = t) (hlocate : t.locate path = .ok location) (hl : t.isDirectory location)
    (hdepth : maxPathSize ≤ path.length + depth) :
    walk digest host o depth r path
      = (((t.leaves host bound location).map (pathBelow path)).filter t.meets).foldl
        (processAmong digest host o) r := by
  induction depth generalizing bound r path location with
  | zero => rw [filter_meets_of_long ht hhost hl hdepth, walk, List.foldl_nil]
  | succ depth ih =>
    obtain ⟨bound, rfl⟩ : ∃ k, bound = k + 1 := ⟨bound - 1, by omega⟩
    rw [walk, hr, FileTree.locate?_eq_some.2 hlocate, FileTree.leaves, List.map_flatMap,
      List.filter_flatMap]
    refine foldl_idle hidle (fun r hr name hname => ?_) r hr
    have hplace := FileTree.mem_namesIn.1 ((hhost location hl).mem_iff.1 hname)
    have hlonger := length_joinPath_lt path (ht.proper _ hplace name (by simp)).ne_nil
    rw [hr]
    by_cases hdirectory : t.isDirectory (location ++ [name])
    · rw [if_pos hdirectory, if_pos hdirectory, List.map_map]
      change _ = (((t.leaves host bound (location ++ [name])).map
        (pathBelow (joinPath path name))).filter t.meets).foldl _ r
      by_cases hshort : (joinPath path name).length ≤ maxPathSize
      · exact ih (by omega) hr (ht.locate_directory hlocate hl hdirectory hshort) hdirectory
          (by omega)
      · rw [filter_meets_of_long ht hhost hdirectory (by omega)]
        cases depth with
        | zero => rfl
        | succ depth =>
          have hnone : r.tree.locate? (joinPath path name) = none :=
            Option.eq_none_iff_forall_ne_some.2 fun place h =>
              hshort (FileTree.locate_eq_ok.1 (FileTree.locate?_eq_some.1 h)).2.2.1
          rw [walk, hnone, List.foldl_nil]
    · rw [if_neg hdirectory, if_neg hdirectory, List.map_singleton, meet, hr]
      change (if t.meets (joinPath path name) then _ else _)
        = ([joinPath path name].filter t.meets).foldl _ r
      rw [List.filter_singleton]
      cases t.meets (joinPath path name) <;> rfl

end Walk

section Listed

variable {digest : List UInt8 → List UInt8} {host : Host} {o : Options} {t : FileTree} {l : Ledger}
  {path : OsText} {e : Carved}

/-- A chunk that is not to be carved. -/
def listedChunk (path : OsText) (data : Array UInt8) (f : Finding) : Carved :=
  ⟨path, ofString (chunkFileName (blobName path) f), f, f.chunk.slice data, .listed⟩

/-- The options of a run that scans one file, and otherwise those of another run. -/
def Options.onFile (o : Options) (path : OsText) : Options := { o with input := .file path }

/-- The chunks of a blob that is scanned and not carved. -/
def listedIn (host : Host) (o : Options) (t : FileTree) (path : OsText) : List Carved :=
  match host.readFile t path with
  | .error _ => []
  | .ok data => (scanned o.scanConfig data).map (listedChunk path data)

theorem exists_readFile (hrefusal : host.refusal? path = none) (h : t.leadsToFile path) :
    ∃ data, host.readFile t path = .ok data := by
  obtain ⟨location, hlocate, hfile⟩ := (Option.any_eq_true _ _).1 h
  obtain ⟨data, hdata⟩ := Option.isSome_iff_exists.1 hfile
  exact ⟨data, Host.readFile_eq_ok.2 ⟨hrefusal,
    FileTree.readFile_eq_ok.2 ⟨location, FileTree.locate?_eq_some.1 hlocate, hdata⟩⟩⟩

theorem listedIn_of_not_leadsToFile (h : ¬ t.leadsToFile path) : listedIn host o t path = [] := by
  unfold listedIn
  split
  · rfl
  · rename_i data hread
    exact absurd (Host.leadsToFile_of_readFile hread) h

/-- What is reported of a chunk that is not to be carved. -/
theorem reports_of_mem_listedIn (he : e ∈ listedIn host o t path) (digest : List UInt8 → List UInt8)
    (o' : Options) : e.reports digest o' = [.found e.path e.finding] := by
  unfold listedIn at he
  split at he
  · cases he
  · obtain ⟨f, -, rfl⟩ := List.mem_map.1 he
    rfl

theorem after_listedIn : l.after digest host o (listedIn host o t path) = l := by
  unfold listedIn
  split
  · rfl
  · rename_i data hread
    generalize scanned o.scanConfig data = found
    induction found with
    | nil => rfl
    | cons f found ih => exact ih

variable (hcarve : o.carve = false)
include hcarve

theorem trail_listed (data : Array UInt8) (found : List Finding) :
    l.trail digest host o path data found = found.map (listedChunk path data) := by
  induction found with
  | nil => rfl
  | cons f found ih =>
    have hone : l.carved digest host o path data f = listedChunk path data f := by
      rw [Ledger.carved, Ledger.fate_eq_listed.2 hcarve, listedChunk]
    rw [Ledger.trail, hone, List.map_cons, ← ih]
    rfl

theorem carvedIn_listed : l.carvedIn digest host o path = listedIn host o l.tree path := by
  unfold Ledger.carvedIn listedIn
  cases host.readFile l.tree path with
  | error cause => rfl
  | ok data => exact trail_listed hcarve data _

/-- Nothing is kept in mind from one blob to the next. -/
theorem history_listed (paths : List OsText) :
    l.history digest host o paths = paths.flatMap (listedIn host o l.tree) := by
  induction paths with
  | nil => rfl
  | cons path paths ih =>
    rw [Ledger.history, carvedIn_listed hcarve, after_listedIn, ih, List.flatMap_cons]

end Listed

section Quiet

variable {digest : List UInt8 → List UInt8} {host : Host} {o : Options} {t : FileTree} {r : Run}
  {path : OsText} {data : Array UInt8}

namespace Run

/-- All notices that a run has told are printed only if notices are asked for. -/
def IsQuiet (r : Run) : Prop :=
  ∀ report ∈ r.reports.toList, ∀ severity, report.mark = some severity → shows 0 severity = false

theorem isQuiet_start (t : FileTree) : (start t).IsQuiet := by
  intro report hreport
  cases hreport

theorem IsQuiet.tell (hr : r.IsQuiet) (notice : Notice) (h : shows 0 notice.severity = false) :
    (r.tell notice).IsQuiet := by
  intro report hreport severity hmark
  rw [Run.tell, reports_report] at hreport
  rcases List.mem_append.1 hreport with hreport | hreport
  · exact hr report hreport severity hmark
  · rw [List.mem_singleton.1 hreport] at hmark
    exact Option.some.inj hmark ▸ h

theorem IsQuiet.announce (hr : r.IsQuiet) (notices : List Notice)
    (h : ∀ notice ∈ notices, shows 0 notice.severity = false) :
    (notices.foldl Run.tell r).IsQuiet := by
  induction notices generalizing r with
  | nil => exact hr
  | cons notice notices ih =>
    obtain ⟨hone, hrest⟩ := List.forall_mem_cons.1 h
    exact ih (hr.tell notice hone) hrest

theorem shows_of_mem_openings {size count : Nat} {notice : Notice}
    (h : notice ∈ openings path size count) : shows 0 notice.severity = false := by
  simp only [openings, List.mem_cons, List.not_mem_nil, or_false] at h
  rcases h with rfl | rfl | rfl
  · rfl
  · rfl
  · split <;> rfl

/-- Nothing quiet is printed but what is no notice, unless notices are asked for. -/
theorem IsQuiet.mark_eq_none (hr : r.IsQuiet) (hverbosity : o.verbosity = 0) {report : Report}
    (h : report ∈ r.reports.toList.filter o.prints) : report.mark = none := by
  obtain ⟨hreport, hprints⟩ := List.mem_filter.1 h
  cases hmark : report.mark with
  | none => rfl
  | some severity =>
    rw [Options.prints, hmark, hverbosity] at hprints
    exact absurd hprints (by simp [hr report hreport severity hmark])

variable (hcarve : o.carve = false)
include hcarve

/-- Chunks that are not to be carved are told of without notices. -/
theorem IsQuiet.settle (hr : r.IsQuiet) {l : Ledger} (found : List Finding) :
    ((l.trail digest host o path data found).foldl (Run.settle digest host o) r).IsQuiet := by
  intro report hreport severity hmark
  rw [reports_foldl_settle] at hreport
  rcases List.mem_append.1 hreport with hreport | hreport
  · exact hr report hreport severity hmark
  · rw [trail_listed hcarve] at hreport
    obtain ⟨e, he, hreport⟩ := List.mem_flatMap.1 hreport
    obtain ⟨f, -, rfl⟩ := List.mem_map.1 he
    rw [List.mem_singleton.1 hreport] at hmark
    cases hmark

/-- Of blobs that can be read a run that does not carve tells nothing loud. -/
theorem IsQuiet.foldl_processAmong {paths : List OsText} (hr : r.IsQuiet)
    (hread : ∀ path ∈ paths, ∃ data, host.readFile r.tree path = .ok data) :
    (paths.foldl (Run.processAmong digest host o) r).IsQuiet := by
  induction paths generalizing r with
  | nil => exact hr
  | cons path paths ih =>
    obtain ⟨⟨data, hdata⟩, hrest⟩ := List.forall_mem_cons.1 hread
    refine ih ?_ fun other hother => ?_
    · rw [processAmong_eq hdata]
      have hmet : IsQuiet { r with blobs := r.blobs.push path } := hr
      refine (hmet.announce _ fun notice hnotice => ?_).settle hcarve _
      rcases List.mem_cons.1 hnotice with rfl | hnotice
      · rfl
      · exact shows_of_mem_openings hnotice
    · rw [tree_processAmong (.inl hcarve)]
      exact hrest other hother

end Run

end Quiet

section Outcome

variable (digest : List UInt8 → List UInt8) {host : Host} {arguments : List OsText} {o : Options}
  {t : FileTree} {location : Location} {path : OsText} (hcarve : o.carve = false)
include hcarve

/-- What a run reports on a directory is told on its way through the visible files. -/
theorem visit_directory (ht : t.IsWhole) (hhost : host.ListsOnce t) (hdots : t.HasPlainDots)
    (hinput : o.input = .directory path) (hlocate : t.locate? path = some location)
    (hl : t.isDirectory location) :
    let paths := ((t.visible host location).map (pathBelow path)).filter t.leadsToFile
    let r := paths.foldl (Run.processAmong digest host o)
      ((Run.start t).tell (.directoryEntered path))
    (Run.start t).visit digest host o = (r.tell (.blobsProcessed paths.length), none)
      ∧ o.blobs digest host t = paths := by
  intro paths r
  have hlocate' := FileTree.locate?_eq_some.1 hlocate
  have hmet : ((t.leaves host (maxPathSize + t.places.flatten.length) location).map
      (pathBelow path)).filter t.meets = paths := by
    simp only [paths, FileTree.visible, List.filter_map, List.filter_filter]
    refine congrArg _ (List.filter_congr fun names hnames => ?_)
    have hleaf := ((ht.mem_leaves hhost hl).1 hnames).1
    exact meets_pathBelow ht hlocate' hl hdots hleaf
  have hwalk : Run.walk digest host o maxPathSize ((Run.start t).tell (.directoryEntered path)) path
      = r := by
    rw [Run.walk_idle (.inl hcarve) ht hhost (Nat.le_add_right _ _) rfl hlocate' hl
      (Nat.le_add_left _ _), hmet]
  have hblobs : r.blobs.toList = paths := (Run.visits_foldl_processAmong _ paths).blobs_eq
  refine ⟨?_, ?_⟩
  · rw [Run.visit, hinput]
    simp only [Run.visitDirectory, Run.tree_start, hlocate, hl, Bool.not_true, Bool.false_eq_true,
      if_false]
    rw [hwalk, Run.summarize, hcarve, ← hblobs]
    rfl
  · exact Run.blobs_of_directory hinput hlocate hl hwalk (Run.visits_foldl_processAmong _ paths)

theorem carvings_directory (ht : t.IsWhole) (hhost : host.ListsOnce t) (hdots : t.HasPlainDots)
    (hinput : o.input = .directory path) (hlocate : t.locate? path = some location)
    (hl : t.isDirectory location) : carvings digest host o t
      = (t.visible host location).flatMap
        fun names => listedIn host o t (pathBelow path names) := by
  have hblobs := (visit_directory digest hcarve ht hhost hdots hinput hlocate hl).2
  rw [carvings, hblobs, history_listed hcarve, flatMap_filter, List.flatMap_map]
  refine List.flatMap_congr fun names _ => ?_
  split
  · rfl
  · rename_i hnone
    exact (listedIn_of_not_leadsToFile hnone).symm

theorem carvings_alone {file : OsText} :
    carvings digest host (o.onFile file) t = listedIn host o t file := by
  have hhistory (paths : List OsText) : Ledger.history digest host (o.onFile file) ⟨t, []⟩ paths
      = paths.flatMap (listedIn host o t) := history_listed (o := o.onFile file) hcarve paths
  rw [carvings, hhistory]
  simp only [Options.blobs, Options.onFile]
  split
  · exact List.flatMap_singleton _ _
  · rename_i hnone
    exact (listedIn_of_not_leadsToFile hnone).symm

/-- The notices of a run take one line each if no path holds a newline. If none are asked for and
all blobs can be read, there are none. -/
theorem notices_directory (ht : t.IsWhole) (hhost : host.ListsOnce t) (hdots : t.HasPlainDots)
    (hinput : o.input = .directory path) (hlocate : t.locate? path = some location)
    (hl : t.isDirectory location) (hparse : Options.parse arguments = .ok o)
    (hlines : o.verbosity = 0 ∧ (∀ names, t.IsVisible location names →
        host.refusal? (pathBelow path names) = none)
      ∨ newline ∉ path ∧ ∀ names, t.IsVisible location names → newline ∉ pathBelow path names) :
    ∀ report ∈ (runWith digest host arguments t).reports,
      report.mark ≠ none → IsLine report.text := by
  intro report hreport hmark
  obtain ⟨hvisit, hblobs⟩ := visit_directory digest hcarve ht hhost hdots hinput hlocate
    hl
  have hvisible {names : List OsText} := ((ht.isVisit_visible hhost hl).mem_iff names).1
  rcases hlines with ⟨hverbosity, hrefusal⟩ | ⟨hpath, hbelow⟩
  · rw [(runWith_visit digest host t hparse).2, hvisit] at hreport
    refine absurd (Run.IsQuiet.mark_eq_none (Run.IsQuiet.tell ?_ _ rfl) hverbosity hreport) hmark
    have hquiet := (Run.isQuiet_start t).tell (.directoryEntered path) rfl
    refine hquiet.foldl_processAmong hcarve fun file hfile => ?_
    obtain ⟨hfile, hleads⟩ := List.mem_filter.1 hfile
    obtain ⟨names, hnames, rfl⟩ := List.mem_map.1 hfile
    exact exists_readFile (hrefusal names (hvisible hnames)) hleads
  · refine isLine_of_mem_runWith digest host t hparse ⟨by rwa [hinput], ?_, ?_⟩ report hreport
    · rw [hcarve]
      simp
    · intro file hfile
      rw [hblobs] at hfile
      obtain ⟨names, hnames, rfl⟩ := List.mem_map.1 (List.mem_of_mem_filter hfile)
      exact hbelow names (hvisible hnames)

theorem notices_alone {file : OsText} (hparse : Options.parse arguments = .ok (o.onFile file))
    (hlines : o.verbosity = 0 ∧ host.refusal? file = none ∨ newline ∉ file) :
    ∀ report ∈ (runWith digest host arguments t).reports,
      report.mark ≠ none → IsLine report.text := by
  intro report hreport hmark
  rcases hlines with ⟨hverbosity, hrefusal⟩ | hfile
  · have hstart := Run.isQuiet_start t
    rw [(runWith_visit digest host t hparse).2] at hreport
    refine absurd (Run.IsQuiet.mark_eq_none (o := o.onFile file) ?_ hverbosity hreport) hmark
    change ((Run.start t).visitFile digest host (o.onFile file) file).1.IsQuiet
    by_cases hleads : t.leadsToFile file
    · obtain ⟨data, hread⟩ := exists_readFile hrefusal hleads
      rw [Run.visitFile_of_leadsToFile digest host _ (r := Run.start t) hleads,
        Run.process_eq (r := Run.start t) hread]
      dsimp only
      rw [Run.summarize, show (o.onFile file).carve = false from hcarve]
      exact Run.IsQuiet.settle (o := o.onFile file) hcarve
        (hstart.announce _ fun _ => Run.shows_of_mem_openings) _
    · obtain ⟨failure, hvisit⟩ := Run.visitFile_of_not_leadsToFile digest host (o.onFile file)
        (r := Run.start t) (by simpa using hleads)
      rw [hvisit]
      exact hstart
  · refine isLine_of_mem_runWith digest host t hparse ⟨hfile, ?_, fun other hother => ?_⟩ report
      hreport
    · rw [show (o.onFile file).carve = false from hcarve]
      simp
    · simp only [Options.blobs, Options.onFile] at hother
      split at hother
      · exact List.mem_singleton.1 hother ▸ hfile
      · cases hother

end Outcome

section Agreement

variable {arguments : List OsText} {o : Options} {t : FileTree} {location : Location}
  {path : OsText} {filing : List OsText → List OsText}

/-- A run on a directory that does not carve lists what runs on the single files list. -/
theorem directory_run_eq (digest : List UInt8 → List UInt8) (host : Host) (ht : t.IsWhole)
    (hhost : host.ListsOnce t) (hdots : t.HasPlainDots) (hparse : Options.parse arguments = .ok o)
    (hcarve : o.carve = false) (hinput : o.input = .directory path)
    (hlocate : t.locate? path = some location) (hl : t.isDirectory location)
    (hfiling : ∀ names, t.IsVisible location names →
      Options.parse (filing names) = .ok (o.onFile (pathBelow path names))) :
    let outcome := runWith digest host arguments t
    let alone := fun names => runWith digest host (filing names) t
    ∃ order, t.IsVisit location order
      ∧ outcome.entries.filter (·.topic = .listing)
        = order.flatMap (fun names => (alone names).entries.filter (·.topic = .listing))
      ∧ (∀ names ∈ order, ∀ data, host.readFile t (pathBelow path names) = .ok data →
        (alone names).entries.filter (·.topic = .listing) = (scanned o.scanConfig data).map
          fun f => ⟨none, (pathBelow path names).shown
            ++ s!"\t{f.format.name}\t{f.chunk.render}\t{f.chunk.size} bytes"⟩)
      ∧ (o.verbosity = 0 ∧ (∀ names ∈ order, host.refusal? (pathBelow path names) = none)
          ∨ newline ∉ path ∧ (∀ names ∈ order, newline ∉ pathBelow path names) →
        outcome.results = order.flatMap fun names => (alone names).results) := by
  intro outcome alone
  have hvisit := ht.isVisit_visible hhost hl
  have hchunks : carvings digest host o t = _ :=
    carvings_directory digest hcarve ht hhost hdots hinput hlocate hl
  have hsingle (names : List OsText) : carvings digest host (o.onFile (pathBelow path names)) t
      = listedIn host o t (pathBelow path names) := carvings_alone digest hcarve
  have hlisted {names : List OsText} (hnames : names ∈ t.visible host location) :
      (alone names).entries.filter (·.topic = .listing)
        = (listedIn host o t (pathBelow path names)).map
          fun e => (Report.found e.path e.finding).entry := by
    have hparse := hfiling names ((hvisit.mem_iff names).1 hnames)
    rw [← hsingle]
    exact listed_runWith digest host t hparse
  refine ⟨t.visible host location, hvisit, ?_, fun names hnames data hread => ?_, fun hlines => ?_⟩
  · rw [show outcome.entries.filter _ = _ from listed_runWith digest host t hparse, hchunks,
      List.map_flatMap]
    exact List.flatMap_congr fun names hnames => (hlisted hnames).symm
  · rw [hlisted hnames, listedIn, hread]
    dsimp only
    rw [List.map_map]
    refine List.map_congr_left fun f _ => ?_
    rw [Function.comp_apply, Report.entry, text_found]
    rfl
  · have hvisible := fun names => (hvisit.mem_iff names).1
    simp only [hvisit.mem_iff] at hlines
    have hnotices := notices_directory digest hcarve ht hhost hdots hinput hlocate hl hparse hlines
    have halone (names : List OsText) (hnames : t.IsVisible location names) :
        ∀ report ∈ (alone names).reports, report.mark ≠ none → IsLine report.text :=
      notices_alone digest hcarve (hfiling names hnames)
        (hlines.imp (And.imp_right (· names hnames)) (·.2 names hnames))
    rw [results_runWith digest host t hparse hnotices, hchunks, List.flatMap_assoc]
    refine List.flatMap_congr fun names hnames => ?_
    have hparse := hfiling names (hvisible names hnames)
    rw [results_runWith digest host t hparse (halone names (hvisible names hnames)), hsingle]
    refine List.flatMap_congr fun e he => ?_
    rw [reports_of_mem_listedIn he, reports_of_mem_listedIn he]

/-- A hidden file, a file in a hidden directory, a third one and a link to that. -/
def partlyHidden : FileTree where
  files := [(["work", "in", ".git", "a.bin"], twins), (["work", "in", ".b.bin"], twins),
    (["work", "in", "c.bin"], twins)]
  directories := [["work"], ["work", "in"], ["work", "in", ".git"]]
  current := ["work"]
  links := [(["work", "in", "d.bin"], ["work", "in", "c.bin"])]

def listFirst : Options := ⟨.directory "in", ".", 0, [.lzh], 1, false, false, false, false⟩

theorem scanned_twins_first : scanned ⟨[.lzh], 1, 1⟩ twins = [wholeArchive] := by
  have hall := scanned_twins
  rw [scanned_singleton, limit, if_pos rfl] at hall
  rw [scanned_singleton, hall]
  rfl

theorem visible_partlyHidden : partlyHidden.visible .calm ["work", "in"]
    = ([[".git", "a.bin"], ["c.bin"], ["d.bin"]] : List (List OsText)) := by decide +kernel

/-- The arguments of a run that lists the first archive of one file. -/
def listFirstIn (path : OsText) : List OsText :=
  [ofString "--file=" ++ path, "--format", "lzh", "--max-chunks", "1"]

theorem directory_run_eq_hidden :
    let outcome := run ["-d", "in", "--format", "lzh", "--max-chunks", "1"] partlyHidden
    let alone path := run (listFirstIn path) partlyHidden
    outcome.results.Perm ["in/.git/a.bin\tlzh\t0x0-0x17\t23 bytes",
        "in/c.bin\tlzh\t0x0-0x17\t23 bytes", "in/d.bin\tlzh\t0x0-0x17\t23 bytes"]
      ∧ outcome.results.Perm ((alone "in/.git/a.bin").results ++ (alone "in/c.bin").results
        ++ (alone "in/d.bin").results) := by
  intro outcome alone
  have hwhole : partlyHidden.IsWhole := by decide
  have hdots : partlyHidden.HasPlainDots := by
    decide +kernel
  have hparse : Options.parse ["-d", "in", "--format", "lzh", "--max-chunks", "1"]
      = .ok listFirst := by rfl
  have hlocate : partlyHidden.locate? "in" = some (["work", "in"] : Location) := by decide
  have hhost : Host.calm.ListsOnce partlyHidden := fun _ _ => .refl _
  have hmem : ∀ names, names ∈ ([[".git", "a.bin"], ["c.bin"], ["d.bin"]] : List (List OsText))
      ↔ partlyHidden.IsVisible ["work", "in"] names :=
    visible_partlyHidden ▸ (hwhole.isVisit_visible hhost (by decide)).mem_iff
  have hfiling : ∀ names, partlyHidden.IsVisible ["work", "in"] names →
      Options.parse (listFirstIn (pathBelow "in" names))
        = .ok (listFirst.onFile (pathBelow "in" names)) := by
    intro names hnames
    have hnames := (hmem names).2 hnames
    simp only [List.mem_cons, List.not_mem_nil, or_false] at hnames
    rcases hnames with rfl | rfl | rfl <;> rfl
  obtain ⟨order, hvisit, -, -, hresults⟩ := directory_run_eq (fun content => content) .calm hwhole
    hhost hdots hparse rfl rfl hlocate (by decide) hfiling
  have horder : order.Perm [[".git", "a.bin"], ["c.bin"], ["d.bin"]] :=
    (List.perm_ext_iff_of_nodup hvisit.nodup (by decide)).2 fun names =>
      (hvisit.mem_iff names).trans (hmem names).symm
  have hboth := horder.flatMap_right fun names => (alone (pathBelow "in" names)).results
  have hquiet : outcome.results = order.flatMap
    fun names => (alone (pathBelow "in" names)).results := hresults (.inl ⟨rfl, fun _ _ => rfl⟩)
  rw [← hquiet] at hboth
  have hfirst (names : List OsText) (hnames : partlyHidden.IsVisible ["work", "in"] names)
      (hread : Host.calm.readFile partlyHidden (pathBelow "in" names) = .ok twins)
      (hplain : newline ∉ pathBelow "in" names) : (alone (pathBelow "in" names)).results
        = [(Report.found (pathBelow "in" names) wholeArchive).text] := by
    have houtput : newline ∉ listFirst.output := by decide
    have hone := results_of_showsLines (fun content => content) .calm partlyHidden
      (hfiling names hnames) (.of_file rfl hplain houtput)
    rw [carvings_file rfl hread,
      show scanned (listFirst.onFile _).scanConfig _ = _ from scanned_twins_first] at hone
    exact hone
  have hdir := hfirst [".git", "a.bin"] ((hmem _).1 (by decide)) rfl (by decide)
  have hfile := hfirst ["c.bin"] ((hmem _).1 (by decide)) rfl (by decide)
  have hlink := hfirst ["d.bin"] ((hmem _).1 (by decide)) rfl (by decide)
  refine ⟨hboth.trans (.of_eq ?_), hboth.trans (.of_eq ?_)⟩
  · rw [List.flatMap_cons, List.flatMap_cons, List.flatMap_singleton, hdir, hfile, hlink]
    decide +kernel
  · rw [List.flatMap_cons, List.flatMap_cons, List.flatMap_singleton, List.append_assoc]
    rfl

/-- A directory whose name holds a newline and what looks as if a chunk was listed. -/
def misleading : OsText := "in\nfw.bin\tlzh\t0x0-0x17\t23 bytes"

def belowMisleading : FileTree :=
  ⟨[(["work", misleading, "x.bin"], #[0])], [["work"], ["work", misleading]], ["work"], []⟩

theorem scanned_zero : scanned ⟨[.lzh], 0, 1⟩ #[0] = [] :=
  scanned_archives [] (by rw [candidates_eq_filter]; decide +kernel) (by simp)

theorem readFile_belowMisleading :
    Host.calm.readFile belowMisleading (joinPath misleading "x.bin") = .ok #[0] := by
  decide +kernel

theorem results_misleading :
    (run ["-d", misleading, "--format", "lzh", "-v"] belowMisleading).results
      = ["fw.bin\tlzh\t0x0-0x17\t23 bytes"] := by
  let o : Options := ⟨.directory misleading, ".", 1, [.lzh], 0, false, false, false, false⟩
  have hfound : scanned o.scanConfig #[0] = [] := scanned_zero
  obtain ⟨-, hblobs, hreports⟩ := runWith_single (fun content => content)
    (show Options.parse ["-d", misleading, "--format", "lzh", "-v"] = .ok o by rfl) rfl
    (show _ = some (["work", misleading] : Location) by decide +kernel) (by decide)
    (show Host.calm.names belowMisleading ["work", misleading] = [ofString "x.bin"] by decide) rfl
    (by decide) (by decide +kernel) readFile_belowMisleading
  have hchunks : carvings (fun content => content) .calm o belowMisleading = [] := by
    rw [carvings_single hblobs readFile_belowMisleading, hfound]
    rfl
  rw [results_eq_flatMap, Outcome.entries, run, hreports, hchunks, hfound]
  decide +kernel

theorem results_below_misleading :
    (run ["-f", joinPath misleading "x.bin", "--format", "lzh", "-v"] belowMisleading).results
      = [] := by
  let o : Options :=
    ⟨.file (joinPath misleading "x.bin"), ".", 1, [.lzh], 0, false, false, false, false⟩
  have hfound : scanned o.scanConfig #[0] = [] := scanned_zero
  have hreports := (runWith_file (fun content => content)
    (show Options.parse ["-f", joinPath misleading "x.bin", "--format", "lzh", "-v"] = .ok o by rfl)
    rfl readFile_belowMisleading).2
  rw [results_eq_flatMap, Outcome.entries, run, hreports,
    carvings_file (o := o) rfl readFile_belowMisleading, hfound]
  decide +kernel

/-- A directory in which there is nothing but a link to a file outside. -/
def linkedOnly : FileTree := ⟨[(atWork "fw.bin", archive [0x68, 0x69])],
  [["work"], ["work", "in"]], ["work"], [(["work", "in", "x.bin"], atWork "fw.bin")]⟩

theorem not_isFile_linkedOnly (names : List OsText) :
    linkedOnly.isFile ((["work", "in"] : Location) ++ names) = false := by
  by_contra hfile
  have hmem := FileTree.isFile_iff.1 (show linkedOnly.isFile _ = true by simpa using hfile)
  have heq : ofString "in" = ofString "fw.bin" :=
    Option.some.inj (congrArg (·[1]?) (List.mem_singleton.1 hmem))
  exact absurd heq (by decide)

theorem results_linkedOnly : (run ["-d", "in", "--format", "lzh"] linkedOnly).results
    = ["in/x.bin\tlzh\t0x0-0x17\t23 bytes"] := by
  let o : Options := ⟨.directory "in", ".", 0, [.lzh], 0, false, false, false, false⟩
  have hread : Host.calm.readFile linkedOnly "in/x.bin" = .ok (archive [0x68, 0x69]) := by rfl
  have hfound : scanned o.scanConfig (archive [0x68, 0x69]) = [wholeArchive] := scanned_archive
  obtain ⟨-, hblobs, hreports⟩ := runWith_single (fun content => content)
    (show Options.parse ["-d", "in", "--format", "lzh"] = .ok o by rfl) rfl
    (show _ = some (["work", "in"] : Location) by decide) (by decide)
    (show Host.calm.names linkedOnly ["work", "in"] = [ofString "x.bin"] by decide)
    (show _ = ofString "in/x.bin" by decide) (by decide) (by decide +kernel) hread
  have hchunks : carvings (fun content => content) .calm o linkedOnly
      = [listedChunk "in/x.bin" (archive [0x68, 0x69]) wholeArchive] := by
    rw [carvings_single hblobs hread, hfound, trail_listed rfl, List.map_singleton]
  rw [results_eq_flatMap, Outcome.entries, run, hreports, hchunks, hfound]
  decide +kernel

/-- A notice shows the path of a directory with the newlines in it, and what is behind one can look
as if a chunk was listed, although no file below lists any. A link to a file is scanned as that file
is, although no file is below. -/
theorem directory_run_fails :
    ((run ["-d", misleading, "--format", "lzh", "-v"] belowMisleading).results
        = ["fw.bin\tlzh\t0x0-0x17\t23 bytes"]
      ∧ belowMisleading.visible .calm ["work", misleading] = [[ofString "x.bin"]]
      ∧ (run ["-f", joinPath misleading "x.bin", "--format", "lzh", "-v"] belowMisleading).results
        = [])
    ∧ (∀ names, linkedOnly.isFile ((["work", "in"] : Location) ++ names) = false)
      ∧ (run ["-d", "in", "--format", "lzh"] linkedOnly).results
        = ["in/x.bin\tlzh\t0x0-0x17\t23 bytes"] :=
  ⟨⟨results_misleading, by decide +kernel, results_below_misleading⟩, not_isFile_linkedOnly,
    results_linkedOnly⟩

end Agreement

end Carving.Console
