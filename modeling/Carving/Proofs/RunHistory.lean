import Carving.Proofs.ReportTexts

/-!
# Runs follow their histories

The functions that run the program do with each chunk what its fate says (`Run.handle_eq`). So from
its start to its summary a run does what its history says and nothing else, however the scan of
single blobs ends, and in whatever order the system finds the blobs of a directory
(`Run.carves_visit`). This tells all that a run does to the files (`tree_runWith`) and all that it
prints but passing notices (`told_runWith`).
-/

namespace Carving.Console

open OsText (newline)

def Input.path : Input → OsText
  | file path | directory path => path

/-- No path that a run shows holds a newline. -/
structure Options.ShowsLines (digest : List UInt8 → List UInt8) (host : Host) (o : Options)
    (t : FileTree) : Prop where
  input : newline ∉ o.input.path
  output : o.carve → newline ∉ o.output
  blobs : ∀ path ∈ o.blobs digest host t, newline ∉ path

theorem Options.ShowsLines.of_file {digest : List UInt8 → List UInt8} {host : Host} {o : Options}
    {t : FileTree} {path : OsText} (hinput : o.input = .file path) (hpath : newline ∉ path)
    (houtput : newline ∉ o.output) : Options.ShowsLines digest host o t := by
  refine ⟨by rwa [hinput], fun _ => houtput, fun other hother => ?_⟩
  simp only [Options.blobs, hinput] at hother
  split at hother
  · rwa [List.mem_singleton.1 hother]
  · cases hother

namespace Run

def ledger (r : Run) : Ledger := ⟨r.tree, r.seen⟩

@[simp] theorem tree_start (t : FileTree) : (start t).tree = t := rfl

/-- What a run has told, but for passing notices. -/
def told (r : Run) : List Report := r.reports.toList.filter fun report => !report.isPassing

/-- All that a run has reported takes one line each. -/
def IsPlain (r : Run) : Prop := ∀ report ∈ r.reports.toList, IsLine report.text

theorem reports_report (r : Run) (report : Report) :
    (r.report report).reports.toList = r.reports.toList ++ [report] :=
  Array.toList_push

theorem told_report (r : Run) (report : Report) :
    (r.report report).told = r.told ++ if report.isPassing then [] else [report] := by
  rw [told, reports_report, List.filter_append, told]
  cases h : report.isPassing <;> simp [h]

theorem told_tell (r : Run) {notice : Notice} (h : notice.isPassing) :
    (r.tell notice).told = r.told := by
  rw [tell, told_report, Report.isPassing, if_pos h, List.append_nil]

theorem isPlain_start (t : FileTree) : (start t).IsPlain := by
  intro report hreport
  cases hreport

theorem IsPlain.tell {r : Run} (hr : r.IsPlain) (notice : Notice)
    (h : ∀ path ∈ notice.paths, newline ∉ path) : (r.tell notice).IsPlain := by
  intro report hreport
  rw [Run.tell, reports_report] at hreport
  rcases List.mem_append.1 hreport with hreport | hreport
  · exact hr report hreport
  · rw [List.mem_singleton.1 hreport]
    exact isLine_notice h

variable (digest : List UInt8 → List UInt8) (host : Host) (o : Options)

/-- What a run does with a chunk of some fate. -/
def settle (r : Run) (e : Carved) : Run where
  tree := (r.ledger.settle digest host o e).tree
  reports := (e.reports digest o).foldl Array.push r.reports
  seen := (r.ledger.settle digest host o e).seen
  found := r.found + if e.fate = .listed then 0 else 1
  duplicates := r.duplicates + if e.fate = .skipped then 1 else 0
  written := r.written + if e.fate = .written then 1 else 0
  blobs := r.blobs

/-- A finding is handled as the ledger decides. -/
theorem handle_eq (r : Run) (path : OsText) (data : Array UInt8) (f : Finding) :
    r.handle digest host o path data f
      = r.settle digest host o (r.ledger.carved digest host o path data f) := by
  generalize he : r.ledger.carved digest host o path data f = e
  have hfate : e.fate = r.ledger.fate digest host o e.name e.content := by rw [← he]; rfl
  have hhandle : r.handle digest host o path data f = let r := r.report (.found e.path e.finding)
      if o.carve then r.carve digest host o path e.finding e.content else r := by rw [← he]; rfl
  have hname : OsText.ofString (chunkFileName (blobName path) e.finding) = e.name := by
    rw [← he]; rfl
  rw [hhandle]
  simp only [Ledger.fate] at hfate
  by_cases hcarve : o.carve
  · simp only [hcarve, if_true, carve, Bool.not_true, Bool.false_eq_true, if_false] at hfate ⊢
    by_cases hseen : digest e.content ∈ r.seen
    · rw [if_pos (show digest e.content ∈ r.ledger.seen from hseen)] at hfate
      rw [if_pos (show digest e.content ∈ (r.report _).seen from hseen), settle, Ledger.settle,
        Carved.reports, Carved.told, hfate]
      rfl
    rw [if_neg (show digest e.content ∉ r.ledger.seen from hseen)] at hfate
    rw [if_neg (show digest e.content ∉ (r.report _).seen from hseen)]
    simp only [carveNew, hname]
    by_cases hdry : o.dryRun
    · simp only [hdry, if_true] at hfate ⊢
      rw [settle, Ledger.settle, Carved.reports, Carved.told, hfate]
      by_cases hcommands : o.commands <;> simp only [Carved.commands, reportCommand, hcommands] <;>
        rfl
    simp only [hdry, if_false, Bool.false_eq_true] at hfate ⊢
    rcases hwrite : r.ledger.write host o e.name e.content with ⟨tree, _ | cause⟩
    all_goals
      rw [hwrite] at hfate
      rw [show writeFile (r.report _).tree _ _ _ _ (host.hindrance? (r.report _).seen.length) = _
        from hwrite, settle, Ledger.settle, Carved.reports, Carved.told, hfate]
      simp only [hwrite]
    · by_cases hcommands : o.commands <;> simp only [Carved.commands, reportCommand, hcommands] <;>
        rfl
    · rfl
  · simp only [hcarve, if_false, Bool.false_eq_true, Bool.not_false, if_true] at hfate ⊢
    rw [settle, Ledger.settle, Carved.reports, Carved.told, hfate]
    rfl

theorem foldl_handle_eq (r : Run) (path : OsText) (data : Array UInt8) (found : List Finding) :
    found.foldl (handle digest host o path data) r
      = (r.ledger.trail digest host o path data found).foldl (settle digest host o) r := by
  induction found generalizing r with
  | nil => rfl
  | cons f found ih =>
    rw [List.foldl_cons, ih, handle_eq, Ledger.trail, List.foldl_cons]
    rfl

theorem reports_settle (r : Run) (e : Carved) : (r.settle digest host o e).reports.toList
    = r.reports.toList ++ e.reports digest o := by
  simp only [settle]
  generalize r.reports = before
  generalize e.reports digest o = reports
  induction reports generalizing before with
  | nil => exact (List.append_nil _).symm
  | cons report reports ih =>
    rw [List.foldl_cons, ih, Array.toList_push, List.append_assoc, List.singleton_append]

theorem reports_foldl_settle (r : Run) (h : List Carved) :
    (h.foldl (settle digest host o) r).reports.toList
      = r.reports.toList ++ h.flatMap (Carved.reports digest o) := by
  induction h generalizing r with
  | nil => exact (List.append_nil _).symm
  | cons e h ih => rw [List.foldl_cons, ih, reports_settle, List.append_assoc, List.flatMap_cons]

theorem blobs_foldl_settle (r : Run) (h : List Carved) :
    (h.foldl (settle digest host o) r).blobs = r.blobs := by
  induction h generalizing r with
  | nil => rfl
  | cons e h ih => exact ih _

/-- From the first run to the second one some chunks were carved, and passing notices were told. -/
structure Carves (r : Run) (h : List Carved) (r' : Run) : Prop where
  ledger_eq : r'.ledger = r.ledger.after digest host o h
  told_eq : r'.told = r.told ++ h.flatMap (Carved.reports digest o)
  found_eq : r'.found = r.found + h.countP (·.fate ≠ .listed)
  duplicates_eq : r'.duplicates = r.duplicates + h.countP (·.fate = .skipped)
  written_eq : r'.written = r.written + h.countP (·.fate = .written)

variable {digest host o} {r r' r'' : Run} {h h' : List Carved} {paths paths' : List OsText}

theorem Carves.refl (r : Run) : r.Carves digest host o [] r :=
  ⟨rfl, (List.append_nil _).symm, rfl, rfl, rfl⟩

theorem Carves.trans (hc : r.Carves digest host o h r') (hc' : r'.Carves digest host o h' r'') :
    r.Carves digest host o (h ++ h') r'' where
  ledger_eq := by rw [hc'.ledger_eq, hc.ledger_eq, Ledger.after, Ledger.after, Ledger.after,
    List.foldl_append]
  told_eq := by rw [hc'.told_eq, hc.told_eq, List.flatMap_append, List.append_assoc]
  found_eq := by rw [hc'.found_eq, hc.found_eq, List.countP_append, Nat.add_assoc]
  duplicates_eq := by rw [hc'.duplicates_eq, hc.duplicates_eq, List.countP_append, Nat.add_assoc]
  written_eq := by rw [hc'.written_eq, hc.written_eq, List.countP_append, Nat.add_assoc]

theorem Carves.tell (hc : r.Carves digest host o h r') (notice : Notice) (hn : notice.isPassing) :
    r.Carves digest host o h (r'.tell notice) where
  ledger_eq := hc.ledger_eq
  told_eq := (told_tell r' hn).trans hc.told_eq
  found_eq := hc.found_eq
  duplicates_eq := hc.duplicates_eq
  written_eq := hc.written_eq

theorem Carved.isPassing_of_mem {e : Carved} {report : Report} (h : report ∈ e.reports digest o) :
    report.isPassing = false := by
  obtain rfl | rfl | ⟨-, rfl⟩ | ⟨-, rfl⟩ | ⟨-, rfl⟩ | ⟨cause, -, rfl⟩ :=
    Carved.eq_of_mem_reports h <;> rfl

theorem carves_settle (r : Run) (e : Carved) :
    r.Carves digest host o [e] (r.settle digest host o e) where
  ledger_eq := rfl
  told_eq := by
    have hall : (e.reports digest o).filter (fun report => !report.isPassing)
        = e.reports digest o :=
      List.filter_eq_self.2 fun report hreport => by rw [Carved.isPassing_of_mem hreport]; rfl
    rw [told, reports_settle, List.filter_append, hall, List.flatMap_singleton, told]
  found_eq := by
    rw [List.countP_singleton, settle]
    cases e.fate <;> rfl
  duplicates_eq := by
    rw [List.countP_singleton, settle]
    cases e.fate <;> rfl
  written_eq := by
    rw [List.countP_singleton, settle]
    cases e.fate <;> rfl

theorem carves_foldl_settle (r : Run) (h : List Carved) :
    r.Carves digest host o h (h.foldl (settle digest host o) r) := by
  induction h generalizing r with
  | nil => exact .refl r
  | cons e h ih => exact (carves_settle r e).trans (ih _)

variable (digest host o)

/-- The notices with which the scan of a blob begins. -/
def openings (path : OsText) (size count : Nat) : List Notice :=
  [.blobOpened path, .blobRead path size,
    if count = 0 then .nothingFound path else .chunksFound path count]

theorem of_mem_openings {path : OsText} {size count : Nat} {notice : Notice}
    (h : notice ∈ openings path size count) : notice.isPassing ∧ notice.paths = [path] := by
  simp only [openings, List.mem_cons, List.not_mem_nil, or_false] at h
  rcases h with rfl | rfl | rfl
  · exact ⟨rfl, rfl⟩
  · exact ⟨rfl, rfl⟩
  · split <;> exact ⟨rfl, rfl⟩

section Process

variable {digest host o} {r : Run} {path : OsText} {data : Array UInt8}

/-- A blob that is read is announced, and then its chunks are settled one after another. -/
theorem process_eq (hread : host.readFile r.tree path = .ok data) :
    let found := scanned o.scanConfig data
    r.process digest host o path
      = ((r.ledger.trail digest host o path data found).foldl (settle digest host o)
        ((openings path data.size found.length).foldl Run.tell r), none) := by
  intro found
  have hfound : scan o.scanConfig data = .ok found := scan_eq _ _
  have hopened : (r.tell (.blobOpened path)).tree = r.tree := rfl
  simp only [process, hopened, hread, hfound]
  generalize found = found
  cases found with
  | nil => rfl
  | cons f found =>
    simp only [foldl_handle_eq]
    rfl

/-- A blob among others is noted as met besides. -/
theorem processAmong_eq (hread : host.readFile r.tree path = .ok data) :
    let found := scanned o.scanConfig data
    r.processAmong digest host o path
      = (r.ledger.trail digest host o path data found).foldl (settle digest host o)
        ((.blobMet path :: openings path data.size found.length).foldl Run.tell
          { r with blobs := r.blobs.push path }) := by
  intro found
  let met : Run := { r with blobs := r.blobs.push path }
  have hprocess : (met.tell (.blobMet path)).process digest host o path = _ := process_eq hread
  rw [processAmong, hprocess]
  rfl

/-- A blob that the system does not let be read is left. -/
theorem process_of_refused {cause : String} (hread : host.readFile r.tree path = .error cause) :
    r.process digest host o path
      = (r.tell (.blobOpened path), some (.readFailed path cause)) := by
  have hopened : (r.tell (.blobOpened path)).tree = r.tree := rfl
  simp only [process, hopened, hread]

theorem Carves.announce (hc : r.Carves digest host o h r') (notices : List Notice)
    (hpassing : ∀ notice ∈ notices, notice.isPassing) :
    r.Carves digest host o h (notices.foldl Run.tell r') := by
  induction notices generalizing r' with
  | nil => exact hc
  | cons notice notices ih =>
    obtain ⟨hone, hrest⟩ := List.forall_mem_cons.1 hpassing
    exact ih (hc.tell _ hone) hrest

theorem IsPlain.announce (hr : r.IsPlain) (notices : List Notice)
    (hpaths : ∀ notice ∈ notices, ∀ path ∈ notice.paths, newline ∉ path) :
    (notices.foldl Run.tell r).IsPlain := by
  induction notices generalizing r with
  | nil => exact hr
  | cons notice notices ih =>
    obtain ⟨hone, hrest⟩ := List.forall_mem_cons.1 hpaths
    exact ih (hr.tell _ hone) hrest

variable (digest host o) in
/-- Scanning a blob carves its chunks, and fails by its path if it fails. -/
theorem carves_process (r : Run) (path : OsText) :
    r.Carves digest host o (r.ledger.carvedIn digest host o path)
      (r.process digest host o path).1
      ∧ ∀ failure, (r.process digest host o path).2 = some failure → failure.path = path := by
  rcases hread : host.readFile r.tree path with cause | data
  · have hnone : r.ledger.carvedIn digest host o path = [] := by
      rw [Ledger.carvedIn, show host.readFile r.ledger.tree path = _ from hread]
    rw [process_of_refused hread, hnone]
    refine ⟨(Carves.refl r).tell _ rfl, fun failure h => ?_⟩
    rw [← Option.some.inj h]
    rfl
  · rw [process_eq hread, carvedIn_eq hread]
    have hopened : r.Carves digest host o [] ((openings path data.size
        (scanned o.scanConfig data).length).foldl Run.tell r) :=
      (Carves.refl r).announce _ fun notice h => (of_mem_openings h).1
    refine ⟨hopened.trans (carves_foldl_settle _ _), fun failure h => ?_⟩
    cases h

variable (digest host o) in
theorem blobs_process (r : Run) (path : OsText) :
    (r.process digest host o path).1.blobs = r.blobs := by
  rcases hread : host.readFile r.tree path with cause | data
  · rw [process_of_refused hread]
    rfl
  · rw [process_eq hread, blobs_foldl_settle]
    rfl

theorem isPlain_process (hr : r.IsPlain) (hpath : newline ∉ path)
    (houtput : o.carve → newline ∉ o.output) : (r.process digest host o path).1.IsPlain := by
  have hone : ∀ other ∈ [path], newline ∉ other := by simpa using hpath
  rcases hread : host.readFile r.tree path with cause | data
  · rw [process_of_refused hread]
    exact hr.tell _ hone
  · have hopened := hr.announce (openings path data.size (scanned o.scanConfig data).length)
      fun notice h => (of_mem_openings h).2 ▸ hone
    intro report hreport
    rw [process_eq hread, reports_foldl_settle] at hreport
    rcases List.mem_append.1 hreport with hreport | hreport
    · exact hopened report hreport
    · obtain ⟨e, he, hreport⟩ := List.mem_flatMap.1 hreport
      exact isLine_of_mem_reports (Ledger.explains_trail _ _ _) he (of_mem_trail he) hpath houtput
        hreport

end Process

/-- From the first run to the second one some blobs were visited, and nothing else was done. -/
structure Visits (r : Run) (paths : List OsText) (r' : Run) : Prop where
  blobs_eq : r'.blobs.toList = r.blobs.toList ++ paths
  carves : r.Carves digest host o (r.ledger.history digest host o paths) r'
  plain : (o.carve → newline ∉ o.output) → (∀ path ∈ paths, newline ∉ path) → r.IsPlain → r'.IsPlain

variable {digest host o}

theorem Visits.refl (r : Run) : r.Visits digest host o [] r :=
  ⟨(List.append_nil _).symm, .refl r, fun _ _ => id⟩

theorem Visits.trans (hv : r.Visits digest host o paths r')
    (hv' : r'.Visits digest host o paths' r'') :
    r.Visits digest host o (paths ++ paths') r'' where
  blobs_eq := by rw [hv'.blobs_eq, hv.blobs_eq, List.append_assoc]
  carves := by
    rw [Ledger.history_append, ← hv.carves.ledger_eq]
    exact hv.carves.trans hv'.carves
  plain houtput hpaths hr := by
    obtain ⟨hfirst, hsecond⟩ := List.forall_mem_append.1 hpaths
    exact hv'.plain houtput hsecond (hv.plain houtput hfirst hr)

variable (digest host o)

theorem visits_processAmong (r : Run) (path : OsText) :
    r.Visits digest host o [path] (r.processAmong digest host o path) := by
  let met : Run := { r with blobs := r.blobs.push path }
  obtain ⟨hprocessed, hpath⟩ :=
    carves_process digest host o (met.tell (.blobMet path)) path
  have hcarves := ((Carves.refl met).tell (.blobMet path) rfl).trans hprocessed
  have hblobs :=
    blobs_process digest host o (met.tell (.blobMet path)) path
  have hpush : met.blobs.toList = r.blobs.toList ++ [path] := Array.toList_push
  -- The blob is noted as met, which no chunk is concerned with.
  have hnoted {r' : Run} (h : met.Carves digest host o (r.ledger.carvedIn digest host o path) r') :
      r.Carves digest host o (r.ledger.history digest host o [path]) r' := by
    rw [Ledger.history_singleton]
    exact ⟨h.ledger_eq, h.told_eq, h.found_eq, h.duplicates_eq, h.written_eq⟩
  have hplain (houtput : o.carve → newline ∉ o.output) (hpaths : ∀ other ∈ [path], newline ∉ other)
      (hr : r.IsPlain) : ((met.tell (.blobMet path)).process digest host o path).1.IsPlain :=
    isPlain_process (IsPlain.tell (r := met) hr _ hpaths) (hpaths path List.mem_cons_self) houtput
  rcases hprocess : (met.tell (.blobMet path)).process digest host o path with ⟨r', _ | failure⟩
  · have hmet : r.processAmong digest host o path = r' := by simp only [processAmong, met, hprocess]
    rw [hprocess] at hcarves hblobs hplain
    rw [hmet]
    exact ⟨hpush ▸ congrArg Array.toList hblobs, hnoted hcarves, hplain⟩
  · have hmet : r.processAmong digest host o path = r'.tell (.blobFailed path failure) := by
      simp only [processAmong, met, hprocess]
    rw [hprocess] at hcarves hblobs hplain hpath
    rw [hmet]
    refine ⟨hpush ▸ congrArg Array.toList hblobs,
      hnoted (hcarves.tell (.blobFailed path failure) rfl), fun houtput hpaths hr => ?_⟩
    refine (hplain houtput hpaths hr).tell _ fun other hother => hpaths other ?_
    rw [Notice.paths, hpath failure rfl] at hother
    simpa using hother

theorem visits_meet (r : Run) (path : OsText) :
    ∃ paths, r.Visits digest host o paths (r.meet digest host o path) := by
  unfold meet
  split
  · exact ⟨_, visits_processAmong digest host o r path⟩
  · exact ⟨[], .refl r⟩

theorem visits_foldl {α : Type} {f : Run → α → Run}
    (hf : ∀ (r : Run) a, ∃ paths, r.Visits digest host o paths (f r a)) (r : Run) (l : List α) :
    ∃ paths, r.Visits digest host o paths (l.foldl f r) := by
  induction l generalizing r with
  | nil => exact ⟨[], .refl r⟩
  | cons a l ih =>
    obtain ⟨paths, hone⟩ := hf r a
    obtain ⟨rest, hrest⟩ := ih (f r a)
    exact ⟨_, hone.trans hrest⟩

/-- Whatever names the system finds in the directories, walking is visiting some blobs one after
another. -/
theorem visits_walk (depth : Nat) (r : Run) (path : OsText) :
    ∃ paths, r.Visits digest host o paths (walk digest host o depth r path) := by
  induction depth generalizing r path with
  | zero => exact ⟨[], .refl r⟩
  | succ depth ih =>
    unfold walk
    split
    · exact ⟨[], .refl r⟩
    · refine visits_foldl digest host o (fun r name => ?_) r _
      dsimp only
      split
      · exact ih r _
      · exact visits_meet digest host o r _

theorem visitFile_of_leadsToFile {r : Run} {path : OsText} (h : r.tree.leadsToFile path) :
    r.visitFile digest host o path = match r.process digest host o path with
      | (r, none) => (r.summarize o, none)
      | (r, some failure) => (r, some failure) := by
  rcases hlocate : r.tree.locate? path with _ | location
  · simp [FileTree.leadsToFile, hlocate] at h
  · have hfile : r.tree.isFile location := by simpa [FileTree.leadsToFile, hlocate] using h
    have hplain : ¬ ((!r.tree.isFile location) = true) := by simp [hfile]
    rw [visitFile, hlocate]
    exact if_neg hplain

theorem visitFile_of_not_leadsToFile {r : Run} {path : OsText}
    (h : r.tree.leadsToFile path = false) :
    ∃ failure, r.visitFile digest host o path = (r, some failure) := by
  rcases hlocate : r.tree.locate? path with _ | location
  · exact ⟨.fileMissing path, by simp only [visitFile, hlocate]⟩
  · have hfile : r.tree.isFile location = false := by
      simpa [FileTree.leadsToFile, hlocate] using h
    exact ⟨.notAFile path, by simp only [visitFile, hlocate, hfile, Bool.not_false, if_true]⟩

/-- A file is scanned if it is there. -/
theorem carves_visitFile (t : FileTree) (path : OsText) :
    let paths := if t.leadsToFile path then [path] else []
    ∃ r : Run, (Run.start t).Carves digest host o (Ledger.history digest host o ⟨t, []⟩ paths) r
      ∧ ((o.carve → newline ∉ o.output) → (∀ path ∈ paths, newline ∉ path) → r.IsPlain)
      ∧ ((Run.start t).visitFile digest host o path = (r.summarize o, none)
        ∨ ∃ failure, (Run.start t).visitFile digest host o path = (r, some failure)) := by
  intro paths
  have hstart : (Run.start t).IsPlain := isPlain_start t
  by_cases hfile : t.leadsToFile path
  · have hone := (carves_process digest host o (Run.start t) path).1
    rw [visitFile_of_leadsToFile digest host o (r := start t) hfile,
      show paths = [path] from if_pos hfile, Ledger.history_singleton]
    refine ⟨_, hone, fun houtput hpaths => isPlain_process hstart (hpaths path (by simp)) houtput,
      ?_⟩
    rcases (Run.start t).process digest host o path with ⟨r, _ | failure⟩
    · exact .inl rfl
    · exact .inr ⟨failure, rfl⟩
  · have hnone : (start t).tree.leadsToFile path = false := by simpa using hfile
    obtain ⟨failure, hvisit⟩ := visitFile_of_not_leadsToFile digest host o hnone
    rw [hvisit, show paths = [] from if_neg hfile]
    exact ⟨_, .refl _, fun _ _ => hstart, .inr ⟨failure, rfl⟩⟩

/-- In a directory, the blobs are scanned that are met on the way. -/
theorem carves_visitDirectory (t : FileTree) (path : OsText) :
    ∃ r : Run, (Run.start t).Carves digest host o
        (Ledger.history digest host o ⟨t, []⟩ r.blobs.toList) r
      ∧ (newline ∉ path → (o.carve → newline ∉ o.output) →
        (∀ path ∈ r.blobs.toList, newline ∉ path) → r.IsPlain)
      ∧ ((Run.start t).visitDirectory digest host o path = (r.summarize o, none)
        ∨ ∃ failure, (Run.start t).visitDirectory digest host o path = (r, some failure)) := by
  have hstart : (Run.start t).IsPlain := isPlain_start t
  simp only [visitDirectory]
  split
  · exact ⟨_, .refl _, fun _ _ _ => hstart, .inr ⟨_, rfl⟩⟩
  split
  · exact ⟨_, .refl _, fun _ _ _ => hstart, .inr ⟨_, rfl⟩⟩
  obtain ⟨paths, hwalk⟩ := visits_walk digest host o maxPathSize
    ((Run.start t).tell (.directoryEntered path)) path
  refine ⟨Run.tell _ _, ?_, fun hpath houtput hpaths => ?_, .inl rfl⟩
  · rw [show (Run.tell _ _).blobs.toList = paths from hwalk.blobs_eq]
    exact (((Carves.refl _).tell _ rfl).trans hwalk.carves).tell _ rfl
  · have hentered := hstart.tell (.directoryEntered path) fun other hother =>
      List.mem_singleton.1 hother ▸ hpath
    rw [show (Run.tell _ _).blobs.toList = paths from hwalk.blobs_eq] at hpaths
    exact (hwalk.plain houtput hpaths hentered).tell _ fun _ h => absurd h List.not_mem_nil

/-- A run carves its chunks, and then it fails or sums up. What it has reported until then takes one
line each, if its paths hold no newlines. -/
theorem carves_visit (t : FileTree) : ∃ r : Run,
    (Run.start t).Carves digest host o (carvings digest host o t) r
      ∧ (Options.ShowsLines digest host o t → r.IsPlain)
      ∧ ((Run.start t).visit digest host o = (r.summarize o, none)
        ∨ ∃ failure, (Run.start t).visit digest host o = (r, some failure)) := by
  cases hinput : o.input with
  | file path =>
    obtain ⟨r, hcarves, hplain, hvisit⟩ := carves_visitFile digest host o t path
    have hblobs : o.blobs digest host t = if t.leadsToFile path then [path] else [] := by
      simp only [Options.blobs, hinput]
    rw [carvings, hblobs, visit, hinput]
    exact ⟨r, hcarves, fun h => hplain h.output (hblobs ▸ h.blobs), hvisit⟩
  | directory path =>
    obtain ⟨r, hcarves, hplain, hvisit⟩ := carves_visitDirectory digest host o t path
    have hblobs : o.blobs digest host t = r.blobs.toList := by
      simp only [Options.blobs, hinput, visit]
      rcases hvisit with h | ⟨failure, h⟩
      · rw [h, summarize]
        split <;> rfl
      · rw [h]
    rw [carvings, hblobs, visit, hinput]
    refine ⟨r, hcarves, fun h => hplain ?_ h.output (hblobs ▸ h.blobs), hvisit⟩
    have hpath := h.input
    rwa [hinput] at hpath

section Walk

variable {digest host o} {t : FileTree} {r : Run} {path name : OsText} {paths : List OsText}
  {data : Array UInt8} {location : Location}

theorem meet_eq (hfile : r.tree.leadsToFile path) (hhidden : isHidden path = false) :
    r.meet digest host o path = r.processAmong digest host o path := by
  rw [meet, if_pos (by simp [hfile, hhidden])]

/-- A directory in which there is one file, which is not hidden. -/
theorem walk_single {below : OsText} (depth : Nat) (location : Location) (name : OsText)
    (hr : r.tree = t) (hlocate : t.locate? path = some location)
    (hnames : host.names t location = [name]) (hbelow : joinPath path name = below)
    (hplain : t.isDirectory (location ++ [name]) = false) (hfile : t.leadsToFile below)
    (hhidden : isHidden below = false) :
    walk digest host o (depth + 1) r path = r.processAmong digest host o below := by
  subst hr hbelow
  rw [walk]
  simp only [hlocate, hnames, hplain, List.foldl_cons, List.foldl_nil, Bool.false_eq_true, if_false]
  exact meet_eq hfile hhidden

/-- The tree behind a blob that can be read. -/
theorem tree_processAmong_of_read (hread : host.readFile r.tree path = .ok data) :
    (r.processAmong digest host o path).tree = (r.ledger.after digest host o
      (r.ledger.trail digest host o path data (scanned o.scanConfig data))).tree := by
  have hledger := (visits_processAmong digest host o r path).carves.ledger_eq
  rw [Ledger.history_singleton, carvedIn_eq hread] at hledger
  exact congrArg Ledger.tree hledger

/-- A run on a directory meets the blobs that are met on the way below it. -/
theorem blobs_of_directory (hinput : o.input = .directory path)
    (hlocate : t.locate? path = some location) (hdirectory : t.isDirectory location)
    (hwalk : walk digest host o maxPathSize ((Run.start t).tell (.directoryEntered path)) path = r)
    (hvisits : ((Run.start t).tell (.directoryEntered path)).Visits digest host o paths r) :
    o.blobs digest host t = paths := by
  have hmet : o.blobs digest host t = r.blobs.toList := by
    simp only [Options.blobs, hinput, visit, visitDirectory, tree_start, hlocate, hdirectory,
      Bool.not_true, Bool.false_eq_true, if_false, summarize, hwalk]
    split <;> rfl
  exact hmet.trans hvisits.blobs_eq

end Walk

end Run

section Outcome

variable (digest : List UInt8 → List UInt8) (host : Host) {arguments : List OsText} {o : Options}
  (t : FileTree)

/-- The summary of a run that ends so with these chunks, if it gives one. -/
def summaries (o : Options) (exit : Nat) (h : List Carved) : List Report :=
  if o.carve && !o.dryRun && exit = 0 then
    [.notice (.summary (h.countP (·.fate ≠ .listed)) (h.countP (·.fate = .skipped))
      (h.countP (·.fate = .written)))]
  else []

theorem runWith_visit (h : Options.parse arguments = .ok o) :
    let r := ((Run.start t).visit digest host o).1
    (runWith digest host arguments t).tree = r.tree
      ∧ (runWith digest host arguments t).reports = r.reports.toList.filter o.prints := by
  simp only [runWith, h]
  rcases (Run.start t).visit digest host o with ⟨r, _ | failure⟩ <;> exact ⟨rfl, rfl⟩

theorem exit_runWith (h : Options.parse arguments = .ok o) :
    (runWith digest host arguments t).exit
      = if ((Run.start t).visit digest host o).2 = none then 0 else 1 := by
  simp only [runWith, h]
  rcases (Run.start t).visit digest host o with ⟨r, _ | failure⟩ <;> rfl

theorem tree_runWith (h : Options.parse arguments = .ok o) :
    (runWith digest host arguments t).tree
      = (Ledger.after digest host o ⟨t, []⟩ (carvings digest host o t)).tree := by
  obtain ⟨r, hcarves, -, hvisit⟩ := Run.carves_visit digest host o t
  refine (runWith_visit digest host t h).1.trans
    (.trans ?_ (congrArg Ledger.tree hcarves.ledger_eq))
  rcases hvisit with hvisit | ⟨failure, hvisit⟩
  · rw [hvisit, Run.summarize]
    split <;> rfl
  · rw [hvisit]
    rfl

/-- All that a run tells but passing notices is what it tells of its chunks and its summary, as far
as it is printed. -/
theorem told_runWith (h : Options.parse arguments = .ok o) :
    let outcome := runWith digest host arguments t
    let chunks := carvings digest host o t
    outcome.reports.filter (fun report => !report.isPassing)
      = (chunks.flatMap (Carved.reports digest o) ++ summaries o outcome.exit chunks).filter
        o.prints := by
  intro outcome chunks
  obtain ⟨r, hcarves, -, hvisit⟩ := Run.carves_visit digest host o t
  have hreports : outcome.reports = _ := (runWith_visit digest host t h).2
  have hexit : outcome.exit = _ := exit_runWith digest host t h
  have hchunks : r.told = chunks.flatMap (Carved.reports digest o) := hcarves.told_eq
  have hfound : r.found = _ := hcarves.found_eq.trans (Nat.zero_add _)
  have hduplicates : r.duplicates = _ := hcarves.duplicates_eq.trans (Nat.zero_add _)
  have hwritten : r.written = _ := hcarves.written_eq.trans (Nat.zero_add _)
  have htold : ((Run.start t).visit digest host o).1.told
      = chunks.flatMap (Carved.reports digest o) ++ summaries o outcome.exit chunks := by
    rw [hexit, summaries, ← hchunks]
    rcases hvisit with hvisit | ⟨failure, hvisit⟩
    · rw [hvisit, Run.summarize, hfound, hduplicates, hwritten]
      by_cases hcarve : o.carve && !o.dryRun
      · rw [if_pos hcarve, if_pos (by simpa using hcarve), Run.tell, Run.told_report]
        rfl
      · rw [if_neg hcarve, if_neg (by simpa using hcarve), List.append_nil]
    · rw [hvisit, if_neg (by simp), List.append_nil]
  rw [← htold, hreports, List.filter_filter, Run.told, List.filter_filter]
  exact List.filter_congr fun report _ => Bool.and_comm _ _

theorem Line.split_of_isLine {line : Line} (h : IsLine line.text) : line.split = [line] := by
  rw [split, textLines, List.splitOn_eq_singleton h, List.map_singleton, String.ofList_toList]
  rfl

/-- What is printed of a run takes one line each, if its paths hold no newlines. -/
theorem isLine_of_mem_runWith (h : Options.parse arguments = .ok o)
    (hpaths : Options.ShowsLines digest host o t) :
    ∀ report ∈ (runWith digest host arguments t).reports, IsLine report.text := by
  obtain ⟨r, -, hplain, hvisit⟩ := Run.carves_visit digest host o t
  have hall : ((Run.start t).visit digest host o).1.IsPlain := by
    rcases hvisit with hvisit | ⟨failure, hvisit⟩
    · rw [hvisit, Run.summarize]
      split
      · exact (hplain hpaths).tell _ fun _ h => absurd h List.not_mem_nil
      · exact hplain hpaths
    · rw [hvisit]
      exact hplain hpaths
  intro report hreport
  rw [(runWith_visit digest host t h).2] at hreport
  exact hall report (List.mem_of_mem_filter hreport)

theorem lines_runWith (h : Options.parse arguments = .ok o)
    (hpaths : Options.ShowsLines digest host o t) :
    (runWith digest host arguments t).lines = (runWith digest host arguments t).entries := by
  refine (List.flatMap_congr fun line hline => Line.split_of_isLine ?_).trans
    (List.flatMap_singleton' _)
  obtain ⟨report, hreport, rfl⟩ := List.mem_map.1 hline
  exact isLine_of_mem_runWith digest host t h hpaths report hreport

end Outcome

end Carving.Console
