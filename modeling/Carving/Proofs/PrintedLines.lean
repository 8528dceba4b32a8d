import Carving.Proofs.RunHistory

/-!
# The lines that a run prints

What is printed of a run is told apart by its topics, whatever paths it holds (`entries_runWith`).
Of each topic but those of passing notices there is what the chunks of the run say: each one is
listed, for instance, and those that are written are told to be (`listed_runWith`, `wrote_runWith`).
A run that scans one file prints its notices about that file besides (`runWith_file`).
-/

namespace Carving

theorem flatMap_filter {α β : Type} (p : α → Bool) (f : α → List β) (l : List α) :
    (l.filter p).flatMap f = l.flatMap fun a => if p a then f a else [] := by
  induction l with
  | nil => rfl
  | cons a l ih => by_cases h : p a <;> simp [h, ih]

namespace Console

/-- The lines of a printed text but the first one of a notice. -/
def Line.results (line : Line) : List String :=
  line.split.filterMap fun line => if line.mark.isNone then some line.text else none

theorem results_eq_flatMap (outcome : Outcome) :
    outcome.results = outcome.entries.flatMap Line.results :=
  List.filterMap_flatMap

theorem results_of_isLine {report : Report} (hmark : report.mark ≠ none)
    (hline : IsLine report.text) : report.entry.results = [] := by
  have hsplit : report.entry.split = [report.entry] := Line.split_of_isLine hline
  rw [Line.results, hsplit]
  simp [Report.entry, hmark]

section Run

variable (digest : List UInt8 → List UInt8) (host : Host) {arguments : List OsText} {o : Options}
  (t : FileTree) (hparse : Options.parse arguments = .ok o)
include hparse

/-- What a run reports is a passing notice, about one of its chunks, or the summary. -/
theorem mem_runWith {report : Report} (h : report ∈ (runWith digest host arguments t).reports) :
    report.isPassing ∨ (∃ e ∈ carvings digest host o t, report ∈ e.reports digest o)
      ∨ report ∈ summaries o (runWith digest host arguments t).exit (carvings digest host o t) := by
  refine or_iff_not_imp_left.2 fun hpassing => ?_
  have htold : report ∈ (runWith digest host arguments t).reports.filter
      fun report => !report.isPassing := List.mem_filter.2 ⟨h, by simpa using hpassing⟩
  rw [told_runWith digest host t hparse] at htold
  exact (List.mem_append.1 (List.mem_of_mem_filter htold)).imp_left List.mem_flatMap.1

/-- The texts that a run prints tell what they are about. -/
theorem topic_of_mem_runWith {report : Report}
    (h : report ∈ (runWith digest host arguments t).reports) :
    report.entry.topic = report.topic := by
  rcases mem_runWith digest host t hparse h with hpassing | ⟨e, he, hmem⟩ | hsummary
  · cases report with
    | notice n =>
      rw [topic_of_isPassing hpassing]
      cases n <;> first | rfl | cases hpassing
    | _ => cases hpassing
  · obtain ⟨data, hof, -⟩ := of_mem_history he
    exact topic_of_mem_reports hof hmem
  · unfold summaries at hsummary
    split at hsummary
    · obtain rfl := List.mem_singleton.1 hsummary
      exact topic_summary _ _ _
    · cases hsummary

/-- What is printed of a topic are the reports about it. -/
theorem entries_runWith (topic : Topic) :
    (runWith digest host arguments t).entries.filter (·.topic = topic)
      = ((runWith digest host arguments t).reports.filter (·.topic = topic)).map Report.entry := by
  rw [Outcome.entries, List.filter_map]
  refine congrArg (List.map _) (List.filter_congr fun report hreport => ?_)
  rw [Function.comp_apply, topic_of_mem_runWith digest host t hparse hreport]

/-- Passing notices are about nothing else. -/
theorem filter_topic_runWith {topic : Topic} (htopic : topic ≠ .other) :
    let outcome := runWith digest host arguments t
    let chunks := carvings digest host o t
    outcome.reports.filter (·.topic = topic)
      = ((chunks.flatMap (Carved.reports digest o)
        ++ summaries o outcome.exit chunks).filter o.prints).filter (·.topic = topic) := by
  intro outcome chunks
  rw [← told_runWith digest host t hparse, List.filter_filter]
  refine List.filter_congr fun report _ => ?_
  cases hpassing : report.isPassing with
  | false => simp
  | true =>
    have hother : report.topic = .other := by
      cases report with
      | notice n => cases n <;> first | rfl | cases hpassing
      | _ => cases hpassing
    simp [hother, htopic.symm]

/-- Nothing that is told of a chunk is left out, but for the notice that it is skipped. -/
theorem entries_of_chunks {topic : Topic} (hother : topic ≠ .other) (hsummary : topic ≠ .summary) :
    (runWith digest host arguments t).entries.filter (·.topic = topic)
      = (carvings digest host o t).flatMap fun e =>
        ((e.reports digest o).filter (·.topic = topic)).map Report.entry := by
  have hnone (exit : Nat) (chunks : List Carved) :
      (summaries o exit chunks).filter (·.topic = topic) = [] := by
    refine List.filter_eq_nil_iff.2 fun report hreport => ?_
    unfold summaries at hreport
    split at hreport
    · rw [List.mem_singleton.1 hreport]
      simpa using fun h => hsummary h.symm
    · cases hreport
  have hprints (report : Report) : (decide (report.topic = topic) && o.prints report)
      = decide (report.topic = topic) := by
    by_cases htopic : report.topic = topic
    · have hshown : o.prints report := by
        cases report with
        | notice n =>
          cases n <;>
            first | rfl | exact absurd htopic.symm hother | exact absurd htopic.symm hsummary
        | _ => rfl
      simp [hshown]
    · simp [htopic]
  rw [entries_runWith digest host t hparse, filter_topic_runWith digest host t hparse hother,
    List.filter_filter, List.filter_congr fun report _ => hprints report, List.filter_append, hnone,
    List.append_nil, List.filter_flatMap, List.map_flatMap]

/-- All chunks are listed, in their order. -/
theorem listed_runWith : (runWith digest host arguments t).entries.filter (·.topic = .listing)
    = (carvings digest host o t).map fun e => (Report.found e.path e.finding).entry := by
  rw [entries_of_chunks digest host t hparse (by decide) (by decide), List.map_eq_flatMap]
  refine List.flatMap_congr fun e _ => ?_
  rw [Carved.reports, Carved.told, Carved.commands]
  cases e.fate <;> cases o.commands <;> rfl

theorem wrote_runWith : (runWith digest host arguments t).entries.filter (·.topic = .wrote)
    = (written (carvings digest host o t)).map fun e => (Report.wrote (e.target o)).entry := by
  rw [entries_of_chunks digest host t hparse (by decide) (by decide), written,
    List.map_eq_flatMap, flatMap_filter]
  refine List.flatMap_congr fun e _ => ?_
  rw [Carved.reports, Carved.told, Carved.commands]
  cases e.fate <;> cases o.commands <;> rfl

/-- The error that tells why a chunk is not written, if it failed. -/
def Carved.failures (o : Options) (e : Carved) : List Line :=
  match e.fate with
  | .failed cause =>
    [⟨some .error, shownText s!"Failed to write {(e.target o).shown}: {cause.message}"⟩]
  | _ => []

theorem failures_runWith : (runWith digest host arguments t).entries.filter (·.topic = .failure)
    = (carvings digest host o t).flatMap (Carved.failures o) := by
  rw [entries_of_chunks digest host t hparse (by decide) (by decide)]
  refine List.flatMap_congr fun e _ => ?_
  rw [Carved.reports, Carved.told, Carved.commands, Carved.failures]
  cases e.fate <;> cases o.commands <;> rfl

/-- If commands are asked for, there is one behind each file that is written or proposed. -/
theorem commands_runWith : (runWith digest host arguments t).entries.filter (·.topic = .command)
    = ((carvings digest host o t).filter fun e =>
        e.fate = .written || e.fate = .proposed).flatMap fun e =>
          (e.commands o).map Report.entry := by
  rw [entries_of_chunks digest host t hparse (by decide) (by decide), flatMap_filter]
  refine List.flatMap_congr fun e _ => ?_
  rw [Carved.reports, Carved.told, Carved.commands]
  cases e.fate <;> cases o.commands <;> rfl

theorem summary_runWith :
    let outcome := runWith digest host arguments t
    outcome.entries.filter (·.topic = .summary)
      = ((summaries o outcome.exit (carvings digest host o t)).filter o.prints).map
        Report.entry := by
  intro outcome
  have hnone : ((carvings digest host o t).flatMap (Carved.reports digest o)).filter
      (·.topic = .summary) = [] := by
    refine List.filter_eq_nil_iff.2 fun report hreport => ?_
    obtain ⟨e, -, hmem⟩ := List.mem_flatMap.1 hreport
    obtain rfl | rfl | ⟨-, rfl⟩ | ⟨-, rfl⟩ | ⟨-, rfl⟩ | ⟨cause, -, rfl⟩ :=
      Carved.eq_of_mem_reports hmem <;> simp [Report.topic]
  have hall : (summaries o outcome.exit (carvings digest host o t)).filter (·.topic = .summary)
      = summaries o outcome.exit (carvings digest host o t) := by
    unfold summaries
    split <;> rfl
  rw [entries_runWith digest host t hparse, filter_topic_runWith digest host t hparse (by decide),
    List.filter_comm, List.filter_append, hnone, hall, List.nil_append]

/-- What is printed besides notices is told of the chunks. -/
theorem unmarked_runWith : (runWith digest host arguments t).reports.filter (·.mark = none)
    = (carvings digest host o t).flatMap fun e =>
      (e.reports digest o).filter (·.mark = none) := by
  have hnone : (summaries o (runWith digest host arguments t).exit
      (carvings digest host o t)).filter (·.mark = none) = [] := by
    unfold summaries
    split <;> rfl
  have htold (report : Report) : (decide (report.mark = none) && !report.isPassing)
      = decide (report.mark = none) := by
    cases report with
    | notice n => rfl
    | _ => rfl
  have hprints (report : Report) : (decide (report.mark = none) && o.prints report)
      = decide (report.mark = none) := by
    cases report with
    | notice n => rfl
    | _ => rfl
  rw [← List.filter_congr fun report _ => htold report, ← List.filter_filter,
    told_runWith digest host t hparse, List.filter_filter,
    List.filter_congr fun report _ => hprints report, List.filter_append, hnone, List.append_nil,
    List.filter_flatMap]

/-- If each notice that is printed takes one line, the lines that are printed besides are those of
the texts that are told of the chunks. -/
theorem results_runWith (hnotices : ∀ report ∈ (runWith digest host arguments t).reports,
      report.mark ≠ none → IsLine report.text) :
    (runWith digest host arguments t).results = (carvings digest host o t).flatMap fun e =>
      ((e.reports digest o).filter (·.mark = none)).flatMap (·.entry.results) := by
  have hresults (reports : List Report)
      (h : ∀ report ∈ reports, report.mark ≠ none → IsLine report.text) :
      reports.flatMap (·.entry.results)
        = (reports.filter (·.mark = none)).flatMap (·.entry.results) := by
    rw [flatMap_filter]
    refine List.flatMap_congr fun report hreport => ?_
    by_cases hmark : report.mark = none
    · simp [hmark]
    · simp [hmark, results_of_isLine hmark (h report hreport hmark)]
  rw [results_eq_flatMap, Outcome.entries, List.flatMap_map, hresults _ hnotices,
    unmarked_runWith digest host t hparse, List.flatMap_assoc]

/-- If no path holds a newline, these are the texts themselves. -/
theorem results_of_showsLines (hpaths : Options.ShowsLines digest host o t) :
    (runWith digest host arguments t).results
      = (carvings digest host o t).flatMap fun e =>
        ((e.reports digest o).filter (·.mark = none)).map Report.text := by
  have hline := isLine_of_mem_runWith digest host t hparse hpaths
  rw [results_runWith digest host t hparse fun report hreport _ => hline report hreport]
  refine List.flatMap_congr fun e he => ?_
  rw [List.map_eq_flatMap]
  refine List.flatMap_congr fun report hreport => ?_
  obtain ⟨hreport, hmark⟩ := List.mem_filter.1 hreport
  have hprinted : report ∈ (runWith digest host arguments t).reports.filter (·.mark = none) := by
    rw [unmarked_runWith digest host t hparse]
    exact List.mem_flatMap.2 ⟨e, he, List.mem_filter.2 ⟨hreport, hmark⟩⟩
  have hone : report.entry.split = [report.entry] :=
    Line.split_of_isLine (hline report (List.mem_of_mem_filter hprinted))
  rw [Line.results, hone]
  simp [Report.entry, of_decide_eq_true hmark]

end Run

section File

variable (digest : List UInt8 → List UInt8) {host : Host} {arguments : List OsText} {o : Options}
  {t : FileTree} {path : OsText} {data : Array UInt8}

theorem Run.reports_announce (r : Run) (notices : List Notice) :
    (notices.foldl Run.tell r).reports.toList = r.reports.toList ++ notices.map .notice := by
  induction notices generalizing r with
  | nil => exact (List.append_nil _).symm
  | cons notice notices ih =>
    rw [List.foldl_cons, ih, Run.tell, Run.reports_report, List.append_assoc]
    rfl

/-- A run that has carved some chunks sums them up. -/
theorem Run.reports_summarize {h : List Carved} {r : Run}
    (hcarves : (Run.start t).Carves digest host o h r) :
    (r.summarize o).reports.toList = r.reports.toList ++ summaries o 0 h := by
  have hfound : r.found = _ := hcarves.found_eq.trans (Nat.zero_add _)
  have hduplicates : r.duplicates = _ := hcarves.duplicates_eq.trans (Nat.zero_add _)
  have hwritten : r.written = _ := hcarves.written_eq.trans (Nat.zero_add _)
  rw [Run.summarize, summaries, hfound, hduplicates, hwritten]
  by_cases hcarve : o.carve && !o.dryRun
  · rw [if_pos hcarve, if_pos (by simpa using hcarve), Run.tell, Run.reports_report]
  · rw [if_neg hcarve, if_neg (by simpa using hcarve), List.append_nil]

/-- All that is printed of a run that scans one file. -/
theorem runWith_file (hparse : Options.parse arguments = .ok o) (hinput : o.input = .file path)
    (hread : host.readFile t path = .ok data) :
    let chunks := carvings digest host o t
    (runWith digest host arguments t).exit = 0
    ∧ (runWith digest host arguments t).reports
      = ((Run.openings path data.size (scanned o.scanConfig data).length).map Report.notice
        ++ chunks.flatMap (Carved.reports digest o) ++ summaries o 0 chunks).filter o.prints := by
  intro chunks
  let r := ((Run.start t).process digest host o path).1
  have hchunks : chunks = _ := carvings_file hinput hread
  have hprocess : (Run.start t).process digest host o path = _ := Run.process_eq hread
  have hvisit : (Run.start t).visit digest host o = (r.summarize o, none) := by
    rw [Run.visit, hinput]
    refine (Run.visitFile_of_leadsToFile digest host o (r := Run.start t)
      (Host.leadsToFile_of_readFile hread)).trans ?_
    rw [hprocess]
    simp only [r, hprocess]
  have hcarves : (Run.start t).Carves digest host o chunks r := by
    have hone := (Run.carves_process digest host o (Run.start t) path).1
    rw [carvedIn_eq (l := (Run.start t).ledger) hread] at hone
    rw [hchunks]
    exact hone
  have hreports : r.reports.toList
      = (Run.openings path data.size (scanned o.scanConfig data).length).map Report.notice
        ++ chunks.flatMap (Carved.reports digest o) := by
    simp only [r, hprocess]
    rw [Run.reports_foldl_settle, Run.reports_announce, hchunks]
    rfl
  refine ⟨by rw [exit_runWith digest host t hparse, hvisit]; rfl, ?_⟩
  rw [(runWith_visit digest host t hparse).2, hvisit, Run.reports_summarize digest hcarves,
    hreports]

/-- All that is printed of a run on a directory with one file in it, which is not hidden. -/
theorem runWith_single {directory below name : OsText} {location : Location}
    (hparse : Options.parse arguments = .ok o) (hinput : o.input = .directory directory)
    (hlocate : t.locate? directory = some location) (hdirectory : t.isDirectory location)
    (hnames : host.names t location = [name]) (hbelow : joinPath directory name = below)
    (hplain : t.isDirectory (location ++ [name]) = false) (hhidden : isHidden below = false)
    (hread : host.readFile t below = .ok data) :
    let chunks := carvings digest host o t
    (runWith digest host arguments t).exit = 0
    ∧ o.blobs digest host t = [below]
    ∧ (runWith digest host arguments t).reports
      = (([Notice.directoryEntered directory, .blobMet below] ++ Run.openings below data.size
          (scanned o.scanConfig data).length).map Report.notice
        ++ chunks.flatMap (Carved.reports digest o)
        ++ Report.notice (.blobsProcessed 1) :: summaries o 0 chunks).filter o.prints := by
  intro chunks
  let r := (Run.start t).tell (.directoryEntered directory)
  let settled := r.processAmong digest host o below
  have hsettled : settled = _ := Run.processAmong_eq hread
  have hvisits : r.Visits digest host o [below] settled :=
    Run.visits_processAmong digest host o r below
  have hwalk : Run.walk digest host o maxPathSize r directory = settled :=
    Run.walk_single 4094 location name (show r.tree = t from rfl) hlocate hnames hbelow hplain
      (Host.leadsToFile_of_readFile hread) hhidden
  have hblobs : o.blobs digest host t = [below] :=
    Run.blobs_of_directory hinput hlocate hdirectory hwalk hvisits
  have hchunks : chunks = Ledger.history digest host o ⟨t, []⟩ [below] :=
    congrArg _ hblobs
  have hvisit : (Run.start t).visit digest host o
      = ((settled.tell (.blobsProcessed 1)).summarize o, none) := by
    have hsize : settled.blobs.size = 1 := congrArg List.length hvisits.blobs_eq
    rw [Run.visit, hinput]
    simp only [Run.visitDirectory, Run.tree_start, hlocate, hdirectory, Bool.not_true,
      Bool.false_eq_true, if_false]
    rw [hwalk, hsize]
  have hcarves : (Run.start t).Carves digest host o chunks (settled.tell (.blobsProcessed 1)) := by
    rw [hchunks]
    exact (((Run.Carves.refl _).tell (.directoryEntered directory) rfl).trans hvisits.carves).tell _
      rfl
  have hreports : settled.reports.toList
      = ([Notice.directoryEntered directory, .blobMet below] ++ Run.openings below data.size
          (scanned o.scanConfig data).length).map Report.notice
        ++ chunks.flatMap (Carved.reports digest o) := by
    rw [hsettled, Run.reports_foldl_settle, Run.reports_announce, hchunks,
      Ledger.history_singleton, carvedIn_eq hread]
    rfl
  refine ⟨by rw [exit_runWith digest host t hparse, hvisit]; rfl, hblobs, ?_⟩
  rw [(runWith_visit digest host t hparse).2, hvisit, Run.reports_summarize digest hcarves,
    Run.tell, Run.reports_report, hreports, List.append_assoc _ [_], List.singleton_append]

end File

end Console

end Carving
