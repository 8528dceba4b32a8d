import Carving.Proofs.DistinctChunks
import Carving.Proofs.GivenFlags

/-!
# Dry runs

A dry run meets the same chunks in the same order as the run itself, skips the same ones, and
proposes a file for each of the others (`trail_dryRun`). It tells of no file that fails to be
written, so it foretells what the run prints if there is room for every file that it proposes, and
the system hinders no write (`dry_run_foretells`). Without that it can promise more than is done
(`dry_run_fails`).
-/

namespace Carving.Console

open OsText (newline ofString)

/-- What becomes of a chunk in a dry run, if otherwise this becomes of it. -/
def Fate.foretold : Fate → Fate
  | .written | .failed _ => .proposed
  | fate => fate

theorem Fate.foretold_eq_proposed {fate : Fate} (hlisted : fate ≠ .listed)
    (hskipped : fate ≠ .skipped) : fate.foretold = .proposed := by
  cases fate with
  | listed => exact absurd rfl hlisted
  | skipped => exact absurd rfl hskipped
  | _ => rfl

def Carved.foretold (e : Carved) : Carved := { e with fate := e.fate.foretold }

/-- A report of a dry run as the run itself makes it. -/
def Report.performed : Report → Report
  | .wouldWrite target => .wrote target
  | report => report

/-- A text with the words of a dry run at its beginning, as the run itself words it. -/
def performedText (text : String) : String :=
  match "Would write: ".toList.isPrefixOf? text.toList with
  | some target => "Wrote " ++ String.ofList target
  | none => text

/-- What a dry run prints, as the run itself prints it: a text that announces a file is worded
otherwise. -/
def Line.performed (line : Line) : Line :=
  if line.topic = .proposal then { line with text := performedText line.text } else line

section Chunks

variable {digest : List UInt8 → List UInt8} {host : Host} {o : Options} {l l' : Ledger}
  {e : Carved}

namespace Ledger

/-- Only the digests of the chunks before it decide what a dry run does with a chunk. -/
theorem fate_dryRun (hseen : l.seen = l'.seen) (name : OsText) (content : List UInt8) :
    l.fate digest host (o.rehearse true) name content
      = (l'.fate digest host (o.rehearse false) name content).foretold := by
  simp only [fate, Options.rehearse, hseen]
  by_cases hcarve : o.carve
  · simp only [hcarve, Bool.not_true, Bool.false_eq_true, if_false, if_true]
    by_cases hmet : digest content ∈ l'.seen
    · simp only [hmet, if_true]
      rfl
    · simp only [hmet, if_false]
      split <;> rfl
  · simp only [hcarve, Bool.not_false, if_true]
    rfl

theorem seen_settle_foretold (hseen : l.seen = l'.seen) (e : Carved) :
    (l.settle digest host (o.rehearse true) e.foretold).seen
      = (l'.settle digest host (o.rehearse false) e).seen := by
  simp only [settle, Carved.foretold]
  cases e.fate <;> simp only [Fate.foretold, hseen]

/-- The chunks of a blob in a dry run are those of the run itself, as far as they can be
foretold. -/
theorem trail_dryRun (hseen : l.seen = l'.seen) (path : OsText) (data : Array UInt8)
    (found : List Finding) : l.trail digest host (o.rehearse true) path data found
      = (l'.trail digest host (o.rehearse false) path data found).map Carved.foretold := by
  induction found generalizing l l' with
  | nil => rfl
  | cons f found ih =>
    have hone : l.carved digest host (o.rehearse true) path data f
        = (l'.carved digest host (o.rehearse false) path data f).foretold := by
      simp only [carved, Carved.foretold, fate_dryRun hseen]
    rw [trail, trail, List.map_cons, hone]
    exact congrArg _ (ih (seen_settle_foretold hseen _))

end Ledger

theorem map_performed_commands : (e.commands o).map Report.performed = e.commands o := by
  unfold Carved.commands
  split <;> rfl

/-- What a dry run says of a chunk is said of it by the run itself, if it is written there unless it
is skipped. -/
theorem performed_reports (hfate : e.fate = .skipped ∨ e.fate = .written) :
    (e.foretold.reports digest (o.rehearse true)).map Report.performed
      = e.reports digest (o.rehearse false) := by
  refine congrArg (Report.found e.path e.finding :: ·) ?_
  have hcommands := map_performed_commands (o := o.rehearse false) (e := e)
  simp only [Carved.told, Carved.foretold]
  rcases hfate with he | he <;> rw [he]
  · rfl
  · exact congrArg (Report.wrote (e.target o) :: ·) hcommands

end Chunks

section Texts

variable {text : String} {path : OsText} {report : Report}

theorem performedText_of_not (h : ¬ "Would write: ".toList <+: text.toList) :
    performedText text = text := by
  unfold performedText
  split
  · rename_i target htarget
    exact absurd ⟨target, List.isPrefixOf?_eq_some_iff_append_eq.1 htarget⟩ h
  · rfl

theorem performedText_proposal (target : String) :
    performedText ("Would write: " ++ target) = "Wrote " ++ target := by
  have hrest : "Would write: ".toList.isPrefixOf? ("Would write: " ++ target).toList
      = some target.toList := by
    rw [List.isPrefixOf?_eq_some_iff_append_eq, String.toList_append]
  rw [performedText, hrest]
  exact congrArg ("Wrote " ++ ·) String.ofList_toList

theorem mark_performed (report : Report) : report.performed.mark = report.mark := by
  cases report <;> rfl

/-- A report whose text tells what it is about is printed as the run itself words it. -/
theorem entry_performed (h : report.entry.topic = report.topic) :
    report.performed.entry = report.entry.performed := by
  have hother : report.topic ≠ .proposal → report.entry.performed = report.entry := fun hne => by
    rw [Line.performed, h, if_neg hne]
  cases report with
  | wouldWrite target =>
    have hproposal : (Report.wouldWrite target).entry.topic = .proposal := h
    rw [Line.performed, if_pos hproposal]
    exact congrArg (Line.mk none) (performedText_proposal target.shown).symm
  | notice n => exact (hother (by cases n <;> simp [Report.topic])).symm
  | _ => exact (hother (by simp [Report.topic])).symm

theorem not_prefix_found (h : ¬ "Would write: ".toList <+: path.shown.toList) (f : Finding) :
    ¬ "Would write: ".toList <+: (Report.found path f).text.toList := by
  obtain ⟨rest, htext⟩ : ∃ rest, (Report.found path f).text.toList
      = path.shown.toList ++ ['\t'] ++ rest :=
    ⟨_, by rw [text_found]; simp only [String.toList_append, List.append_assoc]; rfl⟩
  intro hstarts
  rw [htext] at hstarts
  -- The tab behind a shorter path would be one of the words of a proposal, which hold none.
  rcases Nat.lt_or_ge path.shown.toList.length "Would write: ".toList.length with hlt | hle
  · have htab : path.shown.toList ++ ['\t'] <+: "Would write: ".toList :=
      List.prefix_of_prefix_length_le (List.prefix_append _ _) hstarts (by
        rwa [List.length_append])
    exact absurd (htab.subset (List.mem_append_right _ List.mem_cons_self)) (by decide)
  · rw [List.append_assoc] at hstarts
    exact h (List.prefix_of_prefix_length_le hstarts (List.prefix_append _ _) hle)

theorem not_prefix_command (format : Format) (input directory : OsText) : ¬ "Would write: ".toList
    <+: (Report.command (format.extractionCommand input directory)).text.toList := by
  obtain ⟨front, hhead, htext⟩ := text_command format input directory
  rintro ⟨rest, hrest⟩
  rw [htext, String.toList_append] at hrest
  have hfirst := congrArg List.head? hrest
  rw [List.head?_append, List.head?_append] at hfirst
  rcases hhead with hhead | hhead <;> rw [hhead] at hfirst <;> exact absurd hfirst (by simp)

end Texts

section Rehearsal

variable (digest : List UInt8 → List UInt8) {host : Host} {before behind : List OsText}
  {o : Options} {t made : FileTree} {path : OsText} {place : Location} {data : Array UInt8}
  (hinput : o.input = .file path) (hread : host.readFile t path = .ok data)
include hinput hread

theorem carvings_dryRun : carvings digest host (o.rehearse true) t
    = (carvings digest host (o.rehearse false) t).map Carved.foretold := by
  rw [carvings_file (o := o.rehearse true) hinput hread,
    carvings_file (o := o.rehearse false) hinput hread]
  exact Ledger.trail_dryRun rfl _ _ _

variable (hcarve : o.carve) (hmade : t.makeDirectories o.output none = (made, some place))
  (hcalm : ∀ n, host.hindrance? n = none)
  (hroom : ∀ e ∈ carvings digest host (o.rehearse true) t, e.fate = .proposed →
    HasRoom o.output made place e.name)
include hcarve hmade hcalm hroom

/-- If there is room for every file that a dry run proposes, no write fails. -/
theorem skipped_or_written {e : Carved} (he : e ∈ carvings digest host (o.rehearse false) t) :
    e.fate = .skipped ∨ e.fate = .written := by
  have hex := explains_carvings digest host (o.rehearse false) t
  have hof : ∀ e ∈ carvings digest host (o.rehearse false) t, e.Of path data := by
    rw [carvings_file (o := o.rehearse false) hinput hread]
    exact fun e he => of_mem_trail he
  -- The dry run proposes a file for each chunk that the run itself does not skip.
  have hnew : ∀ e ∈ carvings digest host (o.rehearse false) t, e.fate ≠ .skipped →
      HasRoom o.output made place e.name := fun e he hskip => by
    have hmem : e.foretold ∈ carvings digest host (o.rehearse true) t := by
      rw [carvings_dryRun digest hinput hread]
      exact List.mem_map_of_mem he
    have hlisted : e.fate ≠ .listed := by
      obtain ⟨met, hfate⟩ := hex.exists_fate_eq he
      rw [hfate]
      exact mt Ledger.fate_eq_listed.1 (by simpa [Options.rehearse] using hcarve)
    exact hroom e.foretold hmem (Fate.foretold_eq_proposed hlisted hskip)
  have hfiles := FileTree.makeDirectories_files t o.output none
  rw [hmade] at hfiles
  refine (written_of_room (o := o.rehearse false) hcarve rfl hcalm
    (isReady_of_makeDirectories hmade) hex hnew (fun e he hskip => ?_) fun a ha b hb hname => ?_).1
    e he
  · have hvacant := (Bool.or_eq_false_iff.1 (hnew e he hskip).vacant).1
    rwa [FileTree.isFile, FileTree.content?_of_files_eq hfiles] at hvacant
  · rw [(hof a ha).content_eq_of_name (hof b hb) hname]

/-- The reports of the run itself are those of the dry run as it makes them, and its summary. -/
theorem reports_performed
    (hparse : Options.parse (before ++ ofString "--dry-run" :: behind) = .ok o) :
    ∃ found duplicates written, (runWith digest host (before ++ behind) t).reports
      = (runWith digest host (before ++ ofString "--dry-run" :: behind) t).reports.map
          Report.performed
        ++ [Report.notice (.summary found duplicates written)].filter o.prints := by
  have hdry := Options.dryRun_of_parse hparse
  have hsame := Options.rehearse_of_dryRun hdry
  have hproposed := (runWith_file digest hparse hinput hread).2
  have hreal := (runWith_file digest (Options.parse_without_dryRun hparse) hinput hread).2
  have hprints : o.prints ∘ Report.performed = o.prints := funext fun report => by
    rw [Function.comp_apply, Options.prints, Options.prints, mark_performed]
  have hopened (notices : List Notice) : (notices.map Report.notice).map Report.performed
      = notices.map Report.notice := by
    rw [List.map_map]
    rfl
  have hchunks : ((carvings digest host o t).flatMap (Carved.reports digest o)).map
        Report.performed = (carvings digest host (o.rehearse false) t).flatMap
        (Carved.reports digest (o.rehearse false)) := by
    rw [← hsame, carvings_dryRun digest hinput hread, List.map_flatMap, List.flatMap_map]
    refine List.flatMap_congr fun e he => performed_reports ?_
    exact skipped_or_written digest hinput hread hcarve hmade hcalm hroom he
  rw [summaries, if_neg (by simp [hdry]), List.append_nil] at hproposed
  rw [summaries, if_pos (by simpa [Options.rehearse] using hcarve), ← hchunks,
    List.filter_append] at hreal
  rw [hreal]
  refine ⟨_, _, _, congrArg (· ++ _) ?_⟩
  calc _ = (((Run.openings path data.size (scanned o.scanConfig data).length).map Report.notice
        ++ (carvings digest host o t).flatMap (Carved.reports digest o)).map
          Report.performed).filter o.prints := by
        rw [List.map_append, hopened]
        rfl
    _ = _ := by rw [List.filter_map, hprints, hproposed]

end Rehearsal

section Foretold

variable {digest : List UInt8 → List UInt8} {host : Host} {before behind : List OsText}
  {o : Options} {t made : FileTree} {path : OsText} {place : Location} {data : Array UInt8}

theorem results_summary (found duplicates written : Nat) :
    (Report.notice (.summary found duplicates written)).entry.results = [] :=
  results_of_isLine nofun (isLine_notice (by simp [Notice.paths]))

/-- The texts that a dry run tells of a chunk besides notices are those of the run itself in the
words of a dry run, if the path of the blob does not begin as a proposal does. -/
theorem texts_performed {e : Carved} (hplain : ¬ "Would write: ".toList <+: e.path.shown.toList)
    (hfate : e.fate = .skipped ∨ e.fate = .written) :
    ((e.reports digest (o.rehearse false)).filter (·.mark = none)).map Report.text
      = (((e.foretold.reports digest (o.rehearse true)).filter (·.mark = none)).map
        Report.text).map performedText := by
  have hmark : (fun report : Report => decide (report.mark = none)) ∘ Report.performed
      = fun report => decide (report.mark = none) := funext fun report => by
    rw [Function.comp_apply, mark_performed]
  rw [← performed_reports hfate, List.filter_map, hmark, List.map_map, List.map_map]
  refine List.map_congr_left fun report hreport => ?_
  obtain ⟨hreport, hunmarked⟩ := List.mem_filter.1 hreport
  rw [Function.comp_apply, Function.comp_apply]
  obtain rfl | rfl | ⟨-, rfl⟩ | ⟨-, rfl⟩ | ⟨hwritten, -⟩ | ⟨cause, -, rfl⟩ :=
    Carved.eq_of_mem_reports hreport
  · exact (performedText_of_not (not_prefix_found hplain _)).symm
  · exact (performedText_of_not (not_prefix_command _ _ _)).symm
  · cases hunmarked
  · exact (performedText_proposal _).symm
  · rcases hfate with h | h <;> rw [Carved.foretold, h] at hwritten <;> cases hwritten
  · cases hunmarked

/-- A run of one blob prints what its dry run prints, with each text that announces a file worded as
one that tells of it. If no path that is printed holds a newline and that of the blob does not begin
as a proposal does, these are the lines of the dry run with their first words replaced. There has to
be room for every file that the dry run proposes once the output directory has been made, and the
system has to let the blob be read and to hinder no write. -/
theorem dry_run_foretells (digest : List UInt8 → List UInt8) (host : Host)
    (hparse : Options.parse (before ++ ofString "--dry-run" :: behind) = .ok o)
    (hinput : o.input = .file path) (hcarve : o.carve) (hread : host.readFile t path = .ok data)
    (hmade : t.makeDirectories o.output none = (made, some place))
    (hcalm : ∀ n, host.hindrance? n = none)
    (hroom : ∀ e ∈ carvings digest host o t, e.fate = .proposed →
      HasRoom o.output made place e.name) :
    let dry := runWith digest host (before ++ ofString "--dry-run" :: behind) t
    let real := runWith digest host (before ++ behind) t
    real.results = dry.entries.flatMap (fun entry => entry.performed.results)
    ∧ (newline ∉ path → newline ∉ o.output → ¬ "Would write: ".toList <+: path.shown.toList →
      real.results = dry.results.map performedText) := by
  intro dry real
  have hsame := Options.rehearse_of_dryRun (Options.dryRun_of_parse hparse)
  have hroom : ∀ e ∈ carvings digest host (o.rehearse true) t, e.fate = .proposed →
      HasRoom o.output made place e.name := by rwa [hsame]
  refine ⟨?_, fun hpath houtput hplain => ?_⟩
  · obtain ⟨found, duplicates, written, hreports⟩ :=
      reports_performed digest hinput hread hcarve hmade hcalm hroom hparse
    have hsummary : (([Report.notice (.summary found duplicates written)].filter o.prints).map
        Report.entry).flatMap Line.results = [] := by
      refine List.flatMap_eq_nil_iff.2 fun line hline => ?_
      obtain ⟨report, hreport, rfl⟩ := List.mem_map.1 hline
      rw [List.mem_singleton.1 (List.mem_of_mem_filter hreport)]
      exact results_summary _ _ _
    rw [results_eq_flatMap, Outcome.entries, show real.reports = _ from hreports, List.map_append,
      List.flatMap_append, hsummary, List.append_nil, List.flatMap_map, List.flatMap_map,
      Outcome.entries, List.flatMap_map]
    refine List.flatMap_congr fun report hreport => ?_
    rw [entry_performed (topic_of_mem_runWith digest host t hparse hreport)]
  · have hdry : dry.results = _ :=
      results_of_showsLines digest host t hparse (.of_file hinput hpath houtput)
    have hreal : real.results = _ := results_of_showsLines digest host t
      (Options.parse_without_dryRun hparse) (.of_file hinput hpath houtput)
    rw [hdry, hreal, ← hsame, carvings_dryRun digest hinput hread, List.flatMap_map,
      List.map_flatMap]
    refine List.flatMap_congr fun e he => texts_performed ?_ ?_
    · have hof : e.Of path data :=
        of_mem_trail (carvings_file (o := o.rehearse false) hinput hread ▸ he)
      rwa [hof.path_eq]
    · exact skipped_or_written digest hinput hread hcarve hmade hcalm hroom he

/-- The second archive is not to be written again, and so is no file for it announced. -/
theorem dry_run_foretells_archives :
    let t := workplace "fw.bin" threeArchives
    let dry := run ["-f", "fw.bin", "--format", "lzh", "--carve", "--dry-run", "--commands"] t
    let real := run ["-f", "fw.bin", "--format", "lzh", "--carve", "--commands"] t
    dry.results = ["fw.bin\tlzh\t0x0-0x17\t23 bytes", "Would write: ./fw.bin_0-23.lzh",
        "7z x -y ./fw.bin_0-23.lzh -o./fw.bin_0-23.lzh_extract",
        "fw.bin\tlzh\t0x17-0x2e\t23 bytes",
        "fw.bin\tlzh\t0x2e-0x45\t23 bytes", "Would write: ./fw.bin_46-69.lzh",
        "7z x -y ./fw.bin_46-69.lzh -o./fw.bin_46-69.lzh_extract"]
      ∧ real.results = dry.results.map performedText := by
  intro t dry real
  let o : Options := ⟨.file "fw.bin", ".", 0, [.lzh], 0, true, true, true, false⟩
  let before : List OsText := ["-f", "fw.bin", "--format", "lzh", "--carve"]
  have hparse : Options.parse (before ++ ofString "--dry-run" :: [ofString "--commands"])
      = .ok o := by rfl
  have hread : Host.calm.readFile t "fw.bin" = .ok threeArchives := by rfl
  have hmade : t.makeDirectories "." none = (t, some (["work"] : Location)) := by rfl
  have hfound : scanned o.scanConfig threeArchives = _ := scanned_threeArchives
  have hchunks : carvings (fun content => content) .calm o t = _ := carvings_file rfl hread
  rw [hfound] at hchunks
  have hroom : ∀ e ∈ carvings (fun content => content) .calm o t, e.fate = .proposed →
      HasRoom "." t ["work"] e.name := by
    rw [hchunks]
    decide +kernel
  have hforetold := (dry_run_foretells (fun content => content) .calm hparse rfl rfl hread hmade
    (fun _ => rfl) hroom).2 (by decide) (by decide) (by decide)
  have hdry : dry.results = _ :=
    results_of_showsLines _ _ t hparse (.of_file rfl (by decide) (by decide))
  refine ⟨?_, hforetold⟩
  rw [hdry, hchunks]
  decide +kernel

/-- A dry run does not foretell the run itself if the only chunk of the blob cannot be written: it
prints a line more. -/
theorem not_foretold_of_single {f : Finding}
    (hparse : Options.parse (before ++ ofString "--dry-run" :: behind) = .ok o)
    (hinput : o.input = .file path) (hcarve : o.carve) (hread : host.readFile t path = .ok data)
    (hpath : newline ∉ path) (houtput : newline ∉ o.output)
    (hfound : scanned o.scanConfig data = [f])
    (hwrite : ∃ cause, (writeFile t o.force o.output
      (ofString (chunkFileName (blobName path) f)) (f.chunk.slice data).toArray
      (host.hindrance? 0)).2 = some cause) :
    (runWith digest host (before ++ behind) t).results
      ≠ (runWith digest host (before ++ ofString "--dry-run" :: behind) t).results.map
        performedText := by
  obtain ⟨cause, hwrite⟩ := hwrite
  let l : Ledger := ⟨t, []⟩
  let e := l.carved digest host (o.rehearse false) path data f
  have hfate : e.fate = .failed cause :=
    Ledger.fate_eq_failed.2 ⟨hcarve, List.not_mem_nil, rfl, hwrite⟩
  have hchunks : carvings digest host (o.rehearse false) t = [e] := by
    rw [carvings_file (o := o.rehearse false) hinput hread,
      show scanned (o.rehearse false).scanConfig data = _ from hfound, Ledger.trail, Ledger.trail]
  have hproposed : carvings digest host o t = [e.foretold] := by
    rw [← Options.rehearse_of_dryRun (Options.dryRun_of_parse hparse),
      carvings_dryRun digest hinput hread, hchunks, List.map_singleton]
  intro heq
  have hlength := congrArg List.length heq
  rw [results_of_showsLines digest host t hparse (.of_file hinput hpath houtput),
    results_of_showsLines digest host t (Options.parse_without_dryRun hparse)
      (.of_file hinput hpath houtput), hchunks, hproposed] at hlength
  simp [Carved.reports, Carved.told, Carved.foretold, Fate.foretold, hfate, Report.mark] at hlength

end Foretold

section Archives

theorem long_name_not_foretold {name : OsText}
    (hparse : Options.parse ([ofString "-f", name, ofString "--format", ofString "lzh",
      ofString "--carve"] ++ [ofString "--dry-run"])
        = .ok ((carveFile name ".").rehearse true))
    (hread : Host.calm.readFile (workplace name (archive [0x68, 0x69])) name
      = .ok (archive [0x68, 0x69]))
    (hplain : newline ∉ name)
    (hlong : maxNameSize < (ofString (chunkFileName (blobName name) wholeArchive)).length) :
    let t := workplace name (archive [0x68, 0x69])
    (run ["-f", name, "--format", "lzh", "--carve"] t).results
      ≠ (run ["-f", name, "--format", "lzh", "--carve", "--dry-run"] t).results.map
        performedText := by
  obtain ⟨u, cause, hwrite, -⟩ := writeFile_of_barred fun _ _ _ _ => hlong
  have houtput : newline ∉ ofString "." := by decide
  exact not_foretold_of_single hparse rfl rfl hread hplain houtput scanned_archive
    ⟨cause, congrArg Prod.snd hwrite⟩

theorem behind_directory_not_foretold :
    let t : FileTree := ⟨[(atWork "fw.bin", archive [0x68, 0x69]),
      (["work", "old", "fw.bin_0-23.lzh"], #[0])], [["work"], ["work", "old"]], ["work"], []⟩
    (run ["-f", "fw.bin", "--format", "lzh", "--carve", "-o", "new/../old"] t).results
      ≠ (run ["-f", "fw.bin", "--format", "lzh", "--carve", "-o", "new/../old", "--dry-run"]
        t).results.map performedText := by
  intro t
  let before : List OsText := ["-f", "fw.bin", "--format", "lzh", "--carve", "-o", "new/../old"]
  have hparse : Options.parse (before ++ [ofString "--dry-run"])
      = .ok ((carveFile "fw.bin" "new/../old").rehearse true) := by rfl
  have hread : Host.calm.readFile t "fw.bin" = .ok (archive [0x68, 0x69]) := by rfl
  exact not_foretold_of_single hparse rfl rfl hread (by decide) (by decide) scanned_archive
    ⟨.alreadyThere "new/../old/fw.bin_0-23.lzh", by rfl⟩

theorem not_permitted_not_foretold :
    let t := workplace "fw.bin" (archive [0x68, 0x69])
    (runWith (fun content => content) .barring ["-f", "fw.bin", "--format", "lzh", "--carve"]
      t).results
      ≠ (runWith (fun content => content) .barring ["-f", "fw.bin", "--format", "lzh", "--carve",
        "--dry-run"] t).results.map performedText := by
  intro t
  let before : List OsText := ["-f", "fw.bin", "--format", "lzh", "--carve"]
  have hparse : Options.parse (before ++ [ofString "--dry-run"])
      = .ok ((carveFile "fw.bin" ".").rehearse true) := by rfl
  have hread : Host.barring.readFile t "fw.bin" = .ok (archive [0x68, 0x69]) := by rfl
  exact not_foretold_of_single hparse rfl rfl hread (by decide) (by decide) scanned_archive
    ⟨.fileNotMade "./fw.bin_0-23.lzh", by rfl⟩

theorem misread_not_foretold :
    let t := workplace "Would write: x" (archive [0x68, 0x69])
    (run ["-f", "Would write: x", "--format", "lzh", "--carve"] t).results
      ≠ (run ["-f", "Would write: x", "--format", "lzh", "--carve", "--dry-run"] t).results.map
        performedText := by
  intro t
  let before : List OsText := ["-f", "Would write: x", "--format", "lzh", "--carve"]
  have hparse : Options.parse (before ++ [ofString "--dry-run"])
      = .ok ((carveFile "Would write: x" ".").rehearse true) := by rfl
  have hread : Host.calm.readFile t "Would write: x" = .ok (archive [0x68, 0x69]) := by rfl
  let o := (carveFile "Would write: x" ".").rehearse true
  have hdry := results_of_showsLines (fun content => content) .calm t (o := o) hparse
    (.of_file rfl (by decide) (by decide))
  have hreal := results_of_showsLines (fun content => content) .calm t (o := o.rehearse false)
    (Options.parse_without_dryRun hparse) (.of_file rfl (by decide) (by decide))
  rw [carvings_file (o := o) rfl hread,
    show scanned o.scanConfig _ = _ from scanned_archive] at hdry
  rw [carvings_file (o := o.rehearse false) rfl hread,
    show scanned (o.rehearse false).scanConfig _ = _ from scanned_archive] at hreal
  intro heq
  have hhead := (congrArg List.head? hreal).symm.trans
    ((congrArg List.head? heq).trans (congrArg (fun lines => (lines.map performedText).head?) hdry))
  exact absurd hhead (by decide +kernel)

/-- A dry run does not foretell that a file cannot be written: because its name is too long, because
its path leads to another file once a directory on the way has been made, or for want of a
permission. The path of a blob can begin as a proposal does, and is printed as it is. -/
theorem dry_run_fails :
    let t (name : OsText) := workplace name (archive [0x68, 0x69])
    let t' : FileTree := ⟨[(atWork "fw.bin", archive [0x68, 0x69]),
      (["work", "old", "fw.bin_0-23.lzh"], #[0])], [["work"], ["work", "old"]], ["work"], []⟩
    (IsVacant (t longName) longName "."
      ∧ (run ["-f", longName, "--format", "lzh", "--carve"] (t longName)).results
        ≠ (run ["-f", longName, "--format", "lzh", "--carve", "--dry-run"]
          (t longName)).results.map performedText)
    ∧ (IsVacant t' "fw.bin" "new/../old"
      ∧ (run ["-f", "fw.bin", "--format", "lzh", "--carve", "-o", "new/../old"] t').results
        ≠ (run ["-f", "fw.bin", "--format", "lzh", "--carve", "-o", "new/../old", "--dry-run"]
          t').results.map performedText)
    ∧ (IsVacant (t "fw.bin") "fw.bin" "."
      ∧ (runWith (fun content => content) .barring ["-f", "fw.bin", "--format", "lzh", "--carve"]
        (t "fw.bin")).results
        ≠ (runWith (fun content => content) .barring ["-f", "fw.bin", "--format", "lzh", "--carve",
          "--dry-run"] (t "fw.bin")).results.map performedText)
    ∧ (IsVacant (t "Would write: x") "Would write: x" "."
      ∧ (run ["-f", "Would write: x", "--format", "lzh", "--carve"] (t "Would write: x")).results
        ≠ (run ["-f", "Would write: x", "--format", "lzh", "--carve", "--dry-run"]
          (t "Would write: x")).results.map performedText) := by
  refine ⟨⟨?_, ?_⟩, ⟨archive_behind_directory.1, behind_directory_not_foretold⟩,
    ⟨archive_not_permitted.1, not_permitted_not_foretold⟩,
    ⟨⟨by decide, by decide⟩, misread_not_foretold⟩⟩
  · exact (archive_of_long_name rfl (by decide +kernel) long_chunkFileName).1
  · exact long_name_not_foretold rfl (by decide +kernel) (by decide +kernel) long_chunkFileName

end Archives

end Carving.Console
