import Carving.Proofs.Duplicates

/-!
# The account of a run

Each chunk of a run that carves is listed, and is then skipped, written or fails to be written, so
that the numbers of what is printed about the chunks balance. The summary of the run tells these
numbers (`run_account`). They count printed texts: if a path holds a newline, the number of lines
can be another (`run_account_fails`).
-/

namespace Carving.Console

open OsText (newline ofString)

section Account

variable {digest : List UInt8 → List UInt8} {host : Host} {arguments : List OsText} {o : Options}
  {t : FileTree} {h : List Carved}

/-- Of the chunks that a run finds, as many are not skipped as have different contents. The digests
are assumed to tell the contents apart. -/
theorem length_unskipped (hcarve : o.carve)
    (hdigest : ∀ a ∈ carvings digest host o t, ∀ b ∈ carvings digest host o t,
      digest a.content = digest b.content → a.content = b.content) :
    ((carvings digest host o t).filter (·.fate ≠ .skipped)).length
      = ((carvings digest host o t).map Carved.content).eraseDups.length := by
  have hany : (carvings digest host o t).filter (digest ·.content ∉ (Ledger.mk t []).seen)
      = carvings digest host o t := List.filter_eq_self.2 fun _ _ => by simp
  rw [Ledger.unskipped_eq hcarve (explains_carvings digest host o t), hany, List.eraseDups,
    ← map_eraseDupsBy (carvings digest host o t) fun a ha b hb => ?_, List.length_map]
  rw [Bool.eq_iff_iff, decide_eq_true_eq, beq_iff_eq]
  exact ⟨hdigest a ha b hb, congrArg digest⟩

/-- Every chunk of a run that carves is skipped, is written or fails to be written. -/
def Settled (h : List Carved) : Prop :=
  ∀ e ∈ h, e.fate = .skipped ∨ e.fate = .written ∨ ∃ cause, e.fate = .failed cause

theorem settled_carvings (hcarve : o.carve) (hdry : o.dryRun = false) :
    Settled (carvings digest host o t) := by
  intro e he
  obtain ⟨met, hfate⟩ := (explains_carvings digest host o t).exists_fate_eq he
  rw [hfate]
  exact or_iff_not_imp_left.2 (Ledger.fate_of_unskipped hcarve hdry)

/-- Each chunk that is not skipped is written or fails to be written. -/
theorem Settled.length_unskipped (hsettled : Settled h) :
    (h.filter (·.fate ≠ .skipped)).length
      = (written h).length + (h.flatMap (Carved.failures o)).length := by
  induction h with
  | nil => rfl
  | cons e h ih =>
    obtain ⟨hone, hrest⟩ := List.forall_mem_cons.1 hsettled
    have ih := ih hrest
    rw [written] at ih ⊢
    rw [List.flatMap_cons, List.length_append, Carved.failures]
    rcases hone with he | he | ⟨cause, he⟩
    · rw [List.filter_cons_of_neg (by simp [he]), List.filter_cons_of_neg (by simp [he]), ih, he]
      simp
    · rw [List.filter_cons_of_pos (by simp [he]), List.filter_cons_of_pos (by simp [he]),
        List.length_cons, List.length_cons, ih, he, List.length_nil]
      omega
    · rw [List.filter_cons_of_pos (by simp [he]), List.filter_cons_of_neg (by simp [he]),
        List.length_cons, ih, he, List.length_singleton]
      omega

theorem countP_skipped (h : List Carved) : h.length
    = h.countP (·.fate = .skipped) + (h.filter (·.fate ≠ .skipped)).length := by
  have hnot : (fun e : Carved => decide (¬ decide (e.fate = .skipped) = true))
      = fun e => decide (e.fate ≠ .skipped) := by
    funext e
    simp
  rw [List.length_eq_countP_add_countP (fun e : Carved => decide (e.fate = .skipped)), hnot,
    ← List.countP_eq_length_filter]

theorem Settled.countP_found (hsettled : Settled h) : h.countP (·.fate ≠ .listed) = h.length :=
  List.countP_eq_length.2 fun e he => by
    rcases hsettled e he with he | he | ⟨cause, he⟩ <;> simp [he]

/-- There is a command behind each chunk that is written, if commands are asked for. -/
theorem Settled.length_commands (hsettled : Settled h) :
    ((h.filter fun e => e.fate = .written || e.fate = .proposed).flatMap fun e =>
      (e.commands o).map Report.entry).length = if o.commands then (written h).length else 0 := by
  have hwritten : (h.filter fun e => e.fate = .written || e.fate = .proposed) = written h := by
    refine List.filter_congr fun e he => ?_
    rcases hsettled e he with he | he | ⟨cause, he⟩ <;> simp [he]
  rw [hwritten, List.length_flatMap]
  cases hcommands : o.commands with
  | false => simp [Carved.commands, hcommands]
  | true => simp [Carved.commands, hcommands]

/-- The summary of a run that carves tells how many chunks it has found, skipped and written. -/
theorem Settled.summary_eq (hparse : Options.parse arguments = .ok o) (hcarve : o.carve)
    (hdry : o.dryRun = false) (hsettled : Settled (carvings digest host o t)) :
    let h := carvings digest host o t
    let outcome := runWith digest host arguments t
    let n := h.length
    let d := h.countP (·.fate = .skipped)
    let w := (written h).length
    outcome.entries.filter (·.topic = .summary) = if outcome.exit = 0 ∧ 1 ≤ o.verbosity
      then [⟨some .info, s!"Summary: {n} chunks found, {d} duplicates skipped, {w} written"⟩]
      else [] := by
  intro h outcome n d w
  have hwritten : h.countP (·.fate = .written) = (written h).length := List.countP_eq_length_filter
  have hprints (found duplicates written : Nat) :
      o.prints (.notice (.summary found duplicates written)) = decide (1 ≤ o.verbosity) := rfl
  have hsummary : outcome.entries.filter (·.topic = .summary) = _ :=
    summary_runWith digest host t hparse
  rw [hsummary, summaries, hcarve, hdry, hsettled.countP_found, hwritten]
  by_cases hexit : outcome.exit = 0
  · rw [if_pos (by simpa using hexit), List.filter_singleton, hprints]
    by_cases hverbose : 1 ≤ o.verbosity
    · rw [if_pos ⟨hexit, hverbose⟩, decide_eq_true hverbose]
      exact congrArg (fun line : Line => [line]) (entry_summary n d w)
    · rw [if_neg fun h => hverbose h.2, decide_eq_false hverbose]
      rfl
  · rw [if_neg (by simpa using hexit), if_neg fun h => hexit h.1]
    rfl

/-- The account of a run that carves, over one blob or all those below a directory, whatever it
skips and whatever it fails to write. Its summary, which is printed if the run succeeds and notices
of that severity are asked for, tells as many chunks found as are listed, as many written as are
told to be, and as many duplicates as were found beyond the first ones of their contents. Every
chunk is a duplicate, is written or fails to be written, and each one written has its command, if
commands are asked for. Each of these is printed as a text, which is one line if no path that is
shown holds a newline. The digests are assumed to tell the contents apart. -/
theorem run_account (digest : List UInt8 → List UInt8) (host : Host) (t : FileTree)
    (hparse : Options.parse arguments = .ok o) (hcarve : o.carve) (hdry : o.dryRun = false)
    (hdigest : ∀ a ∈ carvings digest host o t, ∀ b ∈ carvings digest host o t,
      digest a.content = digest b.content → a.content = b.content) :
    let h := carvings digest host o t
    let outcome := runWith digest host arguments t
    let listed := outcome.entries.filter (·.topic = .listing)
    let wrote := outcome.entries.filter (·.topic = .wrote)
    let failed := outcome.entries.filter (·.topic = .failure)
    let contents := (h.map Carved.content).eraseDups
    let n := listed.length
    let w := wrote.length
    listed = h.map (fun e => ⟨none, e.path.shown
      ++ s!"\t{e.finding.format.name}\t{e.finding.chunk.render}\t{e.finding.chunk.size} bytes"⟩)
    ∧ (∃ d, n = d + w + failed.length ∧ n = d + contents.length
      ∧ outcome.entries.filter (·.topic = .summary) = if outcome.exit = 0 ∧ 1 ≤ o.verbosity
        then [⟨some .info, s!"Summary: {n} chunks found, {d} duplicates skipped, {w} written"⟩]
        else [])
    ∧ (outcome.entries.filter (·.topic = .command)).length = (if o.commands then w else 0)
    ∧ (Options.ShowsLines digest host o t → outcome.lines = outcome.entries) := by
  intro h outcome listed wrote failed contents n w
  have hlisted : listed = _ := listed_runWith digest host t hparse
  have hwrote : wrote = _ := wrote_runWith digest host t hparse
  have hfailed : failed = _ := failures_runWith digest host t hparse
  have hcommands : outcome.entries.filter (·.topic = .command) = _ :=
    commands_runWith digest host t hparse
  have hsettled : Settled h := settled_carvings hcarve hdry
  have hfound : n = h.length := by
    rw [show n = _ from congrArg List.length hlisted, List.length_map]
  have hwritten : w = (written h).length := by
    rw [show w = _ from congrArg List.length hwrote, List.length_map]
  have hunskipped : (h.filter (·.fate ≠ .skipped)).length = w + failed.length := by
    rw [hwritten, hfailed]
    exact hsettled.length_unskipped
  have hdistinct : (h.filter (·.fate ≠ .skipped)).length = contents.length :=
    length_unskipped hcarve hdigest
  have hskipped := countP_skipped h
  refine ⟨?_, ⟨h.countP (·.fate = .skipped), by omega, by omega, ?_⟩, ?_,
    lines_runWith digest host t hparse⟩
  · rw [hlisted]
    refine List.map_congr_left fun e _ => ?_
    rw [Report.entry, text_found]
    rfl
  · rw [hfound, hwritten]
    exact hsettled.summary_eq hparse hcarve hdry
  · rw [hcommands, hwritten]
    exact hsettled.length_commands

/-- Three archives, two of them with the same bytes, one more archive with these bytes, and a file
where the third one would be written. -/
def mixedArchives : FileTree where
  files := [(["work", "in", "a.bin"], threeArchives),
    (["work", "in", "b.bin"], archive [0x68, 0x69]), (["work", "a.bin_46-69.lzh"], #[0])]
  directories := [["work"], ["work", "in"]]
  current := ["work"]

def tellArchives : Options := ⟨.directory "in", ".", 1, [.lzh], 0, true, true, false, false⟩

theorem parse_tellArchives :
    Options.parse ["-d", "in", "--format", "lzh", "--carve", "--commands", "-v"]
      = .ok tellArchives := by rfl

/-- The first blob is carved beside the directory, and then the second one is met. -/
theorem blobs_mixedArchives : tellArchives.blobs (fun content => content) .calm mixedArchives
    = (["in/a.bin", "in/b.bin"] : List OsText) := by
  let r := (Run.start mixedArchives).tell (.directoryEntered "in")
  let r' := r.processAmong (fun content => content) .calm tellArchives "in/a.bin"
  have hvisits : r.Visits _ _ _ _ r' := Run.visits_processAmong _ _ _ r "in/a.bin"
  have hread : Host.calm.readFile r.ledger.tree "in/a.bin" = .ok threeArchives := rfl
  have htree : r'.tree = mixedArchives.put (atWork "a.bin_0-23.lzh") (archive [0x68, 0x69]) := by
    rw [Run.tree_processAmong_of_read hread,
      show scanned tellArchives.scanConfig _ = _ from scanned_threeArchives]
    rfl
  have hwalk : Run.walk (fun content => content) .calm tellArchives 4095 r "in"
      = r'.processAmong (fun content => content) .calm tellArchives "in/b.bin" := by
    have hlocate : r.tree.locate? "in" = some (["work", "in"] : Location) := by decide
    have hnames : Host.calm.names r.tree ["work", "in"]
        = [OsText.ofString "a.bin", OsText.ofString "b.bin"] := by decide
    have hplain : r.tree.isDirectory ["work", "in", "a.bin"] = false := by decide
    have hnext : r'.tree.isDirectory ["work", "in", "b.bin"] = false := by
      rw [htree]
      decide
    have hmeet : r.meet (fun content => content) .calm tellArchives "in/a.bin" = r' :=
      Run.meet_eq (by decide) (by decide +kernel)
    have hfile : r'.tree.leadsToFile "in/b.bin" := by
      rw [htree]
      decide
    rw [show 4095 = 4094 + 1 from rfl, Run.walk]
    have hfirst : joinPath "in" "a.bin" = "in/a.bin" := by decide
    simp only [hlocate, hnames, List.foldl_cons, List.foldl_nil, List.cons_append, List.nil_append,
      hplain, hfirst, hmeet, hnext, Bool.false_eq_true, if_false]
    exact Run.meet_eq hfile (by decide +kernel)
  exact Run.blobs_of_directory rfl (show _ = some (["work", "in"] : Location) by decide)
    (by decide) hwalk (hvisits.trans (Run.visits_processAmong _ _ _ r' "in/b.bin"))

theorem carvings_mixedArchives :
    carvings (fun content => content) .calm tellArchives mixedArchives
      = [⟨"in/a.bin", "a.bin_0-23.lzh", wholeArchive, (archive [0x68, 0x69]).toList, .written⟩,
        ⟨"in/a.bin", "a.bin_23-46.lzh", secondTwin, (archive [0x68, 0x69]).toList, .skipped⟩,
        ⟨"in/a.bin", "a.bin_46-69.lzh", ⟨.lzh, ⟨46, 69, by decide⟩⟩, (archive [0x68, 0x6F]).toList,
          .failed (.alreadyThere "./a.bin_46-69.lzh")⟩,
        ⟨"in/b.bin", "b.bin_0-23.lzh", wholeArchive, (archive [0x68, 0x69]).toList, .skipped⟩] := by
  have hread : Host.calm.readFile mixedArchives "in/a.bin" = .ok threeArchives := rfl
  let t := mixedArchives.put (atWork "a.bin_0-23.lzh") (archive [0x68, 0x69])
  have hnext : Host.calm.readFile t "in/b.bin" = .ok (archive [0x68, 0x69]) := rfl
  rw [carvings, blobs_mixedArchives, Ledger.history, carvedIn_eq hread,
    show scanned tellArchives.scanConfig _ = _ from scanned_threeArchives, Ledger.history,
    carvedIn_eq hnext,
    show scanned tellArchives.scanConfig _ = _ from scanned_archive, Ledger.history]
  decide +kernel

theorem run_account_mixed :
    let outcome := run ["-d", "in", "--format", "lzh", "--carve", "--commands", "-v"] mixedArchives
    outcome.lines.filter (·.topic = .summary)
        = [⟨some .info, "Summary: 4 chunks found, 2 duplicates skipped, 1 written"⟩]
      ∧ (outcome.lines.filter (·.topic = .failure)).length = 1
      ∧ (outcome.lines.filter (·.topic = .command)).length = 1 := by
  intro outcome
  obtain ⟨hlisted, ⟨d, hbalance, hdistinct, hsummary⟩, hcommands, hlines⟩ := run_account
    (fun content => content) .calm mixedArchives parse_tellArchives rfl rfl fun _ _ _ _ h => h
  have hplain : Options.ShowsLines (fun content => content) .calm tellArchives mixedArchives := by
    refine ⟨by decide, by decide, ?_⟩
    rw [blobs_mixedArchives]
    decide
  replace hlines : outcome.lines = outcome.entries := hlines hplain
  have hwrote := wrote_runWith (fun content => content) .calm mixedArchives parse_tellArchives
  have hexit : outcome.exit = 0 := by
    rw [show outcome.exit = _ from exit_runWith _ _ _ parse_tellArchives]
    rfl
  have houtcome : runWith (fun content => content) .calm ["-d", "in", "--format", "lzh", "--carve",
    "--commands", "-v"] mixedArchives = outcome := rfl
  rw [carvings_mixedArchives] at hlisted hwrote hdistinct
  rw [houtcome] at hlisted hbalance hdistinct hsummary hcommands hwrote
  have hfour := congrArg List.length hlisted
  have hone := congrArg List.length hwrote
  have htwo := hfour.symm.trans hdistinct
  rw [hfour, hone] at hbalance hsummary
  rw [hone] at hcommands
  obtain rfl : d = 2 := Nat.add_right_cancel htwo.symm
  rw [hlines]
  exact ⟨hsummary.trans (if_pos ⟨hexit, Nat.le_refl 1⟩), (Nat.add_left_cancel hbalance).symm,
    hcommands⟩

/-- A path that is shown can hold a newline. One chunk is then listed in two lines, each of which
looks as if it listed one. -/
theorem run_account_fails :
    let path : OsText := "a\tlzh\t0x0-0x17\t23 bytes\nb/fw.bin"
    let name : OsText := "a\tlzh\t0x0-0x17\t23 bytes\nb"
    let t : FileTree := ⟨[(["work", name, "fw.bin"], archive [0x68, 0x69])],
      [["work"], ["work", name]], ["work"], []⟩
    let outcome := run ["-f", path, "--format", "lzh", "--carve", "-v"] t
    Options.parse ["-f", path, "--format", "lzh", "--carve", "-v"]
      = .ok ⟨.file path, ".", 1, [.lzh], 0, true, false, false, false⟩
    ∧ outcome.lines.filter (·.topic = .listing)
      = [⟨none, "a\tlzh\t0x0-0x17\t23 bytes"⟩, ⟨none, "b/fw.bin\tlzh\t0x0-0x17\t23 bytes"⟩]
    ∧ outcome.lines.filter (·.topic = .summary)
      = [⟨some .info, "Summary: 1 chunks found, 0 duplicates skipped, 1 written"⟩] := by
  intro path name t outcome
  let o : Options := ⟨.file path, ".", 1, [.lzh], 0, true, false, false, false⟩
  have hparse : Options.parse ["-f", path, "--format", "lzh", "--carve", "-v"] = .ok o := by rfl
  have hread : Host.calm.readFile t path = .ok (archive [0x68, 0x69]) := by decide +kernel
  have hfound : scanned o.scanConfig (archive [0x68, 0x69]) = [wholeArchive] := scanned_archive
  have hchunks : carvings (fun content => content) .calm o t
      = [⟨path, "fw.bin_0-23.lzh", wholeArchive, (archive [0x68, 0x69]).toList, .written⟩] := by
    rw [carvings_file rfl hread, hfound]
    decide +kernel
  have hreports := (runWith_file (fun content => content) hparse rfl hread).2
  have hlines : outcome.lines = [⟨none, "a\tlzh\t0x0-0x17\t23 bytes"⟩,
      ⟨none, "b/fw.bin\tlzh\t0x0-0x17\t23 bytes"⟩, ⟨none, "Wrote ./fw.bin_0-23.lzh"⟩,
      ⟨some .info, "Summary: 1 chunks found, 0 duplicates skipped, 1 written"⟩] := by
    rw [Outcome.lines, Outcome.entries, show outcome.reports = _ from hreports, hchunks, hfound]
    decide +kernel
  refine ⟨hparse, ?_, ?_⟩
  · rw [hlines]
    decide +kernel
  · rw [hlines]
    decide +kernel

end Account

end Carving.Console
