import Carving.Proofs.PrintedLines

/-!
# Carving one blob

A run that carves the chunks of one blob writes one file for each content that it finds. The file is
named after the first finding of that content and holds the bytes of it, no write fails, and every
finding is listed in the order of the scan (`carved_blob`). The run does so if there is room for the
files once the output directory has been made (`HasRoom`), and the system hinders no write. Without
that a write can fail (`carved_blob_fails`).
-/

namespace Carving

section Firsts

variable {α β : Type}

theorem map_eraseDupsBy {f : α → β} {r : α → α → Bool} {r' : β → β → Bool} (l : List α)
    (h : ∀ a ∈ l, ∀ b ∈ l, r a b = r' (f a) (f b)) :
    (l.eraseDupsBy r).map f = (l.map f).eraseDupsBy r' := by
  match l with
  | [] => rfl
  | a :: l =>
    have hrest : (l.filter fun b => r b a = false).map f
        = (l.map f).filter fun b => r' b (f a) = false := by
      rw [List.filter_map]
      refine congrArg _ (List.filter_congr fun b hb => ?_)
      rw [Function.comp_apply, h b (List.mem_cons_of_mem _ hb) a List.mem_cons_self]
    rw [List.eraseDupsBy_cons, List.map_cons, List.map_cons, List.eraseDupsBy_cons, ← hrest]
    refine congrArg _ (map_eraseDupsBy _ fun b hb c hc => ?_)
    exact h b (List.mem_cons_of_mem _ (List.mem_filter.1 hb).1)
      c (List.mem_cons_of_mem _ (List.mem_filter.1 hc).1)
termination_by l.length
decreasing_by exact Nat.lt_succ_of_le (List.length_filter_le _ _)

/-- The findings in some data, without those whose content an earlier one has. -/
def firsts (data : Array UInt8) (found : List Finding) : List Finding :=
  found.eraseDupsBy fun f g => f.chunk.slice data = g.chunk.slice data

end Firsts

namespace Console

open OsText (newline ofString)

section Room

variable {digest : List UInt8 → List UInt8} {host : Host} {o : Options} {l : Ledger}
  {t u made : FileTree} {place : Location} {name : OsText} {h : List Carved} {e : Carved}

/-- There is room for a file in the output directory once that has been made: nothing is in its
place, not even a link, and its name and its path are short enough. -/
structure HasRoom (output : OsText) (made : FileTree) (place : Location) (name : OsText) :
    Prop where
  vacant : made.occupied (place ++ [name]) = false
  unlinked : made.link? (place ++ [name]) = none
  name_short : name.length ≤ maxNameSize
  target_short : (joinPath output name).length ≤ maxPathSize

instance (output : OsText) (made : FileTree) (place : Location) (name : OsText) :
    Decidable (HasRoom output made place name) :=
  decidable_of_iff (made.occupied (place ++ [name]) = false ∧ made.link? (place ++ [name]) = none
    ∧ name.length ≤ maxNameSize ∧ (joinPath output name).length ≤ maxPathSize)
    ⟨fun ⟨h1, h2, h3, h4⟩ => ⟨h1, h2, h3, h4⟩, fun ⟨h1, h2, h3, h4⟩ => ⟨h1, h2, h3, h4⟩⟩

/-- The directories of a tree are those that are there once the output directory has been made, or
become so. -/
def IsReady (output : OsText) (made : FileTree) (place : Location) (t : FileTree) : Prop :=
  t.makeDirectories output none = ({ made with files := t.files }, some place)

theorem isReady_of_makeDirectories
    (hmade : t.makeDirectories o.output none = (made, some place)) :
    IsReady o.output made place t := by
  have hfiles := FileTree.makeDirectories_files t o.output none
  rw [hmade] at hfiles
  rw [IsReady, hmade, ← hfiles]

/-- A file for which there is room is written, if the system does not hinder that. -/
theorem writeFile_of_room {force : Bool} {content : Array UInt8}
    (hready : IsReady o.output made place t)
    (hroom : HasRoom o.output made place name) (hfree : t.isFile (place ++ [name]) = false) :
    writeFile t force o.output name content none
      = ({ made with files := t.files ++ [(place ++ [name], content)] }, none) := by
  have hdirectory := (Bool.or_eq_false_iff.1 hroom.vacant).2
  have hvacant : ({ made with files := t.files } : FileTree).occupied (place ++ [name]) = false :=
    Bool.or_eq_false_iff.2 ⟨hfree, hdirectory⟩
  rw [writeFile_of_free hready hroom.unlinked hvacant hroom.name_short hroom.target_short,
    FileTree.put_of_free (t := { made with files := t.files }) hfree]

variable (hcarve : o.carve) (hdry : o.dryRun = false) (hcalm : ∀ n, host.hindrance? n = none)
include hcarve hdry hcalm

/-- A chunk for which there is room is written, unless its digest was met before. -/
theorem settle_of_room (hready : IsReady o.output made place l.tree)
    (hfate : e.fate = l.fate digest host o e.name e.content) (hnew : e.fate ≠ .skipped)
    (hroom : HasRoom o.output made place e.name)
    (hfree : l.tree.isFile (place ++ [e.name]) = false) :
    e.fate = .written ∧ IsReady o.output made place (l.settle digest host o e).tree
      ∧ (l.settle digest host o e).tree.files
        = l.tree.files ++ [(place ++ [e.name], e.content.toArray)] := by
  have hunseen : digest e.content ∉ l.seen := by
    rw [hfate] at hnew
    exact mt (Ledger.fate_eq_skipped hcarve).2 hnew
  have hwrite : l.write host o e.name e.content
      = ({ made with files := l.tree.files ++ [(place ++ [e.name], e.content.toArray)] },
        none) := by
    rw [Ledger.write, hcalm]
    exact writeFile_of_room hready hroom hfree
  have hwritten : e.fate = .written := by
    rw [hfate]
    exact Ledger.fate_eq_written.2 ⟨hcarve, hunseen, hdry, by rw [hwrite]⟩
  refine ⟨hwritten, ?_, ?_⟩
  · rw [Ledger.settle, hwritten]
    simp only [hwrite]
    exact FileTree.makeDirectories_again hready ⟨rfl, rfl, List.Subset.refl _⟩
  · rw [Ledger.settle, hwritten]
    simp only [hwrite]

/-- If there is room for the file of every chunk that is not skipped, these are written, and their
files are added to those that were there. -/
theorem written_of_room (hready : IsReady o.output made place l.tree)
    (hex : l.Explains digest host o h)
    (hroom : ∀ e ∈ h, e.fate ≠ .skipped → HasRoom o.output made place e.name)
    (hfree : ∀ e ∈ h, e.fate ≠ .skipped → l.tree.isFile (place ++ [e.name]) = false)
    (hdistinct : ∀ a ∈ h, ∀ b ∈ h, a.name = b.name → digest a.content = digest b.content) :
    (∀ e ∈ h, e.fate = .skipped ∨ e.fate = .written)
      ∧ (l.after digest host o h).tree.files = l.tree.files
        ++ (written h).map fun e => (place ++ [e.name], e.content.toArray) := by
  induction h generalizing l with
  | nil => exact ⟨nofun, (List.append_nil _).symm⟩
  | cons e h ih =>
    obtain ⟨hroom, hrooms⟩ := List.forall_mem_cons.1 hroom
    obtain ⟨hfree, hfrees⟩ := List.forall_mem_cons.1 hfree
    have hothers := fun a ha b hb =>
      hdistinct a (List.mem_cons_of_mem _ ha) b (List.mem_cons_of_mem _ hb)
    by_cases hskipped : e.fate = .skipped
    · have hsame : l.settle digest host o e = l := by rw [Ledger.settle, hskipped]
      have hrest := hex.2
      rw [hsame] at hrest
      obtain ⟨hfates, hfiles⟩ := ih hready hrest hrooms hfrees hothers
      refine ⟨List.forall_mem_cons.2 ⟨.inl hskipped, hfates⟩, ?_⟩
      rw [written, List.filter_cons_of_neg (by simp [hskipped]), ← written, ← hfiles]
      exact congrArg (fun l : Ledger => (l.after digest host o h).tree.files) hsame
    · obtain ⟨hwritten, hready', hone⟩ := settle_of_room hcarve hdry hcalm hready hex.1 hskipped
        (hroom hskipped) (hfree hskipped)
      -- A later chunk of the same name has the same content, and so it is skipped.
      have hfrees' : ∀ m ∈ h, m.fate ≠ .skipped →
          (l.settle digest host o e).tree.isFile (place ++ [m.name]) = false := by
        intro m hm hnew
        have hold := hfrees m hm hnew
        have hne : m.name ≠ e.name := fun hname => by
          obtain ⟨before, behind, rfl⟩ := List.append_of_mem hm
          have hsame := hdistinct e List.mem_cons_self m (List.mem_cons_of_mem _ hm) hname.symm
          rw [← List.cons_append] at hex
          exact hnew ((Ledger.skipped_iff hcarve hex).2 (.inr ⟨e, List.mem_cons_self, hsame⟩))
        rw [← Bool.not_eq_true, FileTree.isFile_iff] at hold ⊢
        rw [hone, List.map_append, List.mem_append, not_or]
        exact ⟨hold, by simpa using hne⟩
      obtain ⟨hfates, hfiles⟩ := ih hready' hex.2 hrooms hfrees' hothers
      refine ⟨List.forall_mem_cons.2 ⟨.inr hwritten, hfates⟩, ?_⟩
      rw [written, List.filter_cons_of_pos (by simp [hwritten]), ← written, List.map_cons,
        List.append_cons, ← hone]
      exact hfiles

end Room

section Blob

variable {digest : List UInt8 → List UInt8} {host : Host} {arguments : List OsText} {o : Options}
  {t made : FileTree} {l : Ledger} {path : OsText} {place : Location} {data : Array UInt8}

/-- The chunks of a blob that are not skipped are the first ones of their contents. -/
theorem map_finding_unskipped {h : List Carved} (hcarve : o.carve)
    (hex : l.Explains digest host o h) (hseen : l.seen = []) (hof : ∀ e ∈ h, e.Of path data)
    (hdigest : ∀ a ∈ h, ∀ b ∈ h, digest a.content = digest b.content → a.content = b.content) :
    (h.filter (·.fate ≠ .skipped)).map Carved.finding = firsts data (h.map Carved.finding) := by
  have hany : h.filter (digest ·.content ∉ l.seen) = h :=
    List.filter_eq_self.2 fun _ _ => by simp [hseen]
  rw [Ledger.unskipped_eq hcarve hex, hany]
  refine map_eraseDupsBy _ fun a ha b hb => ?_
  rw [← (hof a ha).content_eq, ← (hof b hb).content_eq, decide_eq_decide]
  exact ⟨hdigest a ha b hb, congrArg digest⟩

/-- A run that carves one blob, with room for all of its files, on a system that hinders no write,
and with digests that tell their contents apart. -/
structure CarvesFreely (digest : List UInt8 → List UInt8) (host : Host) (o : Options) (t : FileTree)
    (path : OsText) (data : Array UInt8) (made : FileTree) (place : Location) : Prop where
  input : o.input = .file path
  carve : o.carve
  dry : o.dryRun = false
  read : host.readFile t path = .ok data
  makes : t.makeDirectories o.output none = (made, some place)
  calm : ∀ n, host.hindrance? n = none
  room : ∀ f ∈ scanned o.scanConfig data,
    HasRoom o.output made place (ofString (chunkFileName (blobName path) f))
  distinct : ∀ f ∈ scanned o.scanConfig data, ∀ g ∈ scanned o.scanConfig data,
    digest (f.chunk.slice data) = digest (g.chunk.slice data) →
      f.chunk.slice data = g.chunk.slice data

namespace CarvesFreely

variable {e : Carved} (hc : CarvesFreely digest host o t path data made place)
include hc

theorem carvings_eq : carvings digest host o t
    = Ledger.trail digest host o ⟨t, []⟩ path data (scanned o.scanConfig data) :=
  carvings_file hc.input hc.read

theorem of_mem (he : e ∈ carvings digest host o t) : e.Of path data :=
  of_mem_trail (hc.carvings_eq ▸ he)

theorem map_finding :
    (carvings digest host o t).map Carved.finding = scanned o.scanConfig data := by
  rw [hc.carvings_eq, map_finding_trail]

theorem mem_scanned (he : e ∈ carvings digest host o t) : e.finding ∈ scanned o.scanConfig data :=
  hc.map_finding ▸ List.mem_map_of_mem he

theorem hasRoom (he : e ∈ carvings digest host o t) : HasRoom o.output made place e.name := by
  rw [(hc.of_mem he).name_eq]
  exact hc.room _ (hc.mem_scanned he)

theorem settled : (∀ e ∈ carvings digest host o t, e.fate = .skipped ∨ e.fate = .written)
    ∧ (Ledger.after digest host o ⟨t, []⟩ (carvings digest host o t)).tree.files
      = t.files ++ (written (carvings digest host o t)).map fun e =>
        (place ++ [e.name], e.content.toArray) := by
  have hfiles := FileTree.makeDirectories_files t o.output none
  rw [hc.makes] at hfiles
  refine written_of_room hc.carve hc.dry hc.calm (isReady_of_makeDirectories hc.makes)
    (explains_carvings digest host o t) (fun e he _ => hc.hasRoom he) (fun e he _ => ?_)
    fun a ha b hb hname => ?_
  · have hvacant := (Bool.or_eq_false_iff.1 (hc.hasRoom he).vacant).1
    rwa [FileTree.isFile, FileTree.content?_of_files_eq hfiles] at hvacant
  · rw [(hc.of_mem ha).content_eq_of_name (hc.of_mem hb) hname]

/-- No write fails. -/
theorem written_eq : written (carvings digest host o t)
    = (carvings digest host o t).filter (·.fate ≠ .skipped) := by
  refine List.filter_congr fun e he => ?_
  rcases hc.settled.1 e he with hfate | hfate <;> simp [hfate]

theorem map_finding_written : (written (carvings digest host o t)).map Carved.finding
    = firsts data (scanned o.scanConfig data) := by
  rw [hc.written_eq, map_finding_unskipped hc.carve (explains_carvings digest host o t) rfl
    (fun _ he => hc.of_mem he) fun a ha b hb => ?_, hc.map_finding]
  rw [(hc.of_mem ha).content_eq, (hc.of_mem hb).content_eq]
  exact hc.distinct _ (hc.mem_scanned ha) _ (hc.mem_scanned hb)

theorem of_mem_written (he : e ∈ written (carvings digest host o t)) : e.Of path data :=
  hc.of_mem (mem_written.1 he).1

theorem nodup_names : ((firsts data (scanned o.scanConfig data)).map fun f =>
    ofString (chunkFileName (blobName path) f)).Nodup := by
  have hnodup := nodup_names_of_blob hc.carve (explains_carvings digest host o t)
    fun _ he => hc.of_mem he
  rw [← hc.written_eq, List.map_congr_left fun e he => (hc.of_mem_written he).name_eq] at hnodup
  rwa [← hc.map_finding_written, List.map_map]

theorem files_eq (hparse : Options.parse arguments = .ok o) :
    (runWith digest host arguments t).tree.files = t.files
      ++ (firsts data (scanned o.scanConfig data)).map fun f =>
        (place ++ [ofString (chunkFileName (blobName path) f)], (f.chunk.slice data).toArray) := by
  rw [tree_runWith digest host t hparse, hc.settled.2, ← hc.map_finding_written, List.map_map]
  refine congrArg _ (List.map_congr_left fun e he => ?_)
  rw [Function.comp_apply, (hc.of_mem_written he).name_eq, (hc.of_mem_written he).content_eq]

theorem listed (hparse : Options.parse arguments = .ok o) :
    (runWith digest host arguments t).entries.filter (·.topic = .listing)
      = (scanned o.scanConfig data).map fun f => (Report.found path f).entry := by
  rw [listed_runWith digest host t hparse, ← hc.map_finding, List.map_map]
  refine List.map_congr_left fun e he => ?_
  rw [Function.comp_apply, (hc.of_mem he).path_eq]

theorem wrote (hparse : Options.parse arguments = .ok o) :
    (runWith digest host arguments t).entries.filter (·.topic = .wrote)
      = (firsts data (scanned o.scanConfig data)).map fun f =>
        (Report.wrote (joinPath o.output
          (ofString (chunkFileName (blobName path) f)))).entry := by
  rw [wrote_runWith digest host t hparse, ← hc.map_finding_written, List.map_map]
  refine List.map_congr_left fun e he => ?_
  rw [Function.comp_apply, (hc.of_mem_written he).target_eq]

theorem failures (hparse : Options.parse arguments = .ok o) :
    (runWith digest host arguments t).entries.filter (·.topic = .failure) = [] := by
  rw [failures_runWith digest host t hparse, List.flatMap_eq_nil_iff]
  intro e he
  rcases hc.settled.1 e he with hfate | hfate <;> rw [Carved.failures, hfate]

end CarvesFreely

/-- A run carves a blob into one file for each content that a finding has. The files are new, are
named after the first findings of their contents and hold the bytes of these. Every finding is
listed in the order of the scan, all files are told of in their order, and no write fails; if no
path holds a newline, each of these texts takes one line. The digests are assumed to tell the
contents of the findings apart, and the system to let the blob be read, to have room for the files
and to hinder no write. -/
theorem carved_blob (digest : List UInt8 → List UInt8) (host : Host)
    (hparse : Options.parse arguments = .ok o) (hinput : o.input = .file path) (hcarve : o.carve)
    (hdry : o.dryRun = false) (hread : host.readFile t path = .ok data)
    (hmade : t.makeDirectories o.output none = (made, some place))
    (hcalm : ∀ n, host.hindrance? n = none)
    (hroom : ∀ f ∈ scanned o.scanConfig data,
      HasRoom o.output made place (ofString (chunkFileName (blobName path) f)))
    (hdigest : ∀ f ∈ scanned o.scanConfig data, ∀ g ∈ scanned o.scanConfig data,
      digest (f.chunk.slice data) = digest (g.chunk.slice data) →
        f.chunk.slice data = g.chunk.slice data) :
    let found := scanned o.scanConfig data
    let fileName := fun f => ofString (chunkFileName (blobName path) f)
    let outcome := runWith digest host arguments t
    scan o.scanConfig data = .ok found
    ∧ outcome.tree.files = t.files ++ (firsts data found).map
        (fun f => (place ++ [fileName f], (f.chunk.slice data).toArray))
    ∧ ((firsts data found).map fileName).Nodup
    ∧ outcome.entries.filter (·.topic = .listing) = found.map (fun f => ⟨none, path.shown
        ++ s!"\t{f.format.name}\t{f.chunk.render}\t{f.chunk.size} bytes"⟩)
    ∧ outcome.entries.filter (·.topic = .wrote) = (firsts data found).map
        (fun f => ⟨none, "Wrote " ++ (joinPath o.output (fileName f)).shown⟩)
    ∧ outcome.entries.filter (·.topic = .failure) = []
    ∧ (newline ∉ path → newline ∉ o.output → outcome.lines = outcome.entries) := by
  have hc : CarvesFreely digest host o t path data made place :=
    ⟨hinput, hcarve, hdry, hread, hmade, hcalm, hroom, hdigest⟩
  refine ⟨scan_eq _ _, hc.files_eq hparse, hc.nodup_names, ?_, hc.wrote hparse,
    hc.failures hparse, fun hpath houtput => ?_⟩
  · refine (hc.listed hparse).trans (List.map_congr_left fun f _ => ?_)
    rw [Report.entry, text_found]
    rfl
  · exact lines_runWith digest host t hparse (.of_file hinput hpath houtput)

end Blob

def carveArchives : Options := ⟨.file "fw.bin", ".", 0, [.lzh], 0, true, false, false, false⟩

theorem parse_carveArchives :
    Options.parse ["-f", "fw.bin", "--format", "lzh", "--carve"] = .ok carveArchives := by rfl

/-- Two archives of the same bytes and one of others. -/
def threeArchives : Array UInt8 :=
  archive [0x68, 0x69] ++ archive [0x68, 0x69] ++ archive [0x68, 0x6F]

theorem scanned_threeArchives : scanned ⟨[.lzh], 0, 1⟩ threeArchives
    = [⟨.lzh, ⟨0, 23, by decide⟩⟩, ⟨.lzh, ⟨23, 46, by decide⟩⟩, ⟨.lzh, ⟨46, 69, by decide⟩⟩] :=
  scanned_archives [⟨0, 23, by decide⟩, ⟨23, 46, by decide⟩, ⟨46, 69, by decide⟩]
    (by rw [candidates_eq_filter]; decide +kernel) (by decide)

/-- The place of a name in the only directory of a tree. -/
def atWork (name : OsText) : Location := ["work", name]

/-- A directory with one file in it. -/
def workplace (name : OsText) (content : Array UInt8) : FileTree :=
  ⟨[(atWork name, content)], [["work"]], ["work"], []⟩

/-- The second archive is not written again. -/
theorem carved_blob_archives :
    let t := workplace "fw.bin" threeArchives
    let outcome := run ["-f", "fw.bin", "--format", "lzh", "--carve"] t
    outcome.tree.files = [(atWork "fw.bin", threeArchives),
        (atWork "fw.bin_0-23.lzh", archive [0x68, 0x69]),
        (atWork "fw.bin_46-69.lzh", archive [0x68, 0x6F])]
      ∧ outcome.lines.filter (·.topic = .wrote)
        = [⟨none, "Wrote ./fw.bin_0-23.lzh"⟩, ⟨none, "Wrote ./fw.bin_46-69.lzh"⟩] := by
  intro t outcome
  have hroom : ∀ f ∈ scanned ⟨[.lzh], 0, 1⟩ threeArchives,
      HasRoom "." t ["work"] (ofString (chunkFileName (blobName "fw.bin") f)) := by
    rw [scanned_threeArchives]
    decide
  have hread : Host.calm.readFile t "fw.bin" = .ok threeArchives := by rfl
  have hmade : t.makeDirectories "." none = (t, some (["work"] : Location)) := by rfl
  obtain ⟨-, hfiles, -, -, hwrote, -, hlines⟩ := carved_blob (fun content => content) .calm
    parse_carveArchives rfl rfl rfl hread hmade (fun _ => rfl) hroom fun _ _ _ _ h => h
  have hfirsts : firsts threeArchives (scanned ⟨[.lzh], 0, 1⟩ threeArchives)
      = [⟨.lzh, ⟨0, 23, by decide⟩⟩, ⟨.lzh, ⟨46, 69, by decide⟩⟩] := by
    rw [scanned_threeArchives]
    decide
  change outcome.tree.files = t.files ++ (firsts _ (scanned ⟨[.lzh], 0, 1⟩ _)).map _ at hfiles
  change outcome.entries.filter _ = (firsts _ (scanned ⟨[.lzh], 0, 1⟩ _)).map _ at hwrote
  replace hlines : outcome.lines = outcome.entries := hlines (by decide) (by decide)
  rw [hfiles, hlines, hwrote, hfirsts]
  exact ⟨by decide, by decide⟩

/-- The finding of a scan of an archive of two bytes. -/
def wholeArchive : Finding := ⟨.lzh, ⟨0, 23, by decide⟩⟩

theorem scanned_archive :
    scanned ⟨[.lzh], 0, 1⟩ (archive [0x68, 0x69]) = [wholeArchive] :=
  scanned_archives [⟨0, 23, by decide⟩]
    (by rw [candidates_eq_filter]; decide +kernel) (by decide)

section Single

variable (digest : List UInt8 → List UInt8) {host : Host} {arguments : List OsText} {o : Options}
  {t : FileTree} {path : OsText} {data : Array UInt8} {f : Finding}

/-- If the only chunk of a blob cannot be written, no file is. -/
theorem files_of_single {u : FileTree} {cause : WriteError}
    (hparse : Options.parse arguments = .ok o) (hinput : o.input = .file path)
    (hread : host.readFile t path = .ok data) (hfound : scanned o.scanConfig data = [f])
    (hwrite : writeFile t o.force o.output (ofString (chunkFileName (blobName path) f))
      (f.chunk.slice data).toArray (host.hindrance? 0) = (u, some cause))
    (hfiles : u.files = t.files) : (runWith digest host arguments t).tree.files = t.files
      ∧ (runWith digest host arguments t).entries.filter (·.topic = .wrote) = [] := by
  let l : Ledger := ⟨t, []⟩
  let e := l.carved digest host o path data f
  have hchunks : carvings digest host o t = [e] := by
    rw [carvings_file hinput hread, hfound, Ledger.trail, Ledger.trail]
  have hfate : e.fate = l.fate digest host o e.name e.content := rfl
  have hput : l.write host o e.name e.content = (u, some cause) := hwrite
  have hnone : written [e] = [] := written_eq_nil fun h => by
    obtain ⟨-, -, -, hnone⟩ :=
      Ledger.fate_eq_written.1 (hfate.symm.trans (List.mem_singleton.1 h).symm)
    rw [hput] at hnone
    cases hnone
  rw [wrote_runWith digest host t hparse, tree_runWith digest host t hparse, hchunks, hnone]
  refine ⟨?_, rfl⟩
  change (l.settle digest host o e).tree.files = t.files
  unfold Ledger.settle
  cases e.fate with
  | written | failed => simp only [hput, hfiles]
  | _ => rfl

/-- A write fails and leaves all files as they are if its place is not open or the name is long. -/
theorem writeFile_of_barred {force : Bool} {directory name : OsText} {content : Array UInt8}
    {hindrance : Option Hindrance}
    (hbarred : ∀ u l, t.makeDirectories directory none = (u, some l) →
      IsOpen u force (u.behind (l ++ [name])) → maxNameSize < name.length) :
    ∃ u cause, writeFile t force directory name content hindrance = (u, some cause)
      ∧ u.files = t.files := by
  rcases hwrite : writeFile t force directory name content hindrance with ⟨w, failure⟩
  obtain ⟨cause, rfl, -, rfl⟩ | ⟨u, l, -, hmade, hopen, hname, -⟩ := writeFile_cases hwrite
  · refine ⟨_, cause, rfl, ?_⟩
    exact FileTree.makeDirectories_files _ _ _
  · exact absurd hname (Nat.not_le.2 (hbarred u l hmade hopen))

end Single

/-- The options of a run that carves the archives of a file. -/
def carveFile (path output : OsText) : Options :=
  ⟨.file path, output, 0, [.lzh], 0, true, false, false, false⟩

/-- Nothing is at the path of the file for an archive, and its directory can be made. -/
def IsVacant (t : FileTree) (path output : OsText) : Prop :=
  t.locate? (joinPath output (ofString (chunkFileName (blobName path) wholeArchive))) = none
    ∧ (t.makeDirectories output none).2.isSome

/-- A run carves nothing. -/
def Outcome.CarvesNothing (outcome : Outcome) (t : FileTree) : Prop :=
  outcome.tree.files = t.files ∧ outcome.entries.filter (·.topic = .wrote) = []

/-- A file name that leaves little room for a longer one. -/
def longName : OsText := List.replicate 250 0x61

theorem ofString_replicate (n : Nat) :
    ofString (String.ofList (List.replicate n 'a')) = List.replicate n 0x61 := by
  have hone : String.utf8EncodeChar 'a' = [0x61] := by decide
  rw [ofString, String.toList_ofList, List.flatMap_replicate, hone,
    List.flatten_replicate_singleton]

theorem long_chunkFileName :
    maxNameSize < (ofString (chunkFileName (blobName longName) wholeArchive)).length := by
  have hname : fileName? longName = some (ofString (String.ofList (List.replicate 250 'a'))) := by
    rw [ofString_replicate]
    decide +kernel
  have hfile (name : String) : chunkFileName name wholeArchive = name ++ "_0-23.lzh" := by
    simp only [← String.toList_inj, toList_chunkFileName, String.toList_append]
    rfl
  rw [blobName_of_fileName? hname, hfile, OsText.ofString_append, ofString_replicate]
  decide +kernel

/-- An archive whose own name leaves no room for that of a chunk in it is not carved. -/
theorem archive_of_long_name {name : OsText}
    (hparse : Options.parse ["-f", name, "--format", "lzh", "--carve"] = .ok (carveFile name "."))
    (hread : Host.calm.readFile (workplace name (archive [0x68, 0x69])) name
      = .ok (archive [0x68, 0x69]))
    (hlong : maxNameSize < (ofString (chunkFileName (blobName name) wholeArchive)).length) :
    let t := workplace name (archive [0x68, 0x69])
    IsVacant t name "." ∧ (run ["-f", name, "--format", "lzh", "--carve"] t).CarvesNothing t := by
  intro t
  have hslash : slash ∉ ofString (chunkFileName (blobName name) wholeArchive) := fun h =>
    not_mem_blobName (show slash ∈ _ by decide) (fun hne => absurd rfl hne)
      (mem_of_mem_chunkFileName (by decide) h)
  have hnothing : t.locate? (joinPath "."
      (ofString (chunkFileName (blobName name) wholeArchive))) = none :=
    Option.eq_none_iff_forall_ne_some.2 fun l h =>
      FileTree.locate_long t "." hslash hlong l (FileTree.locate?_eq_some.1 h)
  obtain ⟨u, cause, hwrite, hfiles⟩ := writeFile_of_barred fun _ _ _ _ => hlong
  exact ⟨⟨hnothing, rfl⟩, files_of_single _ hparse rfl hread scanned_archive hwrite hfiles⟩

/-- An archive is not carved if the path leads to another file once a directory on the way has been
made. -/
theorem archive_behind_directory :
    let t : FileTree := ⟨[(atWork "fw.bin", archive [0x68, 0x69]),
      (["work", "old", "fw.bin_0-23.lzh"], #[0])], [["work"], ["work", "old"]], ["work"], []⟩
    IsVacant t "fw.bin" "new/../old" ∧ (run ["-f", "fw.bin", "--format", "lzh", "--carve", "-o",
      "new/../old"] t).CarvesNothing t := by
  intro t
  have hparse : Options.parse ["-f", "fw.bin", "--format", "lzh", "--carve", "-o", "new/../old"]
      = .ok (carveFile "fw.bin" "new/../old") := by rfl
  have hread : Host.calm.readFile t "fw.bin" = .ok (archive [0x68, 0x69]) := by rfl
  have hbarred (u : FileTree) (l : Location)
      (hmade : t.makeDirectories "new/../old" none = (u, some l))
      (hopen : IsOpen u false (u.behind (l ++ [ofString (chunkFileName (blobName "fw.bin")
        wholeArchive)]))) :
      maxNameSize < (ofString (chunkFileName (blobName "fw.bin") wholeArchive)).length := by
    cases hmade
    exact absurd (hopen.free (by decide)) (by decide)
  obtain ⟨u, cause, hwrite, hfiles⟩ := writeFile_of_barred hbarred
  exact ⟨⟨by decide, by decide⟩, files_of_single _ hparse rfl hread scanned_archive hwrite hfiles⟩

/-- A system on which no file can be made. -/
def Host.barring : Host := { Host.calm with hindrance? := fun _ => some .file }

theorem archive_not_permitted :
    let t := workplace "fw.bin" (archive [0x68, 0x69])
    IsVacant t "fw.bin" "." ∧ (runWith (fun content => content) .barring
      ["-f", "fw.bin", "--format", "lzh", "--carve"] t).CarvesNothing t := by
  intro t
  have hread : Host.barring.readFile t "fw.bin" = .ok (archive [0x68, 0x69]) := by rfl
  exact ⟨⟨by decide, by decide⟩, files_of_single _ parse_carveArchives rfl hread
    scanned_archive rfl rfl⟩

/-- A run carves an archive freely if there is room for its file beside it. -/
theorem carvesFreely_archive {path : OsText} (hread : Host.calm.readFile
      (workplace path (archive [0x68, 0x69])) path = .ok (archive [0x68, 0x69]))
    (hroom : HasRoom "." (workplace path (archive [0x68, 0x69])) ["work"]
      (ofString (chunkFileName (blobName path) wholeArchive))) :
    CarvesFreely (fun content => content) .calm (carveFile path ".")
      (workplace path (archive [0x68, 0x69])) path (archive [0x68, 0x69])
      (workplace path (archive [0x68, 0x69])) ["work"] where
  input := rfl
  carve := rfl
  dry := rfl
  read := hread
  makes := rfl
  calm _ := rfl
  room f hf := by
    rw [show scanned (carveFile path ".").scanConfig _ = _ from scanned_archive] at hf
    rwa [List.mem_singleton.1 hf]
  distinct _ _ _ _ := id

/-- The files of an archive whose name is not a string are named otherwise. -/
theorem archive_of_nameless :
    let name : OsText := [0xFF, 0x2E, 0x62, 0x69, 0x6E]
    let t := workplace name (archive [0x68, 0x69])
    IsVacant t name "." ∧ (run ["-f", name, "--format", "lzh", "--carve"] t).tree.files
      = t.files ++ [(atWork "blob_0-23.lzh", archive [0x68, 0x69])] := by
  intro name t
  have hparse : Options.parse ["-f", name, "--format", "lzh", "--carve"]
      = .ok (carveFile name ".") := by rfl
  have hread : Host.calm.readFile t name = .ok (archive [0x68, 0x69]) := by rfl
  have hfiles := (carvesFreely_archive hread (by decide)).files_eq hparse
  rw [show scanned (carveFile name ".").scanConfig _ = _ from scanned_archive] at hfiles
  exact ⟨⟨by decide, by decide⟩, hfiles⟩

/-- The texts that are printed of an archive whose name holds a newline take two lines each. -/
theorem archive_of_two_lines :
    let t := workplace "fw\n.bin" (archive [0x68, 0x69])
    IsVacant t "fw\n.bin" "." ∧ (run ["-f", "fw\n.bin", "--format", "lzh", "--carve"] t).results
      = ["fw", ".bin\tlzh\t0x0-0x17\t23 bytes", "Wrote ./fw", ".bin_0-23.lzh"] := by
  intro t
  have hparse : Options.parse ["-f", "fw\n.bin", "--format", "lzh", "--carve"]
      = .ok (carveFile "fw\n.bin" ".") := by rfl
  have hread : Host.calm.readFile t "fw\n.bin" = .ok (archive [0x68, 0x69]) := by rfl
  have hreports := (runWith_file (fun content => content) hparse rfl hread).2
  rw [carvings_file (o := carveFile "fw\n.bin" ".") rfl hread,
    show scanned (carveFile "fw\n.bin" ".").scanConfig _ = _ from scanned_archive] at hreports
  refine ⟨⟨by decide, by decide⟩, ?_⟩
  rw [run, Outcome.results, Outcome.lines, Outcome.entries, hreports]
  decide
/-- Although nothing is at its path before the run, and the output directory can be made, an archive
can fail to be written: for want of a short name, for a directory that is made on the way, or for
want of a permission. Another is written under a name that is not made of its own, and another is
listed in a text that is no line. -/
theorem carved_blob_fails :
    let name : OsText := [0xFF, 0x2E, 0x62, 0x69, 0x6E]
    let t (name : OsText) := workplace name (archive [0x68, 0x69])
    let t' : FileTree := ⟨[(atWork "fw.bin", archive [0x68, 0x69]),
      (["work", "old", "fw.bin_0-23.lzh"], #[0])], [["work"], ["work", "old"]], ["work"], []⟩
    scan ⟨[.lzh], 0, 1⟩ (archive [0x68, 0x69]) = .ok [wholeArchive]
    ∧ (IsVacant (t longName) longName "." ∧ (run ["-f", longName, "--format", "lzh", "--carve"]
      (t longName)).CarvesNothing (t longName))
    ∧ (IsVacant t' "fw.bin" "new/../old" ∧ (run ["-f", "fw.bin", "--format", "lzh", "--carve", "-o",
      "new/../old"] t').CarvesNothing t')
    ∧ (IsVacant (t "fw.bin") "fw.bin" "." ∧ (runWith (fun content => content) .barring
      ["-f", "fw.bin", "--format", "lzh", "--carve"] (t "fw.bin")).CarvesNothing (t "fw.bin"))
    ∧ (IsVacant (t name) name "." ∧ (run ["-f", name, "--format", "lzh", "--carve"]
      (t name)).tree.files = (t name).files ++ [(atWork "blob_0-23.lzh", archive [0x68, 0x69])])
    ∧ (IsVacant (t "fw\n.bin") "fw\n.bin" "." ∧ (run ["-f", "fw\n.bin", "--format", "lzh",
      "--carve"] (t "fw\n.bin")).results
        = ["fw", ".bin\tlzh\t0x0-0x17\t23 bytes", "Wrote ./fw", ".bin_0-23.lzh"]) := by
  refine ⟨(scan_eq _ _).trans (congrArg _ scanned_archive), ?_, archive_behind_directory,
    archive_not_permitted, archive_of_nameless, archive_of_two_lines⟩
  exact archive_of_long_name rfl (by decide +kernel) long_chunkFileName

end Console

end Carving
