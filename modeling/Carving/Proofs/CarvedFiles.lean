import Carving.Proofs.Duplicates
import Carving.Proofs.SoundTrees

/-!
# What the carved files hold

All files that a run writes lie in one directory, each under the name of its chunk, or where a link
of that name leads. Blobs of one name below different directories can have chunks of one name, so
with leave to overwrite the file of a chunk can be lost to a later one (`carved_files_fails`).
Whatever is overwritten, and whatever the system hinders, the file at each path that a run reports
holds the bytes of its chunk unless a later chunk went to the same place, and no other file is
changed (`carved_files`). Without leave to overwrite no two chunks go to one place, and neither do
they in a run on a single file, unless links lead them there.
-/

namespace Carving.Console

/-- The chunks whose writes put something where their files go. -/
def touched (h : List Carved) : List Carved := h.filter (·.fate.touches)

/-- No link is where a file for one of the chunks goes. -/
def Unlinked (o : Options) (t : FileTree) (h : List Carved) : Prop :=
  ∀ e ∈ h, t.link? (t.place o.output ++ [e.name]) = none

section Places

variable {digest : List UInt8 → List UInt8} {host : Host} {o : Options} {l : Ledger} {t : FileTree}
  {h before behind : List Carved} {e : Carved} {p : Location}

theorem mem_touched : e ∈ touched h ↔ e ∈ h ∧ e.fate.touches := List.mem_filter

theorem touched_append_cons (htouches : e.fate.touches) :
    touched (before ++ e :: behind) = touched before ++ e :: touched behind := by
  rw [touched, List.filter_append, List.filter_cons_of_pos (by simpa using htouches), touched,
    touched]

theorem touches_of_written (h : e.fate = .written) : e.fate.touches := by
  rw [h]
  rfl

/-- A file is there behind some chunks if it was there before or one of them put it there. -/
theorem isFile_after_iff (hex : l.Explains digest host o h) :
    (l.after digest host o h).tree.isFile p
      ↔ l.tree.isFile p ∨ p ∈ (touched h).map (Carved.place o l.tree) := by
  by_cases hp : p ∈ (touched h).map (Carved.place o l.tree)
  · obtain ⟨e, he, rfl⟩ := List.mem_map.1 hp
    obtain ⟨hmem, htouches⟩ := mem_touched.1 he
    obtain ⟨before, behind, rfl⟩ := List.append_of_mem hmem
    simp only [Ledger.isFile_place_after hex htouches, hp, or_true]
  · have hsame := Ledger.content_after_of_untouched hex fun e he htouches heq =>
      hp (List.mem_map.2 ⟨e, mem_touched.2 ⟨he, htouches⟩, heq⟩)
    simp only [FileTree.isFile, hsame, hp, or_false]

/-- Without leave to overwrite all chunks go to places of their own. -/
theorem nodup_places_of_unforced (hforce : o.force = false) (hex : l.Explains digest host o h) :
    ((touched h).map (Carved.place o l.tree)).Nodup :=
  List.pairwise_map.2 (Ledger.pairwise_places hforce hex)

/-- The chunks that a run on a single file writes go to places of their own, unless links lead them
elsewhere. -/
theorem nodup_places_of_file {path : OsText} (hcarve : o.carve) (hinput : o.input = .file path)
    (hlinks : Unlinked o t (carvings digest host o t)) :
    ((touched (carvings digest host o t)).map (Carved.place o t)).Nodup := by
  have hof : ∃ data, ∀ e ∈ carvings digest host o t, e.Of path data := by
    rcases hread : host.readFile t path with cause | data
    · refine ⟨#[], fun e he => ?_⟩
      have hnone : carvings digest host o t = [] := by
        simp only [carvings, Options.blobs, hinput]
        split <;> simp only [Ledger.history, Ledger.carvedIn, hread, List.append_nil]
      rw [hnone] at he
      cases he
    · exact ⟨data, fun e he => of_mem_trail (carvings_file hinput hread ▸ he)⟩
  obtain ⟨data, hof⟩ := hof
  have hnames := nodup_names_of_blob hcarve (explains_carvings digest host o t) hof
  have hsub : (touched (carvings digest host o t)).Sublist
      ((carvings digest host o t).filter (·.fate ≠ .skipped)) :=
    List.monotone_filter_right _ fun e htouches => by
      rw [decide_eq_true_eq]
      rintro hskipped
      rw [hskipped] at htouches
      cases htouches
  refine List.pairwise_map.2 ((List.pairwise_map.1 (hnames.sublist (hsub.map _))).imp_of_mem
    fun ha hb hne heq => hne ?_)
  rw [Carved.place, Carved.place,
    FileTree.behind_of_link?_eq_none (hlinks _ (mem_touched.1 ha).1),
    FileTree.behind_of_link?_eq_none (hlinks _ (mem_touched.1 hb).1)] at heq
  exact List.singleton_inj.1 (List.append_cancel_left heq)

end Places

section Run

variable {arguments : List OsText} {o : Options} {t : FileTree}

/-- A run that carves chunks tells of each file that it writes, and of each that it fails to write,
be it that a part of it is left. The path of each such file leads to it, and no other file is made
or changed. The file at a path that is told to be written holds the bytes of the chunk that this was
told of, unless a later chunk went to the same place. No two chunks do so if the run has no leave to
overwrite, or scans a single file and meets no links where its files go. -/
theorem carved_files (digest : List UInt8 → List UInt8) (host : Host)
    (hparse : Options.parse arguments = .ok o) (hcarve : o.carve) (ht : t.IsNavigable) :
    let h := carvings digest host o t
    let outcome := runWith digest host arguments t
    outcome.entries.filter (·.topic = .wrote)
      = (written h).map (fun e => ⟨none, "Wrote " ++ (e.target o).shown⟩)
    ∧ outcome.entries.filter (·.topic = .failure) = h.flatMap (Carved.failures o)
    ∧ (∀ e ∈ touched h, outcome.tree.locate (e.target o) = .ok (e.place o t))
    ∧ (∀ place, outcome.tree.isFile place
        ↔ t.isFile place ∨ place ∈ (touched h).map (Carved.place o t))
    ∧ (∀ place ∉ (touched h).map (Carved.place o t),
        outcome.tree.content? place = t.content? place)
    ∧ (∀ before e behind, h = before ++ e :: behind → e.fate = .written →
        e.place o t ∉ (touched behind).map (Carved.place o t) →
          outcome.tree.readFile (e.target o) = .ok e.content.toArray)
    ∧ (o.force = false ∨ (∃ path, o.input = .file path) ∧ Unlinked o t h →
        ((touched h).map (Carved.place o t)).Nodup
        ∧ ∀ e ∈ written h, outcome.tree.readFile (e.target o) = .ok e.content.toArray)
    ∧ (Options.ShowsLines digest host o t → outcome.lines = outcome.entries) := by
  intro h outcome
  have hex : Ledger.Explains digest host o ⟨t, []⟩ h := explains_carvings digest host o t
  have htree : outcome.tree = _ := tree_runWith digest host t hparse
  have hlocate : ∀ e ∈ touched h, outcome.tree.locate (e.target o) = .ok (e.place o t) := by
    intro e he
    obtain ⟨hmem, htouches⟩ := mem_touched.1 he
    obtain ⟨before, behind, hsplit⟩ := List.append_of_mem hmem
    rw [hsplit] at hex
    have hname := isProper_of_mem_carvings hmem (hex.puts htouches).name_short
    rw [htree, show carvings digest host o t = _ from hsplit]
    exact Ledger.locate_target hex ht htouches hname
  have hread : ∀ before e behind, h = before ++ e :: behind → e.fate = .written →
      e.place o t ∉ (touched behind).map (Carved.place o t) →
        outcome.tree.readFile (e.target o) = .ok e.content.toArray := by
    intro before e behind hsplit hwritten hlast
    have he : e ∈ touched h :=
      mem_touched.2 ⟨by rw [hsplit]; simp, touches_of_written hwritten⟩
    refine FileTree.readFile_eq_ok.2 ⟨_, hlocate e he, ?_⟩
    rw [hsplit] at hex
    rw [htree, show carvings digest host o t = _ from hsplit]
    exact Ledger.content_after_last hex hwritten fun m hm htouches heq =>
      hlast (List.mem_map.2 ⟨m, mem_touched.2 ⟨hm, htouches⟩, heq⟩)
  refine ⟨wrote_runWith digest host t hparse, failures_runWith digest host t hparse, hlocate,
    fun place => ?_, fun place hplace => ?_, hread, fun hapart => ?_,
    lines_runWith digest host t hparse⟩
  · rw [htree]
    exact isFile_after_iff (l := ⟨t, []⟩) hex
  · rw [htree]
    exact Ledger.content_after_of_untouched hex fun e he htouches heq =>
      hplace (List.mem_map.2 ⟨e, mem_touched.2 ⟨he, htouches⟩, heq⟩)
  · have hnodup : ((touched h).map (Carved.place o t)).Nodup := by
      rcases hapart with hforce | ⟨⟨path, hinput⟩, hlinks⟩
      · exact nodup_places_of_unforced (l := ⟨t, []⟩) hforce hex
      · exact nodup_places_of_file hcarve hinput hlinks
    refine ⟨hnodup, fun e he => ?_⟩
    obtain ⟨hmem, hwritten⟩ := mem_written.1 he
    obtain ⟨before, behind, hsplit⟩ := List.append_of_mem hmem
    refine hread before e behind hsplit hwritten ?_
    rw [hsplit, touched_append_cons (touches_of_written hwritten), List.map_append, List.map_cons,
      List.nodup_append] at hnodup
    exact (List.nodup_cons.1 hnodup.2.1).1

/-- The place of some names below the only directory of a tree. -/
def belowWork (names : List OsText) : Location := "work" :: names

/-- Two files of one name and size below different directories. -/
def namesakes : FileTree where
  files := [(belowWork ["in", "a", "x.bin"], archive [0, 0, 0, 0, 0]),
    (belowWork ["in", "b", "x.bin"], archive [0x41, 0x06, 0x71, 0xDB, 0x01])]
  directories := [["work"], ["work", "in"], ["work", "in", "a"], ["work", "in", "b"]]
  current := ["work"]

/-- The tree behind a run that has carved the first one of them. -/
def oneCarved : FileTree :=
  namesakes.put (atWork "x.bin_0-26.lzh") (archive [0, 0, 0, 0, 0])

def overwriteArchives : Options := ⟨.directory "in", ".", 0, [.lzh], 0, true, false, false, true⟩

theorem parse_overwriteArchives :
    Options.parse ["-d", "in", "--format", "lzh", "--carve", "--force"]
      = .ok overwriteArchives := by rfl

theorem scanned_namesakes : scanned overwriteArchives.scanConfig (archive [0, 0, 0, 0, 0])
      = [⟨.lzh, ⟨0, 26, by decide⟩⟩]
    ∧ scanned overwriteArchives.scanConfig (archive [0x41, 0x06, 0x71, 0xDB, 0x01])
      = [⟨.lzh, ⟨0, 26, by decide⟩⟩] :=
  ⟨scanned_archives [⟨0, 26, by decide⟩] (by rw [candidates_eq_filter]; decide +kernel) (by decide),
    scanned_archives [⟨0, 26, by decide⟩] (by rw [candidates_eq_filter]; decide +kernel)
      (by decide)⟩

/-- The first blob is carved beside the directory, and then the second one is met. -/
theorem blobs_namesakes : overwriteArchives.blobs (fun content => content) .calm namesakes
    = (["in/a/x.bin", "in/b/x.bin"] : List OsText) := by
  let r := (Run.start namesakes).tell (.directoryEntered "in")
  let r' := r.processAmong (fun content => content) .calm overwriteArchives "in/a/x.bin"
  have hvisits : r.Visits _ _ _ _ r' := Run.visits_processAmong _ _ _ r "in/a/x.bin"
  have hread : Host.calm.readFile r.ledger.tree "in/a/x.bin" = .ok (archive [0, 0, 0, 0, 0]) := rfl
  have htree : r'.tree = oneCarved := by
    rw [Run.tree_processAmong_of_read hread, scanned_namesakes.1]
    rfl
  have hfirst : Run.walk (fun content => content) .calm overwriteArchives 4094 r "in/a" = r' :=
    Run.walk_single 4093 (belowWork ["in", "a"]) "x.bin" (show r.tree = namesakes from rfl)
      (by decide) (by decide) (by decide) (by decide) (by decide) (by decide +kernel)
  have hsecond : Run.walk (fun content => content) .calm overwriteArchives 4094 r' "in/b"
      = r'.processAmong (fun content => content) .calm overwriteArchives "in/b/x.bin" :=
    Run.walk_single 4093 (belowWork ["in", "b"]) "x.bin" htree
      (by decide) (by decide) (by decide) (by decide) (by decide) (by decide +kernel)
  have hwalk : Run.walk (fun content => content) .calm overwriteArchives 4095 r "in"
      = Run.walk (fun content => content) .calm overwriteArchives 4094 r' "in/b" := by
    have hlocate : r.tree.locate? "in" = some (belowWork ["in"]) := by decide
    have hnames : Host.calm.names r.tree (belowWork ["in"])
        = [OsText.ofString "a", OsText.ofString "b"] := by decide
    have hdirectory : r.tree.isDirectory (belowWork ["in"] ++ [OsText.ofString "a"]) := by decide
    have hnext : r'.tree.isDirectory (belowWork ["in"] ++ [OsText.ofString "b"]) := by
      rw [htree]
      decide
    have hbelow : joinPath "in" "a" = "in/a" := by decide
    rw [show 4095 = 4094 + 1 from rfl, Run.walk]
    simp only [hlocate, hnames, List.foldl_cons, List.foldl_nil, hdirectory, if_true, hbelow,
      hfirst, hnext]
    rfl
  exact Run.blobs_of_directory rfl (show _ = some (belowWork ["in"]) by decide) (by decide)
    (hwalk.trans hsecond) (hvisits.trans (Run.visits_processAmong _ _ _ r' "in/b/x.bin"))

/-- Both archives are written, and to one path. -/
theorem carvings_namesakes : carvings (fun content => content) .calm overwriteArchives namesakes
    = [⟨"in/a/x.bin", "x.bin_0-26.lzh", ⟨.lzh, ⟨0, 26, by decide⟩⟩,
        (archive [0, 0, 0, 0, 0]).toList, .written⟩,
      ⟨"in/b/x.bin", "x.bin_0-26.lzh", ⟨.lzh, ⟨0, 26, by decide⟩⟩,
        (archive [0x41, 0x06, 0x71, 0xDB, 0x01]).toList, .written⟩] := by
  have hread : Host.calm.readFile namesakes "in/a/x.bin" = .ok (archive [0, 0, 0, 0, 0]) := rfl
  have hnext : Host.calm.readFile oneCarved "in/b/x.bin"
      = .ok (archive [0x41, 0x06, 0x71, 0xDB, 0x01]) := rfl
  rw [carvings, blobs_namesakes, Ledger.history, carvedIn_eq hread, scanned_namesakes.1,
    Ledger.history, carvedIn_eq hnext, scanned_namesakes.2, Ledger.history]
  decide

theorem carved_files_namesakes :
    let outcome := run ["-d", "in", "--format", "lzh", "--carve", "--force"] namesakes
    outcome.lines.filter (·.topic = .wrote)
        = [⟨none, "Wrote ./x.bin_0-26.lzh"⟩, ⟨none, "Wrote ./x.bin_0-26.lzh"⟩]
      ∧ outcome.tree.readFile "./x.bin_0-26.lzh"
        = .ok (archive [0x41, 0x06, 0x71, 0xDB, 0x01])
      ∧ (∀ place, outcome.tree.isFile place
        ↔ namesakes.isFile place ∨ place = atWork "x.bin_0-26.lzh") := by
  intro outcome
  obtain ⟨hwrote, -, -, hfiles, -, hread, -, hlines⟩ := carved_files (fun content => content) .calm
    parse_overwriteArchives rfl (t := namesakes) (by decide)
  rw [carvings_namesakes] at hwrote hread hfiles
  have hplain : Options.ShowsLines (fun content => content) .calm overwriteArchives namesakes := by
    refine ⟨by decide, by decide, ?_⟩
    rw [blobs_namesakes]
    decide
  replace hlines : outcome.lines = outcome.entries := hlines hplain
  refine ⟨hlines ▸ hwrote, hread [_] _ [] rfl rfl (by decide), fun place => ?_⟩
  have hplaces : place ∈ [atWork "x.bin_0-26.lzh", atWork "x.bin_0-26.lzh"]
    ↔ place = atWork "x.bin_0-26.lzh" := by simp
  exact (hfiles place).trans (or_congr_right hplaces)

/-- A chunk that is written with leave to overwrite can be lost to one of another blob. -/
theorem carved_files_fails :
    let h := carvings (fun content => content) .calm overwriteArchives namesakes
    let outcome := run ["-d", "in", "--format", "lzh", "--carve", "--force"] namesakes
    Options.parse ["-d", "in", "--format", "lzh", "--carve", "--force"] = .ok overwriteArchives
    ∧ outcome.entries.filter (·.topic = .wrote)
      = (written h).map (fun e => ⟨none, "Wrote " ++ (e.target overwriteArchives).shown⟩)
    ∧ (written h).length = 2
    ∧ ¬ ∀ e ∈ written h,
      outcome.tree.readFile (e.target overwriteArchives) = .ok e.content.toArray := by
  intro h outcome
  have hwritten : written h = h := by
    rw [show h = _ from carvings_namesakes]
    rfl
  refine ⟨parse_overwriteArchives,
    wrote_runWith (fun content => content) .calm namesakes parse_overwriteArchives, ?_,
    fun hall => ?_⟩
  · rw [hwritten, show h = _ from carvings_namesakes]
    rfl
  · rw [hwritten, show h = _ from carvings_namesakes, List.forall_mem_cons,
      List.forall_mem_cons] at hall
    obtain ⟨hfirst, hsecond, -⟩ := hall
    simp only [Carved.target] at hfirst hsecond
    rw [hfirst] at hsecond
    exact absurd (Except.ok.inj hsecond) (by decide)

end Run

end Carving.Console
