import Carving.Proofs.DistinctChunks
import Carving.Proofs.GivenFlags

/-!
# Files that a run leaves as they are

Without leave to overwrite a write puts its file where nothing is, so that all files of before keep
their content and are still found by their paths (`keeps_writeFile`, `Keeps.readFile`). This carries
over to all chunks of a run, whichever of them are written and whatever the system hinders. A run
that does not carve, or is a dry one, leaves the whole tree as it is (`files_kept`).
-/

namespace Carving.Console

open OsText (ofString)

namespace FileTree

variable {t u w : FileTree} {l l' : Location} {name path directory : OsText}
  {content : Array UInt8} {hindrance : Option Hindrance} {failure : Option WriteError}

/-- The second tree has all that the first one has, and may have more. -/
structure Keeps (t u : FileTree) : Prop extends t.Extends u where
  content : ∀ {l content}, t.content? l = some content → u.content? l = some content

theorem Keeps.refl (t : FileTree) : t.Keeps t := ⟨.refl t, id⟩

theorem Keeps.trans (h : t.Keeps u) (h' : u.Keeps w) : t.Keeps w :=
  ⟨h.toExtends.trans h'.toExtends, fun hl => h'.content (h.content hl)⟩

theorem keeps_makeDirectories (t : FileTree) (path : OsText) (barred : Option Nat) :
    t.Keeps (t.makeDirectories path barred).1 :=
  ⟨makeDirectories_extends t path barred, fun hl => by
    rwa [content?_of_files_eq (makeDirectories_files t path barred)]⟩

theorem keeps_put (h : t.occupied l = false) : t.Keeps (t.put l content) := by
  -- A file that is there already is not the one that is put where nothing is.
  refine ⟨extends_put t l content, fun {l'} _ hl => ?_⟩
  have hne : l' ≠ l := by
    rintro rfl
    rw [occupied, isFile, hl] at h
    cases h
  rw [content?_put, if_neg hne, hl]

/-- A file that is written without leave to overwrite takes the place of none. -/
theorem keeps_writeFile {force : Bool} (hforce : force = false)
    (h : writeFile t force directory name content hindrance = (u, failure)) : t.Keeps u := by
  obtain ⟨-, -, -, rfl⟩ | ⟨made, l, stored, hmade, hopen, -, -, rfl, -⟩ := writeFile_cases h
  · exact keeps_makeDirectories _ _ _
  · have hkept := keeps_makeDirectories t directory none
    rw [hmade] at hkept
    exact hkept.trans (keeps_put (by simpa [hforce] using hopen.free))

theorem Keeps.occupied (h : t.Keeps u) (hl : t.occupied l) : u.occupied l := by
  rw [FileTree.occupied, Bool.or_eq_true] at hl ⊢
  refine hl.imp (fun hl => ?_) h.isDirectory
  obtain ⟨content, hcontent⟩ := Option.isSome_iff_exists.1 hl
  rw [isFile, h.content hcontent]
  rfl

theorem Keeps.follow (h : t.Keeps u) (hl : t.follow l name = .ok l') :
    u.follow l name = .ok l' := by
  unfold FileTree.follow at hl ⊢
  split at hl
  · cases hl
  rename_i hdirectory
  have hdirectory : u.isDirectory l := h.isDirectory (by simpa using hdirectory)
  rw [if_neg (by simpa using hdirectory)]
  split at hl
  · rwa [if_pos ‹_›]
  rw [if_neg ‹_›]
  split at hl
  · rwa [if_pos ‹_›]
  rw [if_neg ‹_›]
  split at hl
  · cases hl
  rw [if_neg ‹_›]
  dsimp only at hl ⊢
  rw [h.behind_eq]
  split at hl
  · rwa [if_pos (h.occupied ‹_›)]
  · cases hl

theorem Keeps.followAll {names : List OsText} (h : t.Keeps u)
    (hl : names.foldlM t.follow l = .ok l') : names.foldlM u.follow l = .ok l' := by
  induction names generalizing l with
  | nil => exact hl
  | cons name names ih =>
    rw [List.foldlM_cons] at hl ⊢
    obtain ⟨m, hm, hl⟩ := bind_eq_ok.1 hl
    exact bind_eq_ok.2 ⟨m, h.follow hm, ih hl⟩

/-- A path that leads somewhere still leads there. -/
theorem Keeps.locate (h : t.Keeps u) (hl : t.locate path = .ok l) : u.locate path = .ok l := by
  obtain ⟨hnul, hempty, hshort, hall⟩ := locate_eq_ok.1 hl
  refine locate_eq_ok.2 ⟨hnul, hempty, hshort, ?_⟩
  rw [h.origin_eq]
  exact h.followAll hall

theorem Keeps.readFile (h : t.Keeps u) (hr : t.readFile path = .ok content) :
    u.readFile path = .ok content := by
  obtain ⟨l, hl, hcontent⟩ := readFile_eq_ok.1 hr
  exact readFile_eq_ok.2 ⟨l, h.locate hl, h.content hcontent⟩

end FileTree

namespace Ledger

variable {digest : List UInt8 → List UInt8} {host : Host} {o : Options} {l : Ledger}
  {h : List Carved}

theorem keeps_settle (hforce : o.force = false) (e : Carved) :
    l.tree.Keeps (l.settle digest host o e).tree := by
  have hwrite : l.tree.Keeps (l.write host o e.name e.content).1 :=
    FileTree.keeps_writeFile hforce (Prod.eta _).symm
  unfold settle
  cases e.fate with
  | written | failed => exact hwrite
  | _ => exact .refl _

/-- Whatever chunks are carved, all files that were there before are there behind them. -/
theorem keeps_after (hforce : o.force = false) (l : Ledger) (h : List Carved) :
    l.tree.Keeps (l.after digest host o h).tree := by
  induction h generalizing l with
  | nil => exact .refl _
  | cons e h ih => exact (keeps_settle hforce e).trans (ih _)

/-- If nothing is to be written, the tree stays as it is. -/
theorem Explains.tree_after (hidle : o.carve = false ∨ o.dryRun)
    (hex : l.Explains digest host o h) : (l.after digest host o h).tree = l.tree := by
  induction h generalizing l with
  | nil => rfl
  | cons e h ih =>
    have hsame : (l.settle digest host o e).tree = l.tree := by
      unfold settle
      cases he : e.fate with
      | written =>
        obtain ⟨hcarve, -, hdry, -⟩ := fate_eq_written.1 (hex.1 ▸ he)
        simp [hcarve, hdry] at hidle
      | failed cause =>
        obtain ⟨hcarve, -, hdry, -⟩ := fate_eq_failed.1 (hex.1 ▸ he)
        simp [hcarve, hdry] at hidle
      | _ => rfl
    exact (ih hex.2).trans hsame

end Ledger

section Run

theorem Refusal.tree_outcome (refusal : Refusal) (t : FileTree) : (refusal.outcome t).tree = t := by
  cases refusal <;> rfl

/-- A run that is not given leave to overwrite keeps every file that there was: the content at its
location, and what is read by any path that led to it. A run that is not asked to carve, or is asked
for a dry run, changes nothing, whatever leave it has. -/
theorem files_kept (digest : List UInt8 → List UInt8) (host : Host) (arguments : List OsText)
    (t : FileTree) :
    let outcome := runWith digest host arguments t
    (ofString "--force" ∉ arguments →
      (∀ location content, t.content? location = some content →
        outcome.tree.content? location = some content)
      ∧ ∀ path content, t.readFile path = .ok content →
        outcome.tree.readFile path = .ok content)
    ∧ (ofString "--carve" ∉ arguments ∨ ofString "--dry-run" ∈ arguments → outcome.tree = t) := by
  intro outcome
  cases hparse : Options.parse arguments with
  | error refusal =>
    have htree : outcome.tree = t := by
      simp only [outcome, runWith, hparse, Refusal.tree_outcome]
    rw [htree]
    exact ⟨fun _ => ⟨fun _ _ => id, fun _ _ => id⟩, fun _ => rfl⟩
  | ok o =>
    have hcarve : o.carve ↔ ofString "--carve" ∈ arguments := Options.has_parse .carve
      (by decide) hparse
    have hdry : o.dryRun ↔ ofString "--dry-run" ∈ arguments := Options.has_parse .dryRun
      (by decide) hparse
    have hforce : o.force ↔ ofString "--force" ∈ arguments := Options.has_parse .force
      (by decide) hparse
    rw [show outcome.tree = _ from tree_runWith digest host t hparse, ← hforce, ← hcarve, ← hdry]
    refine ⟨fun hunforced => ?_, fun hidle => ?_⟩
    · have hkept : t.Keeps (Ledger.after digest host o ⟨t, []⟩ (carvings digest host o t)).tree :=
        Ledger.keeps_after (by simpa using hunforced) ⟨t, []⟩ _
      exact ⟨fun _ _ => hkept.content, fun _ _ => hkept.readFile⟩
    · exact (explains_carvings digest host o t).tree_after (by simpa using hidle)

/-- An archive, and a file that is where the archive would be written. -/
def barred : FileTree :=
  (workplace "fw.bin" (archive [0x68, 0x69])).put (atWork "fw.bin_0-23.lzh") #[0]

theorem files_kept_barred :
    (carvings (fun content => content) .calm carveArchives barred).map Carved.fate
      = [.failed (.alreadyThere "./fw.bin_0-23.lzh")]
    ∧ (run ["-f", "fw.bin", "--format", "lzh", "--carve"] barred).tree.readFile "fw.bin_0-23.lzh"
      = .ok #[0]
    ∧ (run ["-f", "fw.bin", "--format", "lzh", "--carve", "--force", "--dry-run"] barred).tree
      = barred := by
  refine ⟨?_, ?_, ?_⟩
  · have hread : Host.calm.readFile barred "fw.bin" = .ok (archive [0x68, 0x69]) := by rfl
    rw [carvings_file rfl hread, show scanned carveArchives.scanConfig _ = _ from scanned_archive]
    decide
  · have hkept := (files_kept (fun content => content) .calm
      ["-f", "fw.bin", "--format", "lzh", "--carve"] barred).1 (by decide)
    exact hkept.2 "fw.bin_0-23.lzh" #[0] (by rfl)
  · exact (files_kept (fun content => content) .calm
      ["-f", "fw.bin", "--format", "lzh", "--carve", "--force", "--dry-run"] barred).2
      (.inr (by decide))

end Run

end Carving.Console
