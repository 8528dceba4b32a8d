import Carving.Proofs.DistinctChunks

/-!
# Chunks that are skipped

The digest of a chunk is noted before its file is written. So the first chunk of a content decides
about all of that content: it is written or fails, and every later one is skipped. That loses a
content whose first file could not be written, even if the place of a later one is free. The chunks
that are skipped have been written before exactly if no chunk that failed is met again
(`skippedOnceWritten_iff`).
-/

namespace Carving.Console

/-- Each chunk that is skipped has the content of one before it that was written. -/
def SkippedOnceWritten (h : List Carved) : Prop :=
  ∀ before e behind, h = before ++ e :: behind → e.fate = .skipped →
    ∃ m ∈ before, m.fate = .written ∧ m.content = e.content

/-- Each chunk that could not be written is the last one of its content. -/
def LastOnceFailed (h : List Carved) : Prop :=
  ∀ before e behind cause, h = before ++ e :: behind → e.fate = .failed cause →
    ∀ m ∈ behind, m.content ≠ e.content

/-- The first chunk of each content is written or fails, and all later ones are skipped. -/
def FirstDecides (h : List Carved) : Prop :=
  ∀ before e behind, h = before ++ e :: behind → (∀ m ∈ before, m.content ≠ e.content) →
    (e.fate = .written ∨ ∃ cause, e.fate = .failed cause)
      ∧ ∀ m ∈ behind, m.content = e.content → m.fate = .skipped

section History

variable {h : List Carved} {before behind : List Carved} {e : Carved}

/-- A chunk of some content has a first one before it, unless it is that itself. -/
theorem exists_first {content : List UInt8} (he : ∃ m ∈ h, m.content = content) :
    ∃ before m behind, h = before ++ m :: behind ∧ m.content = content
      ∧ ∀ w ∈ before, w.content ≠ content := by
  obtain ⟨m, hm⟩ : ∃ m, h.find? (·.content = content) = some m :=
    Option.isSome_iff_exists.1 (List.find?_isSome.2 (by simpa using he))
  obtain ⟨hcontent, before, behind, hsplit, hbefore⟩ := List.find?_eq_some_iff_append.1 hm
  exact ⟨before, m, behind, hsplit, by simpa using hcontent, by simpa using hbefore⟩

/-- The content of a chunk that is skipped is in a file, if only written ones are. -/
theorem SkippedOnceWritten.exists_written (hskip : SkippedOnceWritten h) (he : e ∈ h)
    (hfate : e.fate = .skipped) : ∃ m ∈ written h, m.content = e.content := by
  obtain ⟨before, behind, rfl⟩ := List.append_of_mem he
  obtain ⟨m, hm, hwritten, hcontent⟩ := hskip before e behind rfl hfate
  exact ⟨m, mem_written.2 ⟨List.mem_append_left _ hm, hwritten⟩, hcontent⟩

theorem FirstDecides.skippedOnceWritten (hfirst : FirstDecides h) (hlast : LastOnceFailed h) :
    SkippedOnceWritten h := by
  rintro before e behind rfl he
  by_cases hearlier : ∃ m ∈ before, m.content = e.content
  · obtain ⟨b, m, b', rfl, hcontent, hb⟩ := exists_first hearlier
    rw [List.append_assoc] at hfirst hlast
    obtain ⟨hwritten | ⟨cause, hfailed⟩, -⟩ := hfirst b m _ rfl (hcontent ▸ hb)
    · exact ⟨m, by simp, hwritten, hcontent⟩
    · exact absurd hcontent.symm (hlast b m _ cause rfl hfailed e (by simp))
  · obtain ⟨hwritten | ⟨cause, hfailed⟩, -⟩ := hfirst before e behind rfl fun m hm hcontent =>
      hearlier ⟨m, hm, hcontent⟩
    · exact absurd (he.symm.trans hwritten) (by simp)
    · exact absurd (he.symm.trans hfailed) (by simp)

theorem FirstDecides.lastOnceFailed (hfirst : FirstDecides h) (hskip : SkippedOnceWritten h) :
    LastOnceFailed h := by
  rintro before e behind cause rfl he m hm hcontent
  -- A chunk that failed is the first one of its content, for it would have been skipped otherwise.
  have hnone : ∀ w ∈ before, w.content ≠ e.content := by
    intro w hw heq
    obtain ⟨b, f, b', rfl, hf, hb⟩ := exists_first ⟨w, hw, heq⟩
    rw [List.append_assoc] at hfirst
    have hskipped := (hfirst b f _ rfl (hf ▸ hb)).2 e (by simp) hf.symm
    exact absurd (he.symm.trans hskipped) (by simp)
  have hlater := (hfirst before e behind rfl hnone).2
  obtain ⟨b, b', rfl⟩ := List.append_of_mem hm
  obtain ⟨w, hw, hwritten, heq⟩ := hskip (before ++ e :: b) m b' (by simp) (hlater m hm hcontent)
  rcases List.mem_append.1 hw with hw | hw
  · exact hnone w hw (heq.trans hcontent)
  · rcases List.mem_cons.1 hw with rfl | hw
    · exact absurd (hwritten.symm.trans he) (by simp)
    · have hskipped := hlater w (by simp [hw]) (heq.trans hcontent)
      exact absurd (hwritten.symm.trans hskipped) (by simp)

variable {digest : List UInt8 → List UInt8} {host : Host} {o : Options} {l : Ledger}

theorem Ledger.fate_of_unskipped {name : OsText} {content : List UInt8} (hcarve : o.carve)
    (hdry : o.dryRun = false) (hnew : l.fate digest host o name content ≠ .skipped) :
    l.fate digest host o name content = .written
      ∨ ∃ cause, l.fate digest host o name content = .failed cause := by
  have hunseen := mt (fate_eq_skipped hcarve).2 hnew
  simp only [fate, hcarve, hdry, hunseen, Bool.not_true, Bool.false_eq_true, if_false]
  split <;> simp

theorem Ledger.Explains.firstDecides (hcarve : o.carve) (hdry : o.dryRun = false)
    (hseen : l.seen = []) (hex : l.Explains digest host o h)
    (hdigest : ∀ a ∈ h, ∀ b ∈ h, digest a.content = digest b.content → a.content = b.content) :
    FirstDecides h := by
  rintro before e behind rfl hnone
  refine ⟨?_, fun m hm hcontent => ?_⟩
  · have hnew : e.fate ≠ .skipped := by
      rw [Ne, skipped_iff hcarve hex, hseen]
      rintro (hmem | ⟨m, hm, heq⟩)
      · cases hmem
      · exact hnone m hm (hdigest m (by simp [hm]) e (by simp) heq)
    rw [hex.fate_eq] at hnew ⊢
    exact fate_of_unskipped hcarve hdry hnew
  · obtain ⟨b, b', rfl⟩ := List.append_of_mem hm
    rw [← List.cons_append, ← List.append_assoc] at hex
    exact (skipped_iff hcarve hex).2 (.inr ⟨e, by simp, congrArg digest hcontent.symm⟩)

end History

section Run

variable {arguments : List OsText} {o : Options}

/-- In a run that carves, the first chunk of each content decides about that content, and each chunk
that is skipped has been written before exactly if each one that failed is the last of its content.
What becomes of the chunks is what the run tells. The digests are assumed to tell the contents of
the chunks apart. -/
theorem skippedOnceWritten_iff (digest : List UInt8 → List UInt8) (host : Host) (t : FileTree)
    (hparse : Options.parse arguments = .ok o) (hcarve : o.carve) (hdry : o.dryRun = false)
    (hdigest : ∀ a ∈ carvings digest host o t, ∀ b ∈ carvings digest host o t,
      digest a.content = digest b.content → a.content = b.content) :
    let h := carvings digest host o t
    let outcome := runWith digest host arguments t
    outcome.reports.filter (fun report => !report.isPassing)
      = (h.flatMap (Carved.reports digest o) ++ summaries o outcome.exit h).filter o.prints
    ∧ outcome.entries.filter (·.topic = .wrote)
      = (written h).map (fun e => ⟨none, "Wrote " ++ (e.target o).shown⟩)
    ∧ FirstDecides h ∧ (SkippedOnceWritten h ↔ LastOnceFailed h) := by
  intro h outcome
  have hfirst : FirstDecides h :=
    (explains_carvings digest host o t).firstDecides hcarve hdry rfl hdigest
  exact ⟨told_runWith digest host t hparse, wrote_runWith digest host t hparse, hfirst,
    hfirst.lastOnceFailed, hfirst.skippedOnceWritten⟩

/-- Two archives of the same bytes, and the second finding of a scan of them. -/
def twins : Array UInt8 := archive [0x68, 0x69] ++ archive [0x68, 0x69]

def secondTwin : Finding := ⟨.lzh, ⟨23, 46, by decide⟩⟩

theorem scanned_twins : scanned ⟨[.lzh], 0, 1⟩ twins = [wholeArchive, secondTwin] :=
  scanned_archives [⟨0, 23, by decide⟩, ⟨23, 46, by decide⟩]
    (by rw [candidates_eq_filter]; decide +kernel) (by decide)

theorem carvings_twins {t : FileTree} (hread : Host.calm.readFile t "fw.bin" = .ok twins) :
    carvings (fun content => content) .calm carveArchives t
      = Ledger.trail (fun content => content) .calm carveArchives ⟨t, []⟩ "fw.bin" twins
        [wholeArchive, secondTwin] :=
  (carvings_file rfl hread).trans (congrArg _ scanned_twins)

theorem skippedOnceWritten_twins :
    let t := workplace "fw.bin" twins
    let h := carvings (fun content => content) .calm carveArchives t
    h.map Carved.fate = [.written, .skipped] ∧ SkippedOnceWritten h := by
  intro t h
  have hfates : h.map Carved.fate = [.written, .skipped] := by
    rw [show h = _ from carvings_twins rfl]
    decide
  have hlast : LastOnceFailed h := by
    intro before e behind cause hsplit hfailed
    have he : e.fate ∈ h.map Carved.fate := List.mem_map_of_mem (hsplit ▸ by simp)
    simp [hfates, hfailed] at he
  exact ⟨hfates, (skippedOnceWritten_iff (fun content => content) .calm t parse_carveArchives rfl
    rfl fun _ _ _ _ h => h).2.2.2.2 hlast⟩

/-- The first of two archives cannot be written, for a file is there. So the second one is skipped
and no file has its content, although nothing is where it would be written. -/
theorem skippedOnceWritten_fails :
    let t : FileTree := ⟨[(atWork "fw.bin", twins), (atWork "fw.bin_0-23.lzh", #[0])],
      [["work"]], ["work"], []⟩
    let h := carvings (fun content => content) .calm carveArchives t
    let outcome := run ["-f", "fw.bin", "--format", "lzh", "--carve"] t
    Options.parse ["-f", "fw.bin", "--format", "lzh", "--carve"] = .ok carveArchives
    ∧ h.map Carved.fate = [.failed (.alreadyThere "./fw.bin_0-23.lzh"), .skipped]
    ∧ ¬ SkippedOnceWritten h ∧ t.occupied (atWork "fw.bin_23-46.lzh") = false
    ∧ outcome.entries.filter (·.topic = .wrote) = [] := by
  intro t h outcome
  have hfates : h.map Carved.fate = [.failed (.alreadyThere "./fw.bin_0-23.lzh"), .skipped] := by
    rw [show h = _ from carvings_twins rfl]
    decide
  have hnone : written h = [] := written_eq_nil (by rw [hfates]; decide)
  refine ⟨parse_carveArchives, hfates, fun hskip => ?_, by decide, ?_⟩
  · obtain ⟨e, he, hskipped⟩ : ∃ e ∈ h, e.fate = .skipped :=
      List.mem_map.1 (by rw [hfates]; decide)
    obtain ⟨m, hm, -⟩ := hskip.exists_written he hskipped
    rw [hnone] at hm
    cases hm
  · exact (wrote_runWith (fun content => content) .calm t parse_carveArchives).trans
      (congrArg (List.map _) hnone)

end Run

end Carving.Console
