import Carving.Proofs.BlobTrail

/-!
# The texts of reports

A printed text tells what it is about (`Line.topic`): by its severity if it is a notice, by how it
begins and by how it ends. What is printed of a chunk can be told apart so whatever paths it holds,
since a path that is printed at the end of a text ends with the name of a format (`topic_wrote`,
`topic_found` and so on). A report takes one line unless a path in it holds a newline
(`isLine_of_mem_reports`).
-/

namespace Carving.Console

open OsText (newline ofString)

/-- What a printed text tells. -/
inductive Topic
  | listing
  | proposal
  | wrote
  | command
  | failure
  | summary
  | other
  deriving DecidableEq, Repr

def Line.topic (line : Line) : Topic :=
  match line.mark with
  | none =>
    if " bytes".toList <:+ line.text.toList then .listing
    else if "_extract".toList <:+ line.text.toList then .command
    else if "Wrote ".toList <+: line.text.toList then .wrote
    else if "Would write: ".toList <+: line.text.toList then .proposal
    else .other
  | some .error => if "Failed to write ".toList <+: line.text.toList then .failure else .other
  | some .info => if "Summary: ".toList <+: line.text.toList then .summary else .other
  | some _ => .other

/-- What a report is about. Its text tells the same, if it is one of a run
(`topic_of_mem_reports`, `topic_of_isPassing`, `topic_summary`). -/
def Report.topic : Report → Topic
  | .found .. => .listing
  | .wouldWrite _ => .proposal
  | .wrote _ => .wrote
  | .command _ => .command
  | .notice (.writeFailed ..) => .failure
  | .notice (.summary ..) => .summary
  | .notice _ | .advice _ => .other

section Topics

variable {front back part tail : List Char} {path target directory : OsText}

/-- What does not end as the end of a text does is not its end. -/
theorem not_suffix_append (htail : tail <:+ part) (hle : tail.length ≤ back.length)
    (hback : ¬ tail <:+ back) : ¬ part <:+ front ++ back := fun h =>
  hback (List.suffix_of_suffix_length_le (htail.trans h) (List.suffix_append front back) hle)

/-- A path of a chunk's file ends with the name of a format. -/
theorem shown_joinPath (directory : OsText) (blobName : String) (f : Finding) :
    ∃ front, (joinPath directory (OsText.ofString (chunkFileName blobName f))).shown.toList
      = front ++ '.' :: f.format.name.toList := by
  obtain ⟨front, hfront⟩ : ∃ front, joinPath directory (OsText.ofString (chunkFileName blobName f))
      = front ++ OsText.ofString (chunkFileName blobName f) := by
    rw [FileTree.joinPath_eq]
    split
    · exact ⟨directory, rfl⟩
    · exact ⟨directory ++ [slash], by simp⟩
  refine ⟨front.shown.toList ++ (blobName.toList
    ++ '_' :: (Nat.toDigits 10 f.chunk.start ++ '-' :: Nat.toDigits 10 f.chunk.stop)), ?_⟩
  rw [hfront, OsText.shown_append_ofString, String.toList_append, toList_chunkFileName, boundsText]
  simp

theorem text_found (path : OsText) (f : Finding) : (Report.found path f).text
    = path.shown ++ ("\t" ++ f.format.name ++ "\t" ++ f.chunk.render ++ "\t" ++ f.chunk.size.repr
      ++ " bytes") := by
  change path.shown ++ "\t" ++ f.format.name ++ "\t" ++ f.chunk.render ++ "\t" ++ f.chunk.size.repr
    ++ " bytes" = _
  simp only [String.append_assoc]

theorem topic_found (path : OsText) (f : Finding) :
    (Report.found path f).entry.topic = .listing := by
  have hends : " bytes".toList <:+ (Report.found path f).text.toList := by
    rw [text_found, ← String.append_assoc, String.toList_append]
    exact List.suffix_append _ _
  exact if_pos hends

/-- A command is a few words that begin it, and the directory at its end. -/
theorem text_command (format : Format) (input directory : OsText) :
    ∃ front : String, (front.toList.head? = some '7' ∨ front.toList.head? = some 'u')
      ∧ (Report.command (format.extractionCommand input directory)).text
        = front ++ directory.shown := by
  cases format with
  | gzip | lzh | ntfs =>
    refine ⟨"7z" ++ " " ++ "x" ++ " " ++ "-y" ++ " " ++ input.shown ++ " " ++ "-o", .inl ?_, ?_⟩
    · simp
    · change "7z" ++ " " ++ "x" ++ " " ++ "-y" ++ " " ++ input.shown ++ " "
        ++ (OsText.ofString "-o" ++ directory).shown = _
      simp only [OsText.shown_ofString_append, String.append_assoc]
  | ubifs =>
    refine ⟨"ubireader_extract_files" ++ " " ++ input.shown ++ " " ++ "-o" ++ " ", .inr ?_, ?_⟩
    · simp
    · change "ubireader_extract_files" ++ " " ++ input.shown ++ " " ++ (OsText.ofString "-o").shown
        ++ " " ++ directory.shown = _
      rw [OsText.shown_ofString]
  | ubi =>
    refine ⟨"ubireader_extract_images" ++ " " ++ input.shown ++ " " ++ "-o" ++ " ", .inr ?_, ?_⟩
    · simp
    · change "ubireader_extract_images" ++ " " ++ input.shown ++ " " ++ (OsText.ofString "-o").shown
        ++ " " ++ directory.shown = _
      rw [OsText.shown_ofString]

theorem topic_command (format : Format) (input directory : OsText) :
    (Report.command (format.extractionCommand input
      (directory ++ OsText.ofString "_extract"))).entry.topic = .command := by
  obtain ⟨front, -, htext⟩ :=
    text_command format input (directory ++ OsText.ofString "_extract")
  rw [OsText.shown_append_ofString, ← String.append_assoc] at htext
  have hends : "_extract".toList <:+ (Report.command (format.extractionCommand input
      (directory ++ OsText.ofString "_extract"))).text.toList := by
    rw [htext, String.toList_append]
    exact List.suffix_append _ _
  have hnot : ¬ " bytes".toList <:+ (Report.command (format.extractionCommand input
      (directory ++ OsText.ofString "_extract"))).text.toList := by
    rw [htext, String.toList_append]
    exact not_suffix_append (List.suffix_refl _) (by decide) (by decide)
  exact (if_neg hnot).trans (if_pos hends)

/-- What ends with the path of a chunk's file is neither a listing nor a command. -/
theorem not_suffix_target (begin : String) (directory : OsText) (blobName : String) (f : Finding) :
    let text := begin
      ++ (joinPath directory (OsText.ofString (chunkFileName blobName f))).shown
    ¬ " bytes".toList <:+ text.toList ∧ ¬ "_extract".toList <:+ text.toList := by
  intro text
  obtain ⟨front, hfront⟩ := shown_joinPath directory blobName f
  have htext : text.toList = (begin.toList ++ front) ++ '.' :: f.format.name.toList := by
    rw [String.toList_append, hfront, List.append_assoc]
  rw [htext]
  constructor
  · have htail : ['t', 'e', 's'] <:+ " bytes".toList := by decide
    refine not_suffix_append htail ?_ ?_ <;> cases f.format <;> decide
  · have htail : ['a', 'c', 't'] <:+ "_extract".toList := by decide
    refine not_suffix_append htail ?_ ?_ <;> cases f.format <;> decide

theorem topic_wrote (directory : OsText) (blobName : String) (f : Finding) :
    (Report.wrote (joinPath directory (OsText.ofString (chunkFileName blobName f)))).entry.topic
      = .wrote := by
  obtain ⟨hlisting, hcommand⟩ := not_suffix_target "Wrote " directory blobName f
  have hbegins : "Wrote ".toList <+: ("Wrote " ++ (joinPath directory
      (OsText.ofString (chunkFileName blobName f))).shown).toList := by
    rw [String.toList_append]
    exact List.prefix_append _ _
  exact (if_neg hlisting).trans ((if_neg hcommand).trans (if_pos hbegins))

theorem topic_wouldWrite (directory : OsText) (blobName : String) (f : Finding) :
    (Report.wouldWrite (joinPath directory
      (OsText.ofString (chunkFileName blobName f)))).entry.topic = .proposal := by
  obtain ⟨hlisting, hcommand⟩ := not_suffix_target "Would write: " directory blobName f
  have hbegins : "Would write: ".toList <+: ("Would write: " ++ (joinPath directory
      (OsText.ofString (chunkFileName blobName f))).shown).toList := by
    rw [String.toList_append]
    exact List.prefix_append _ _
  have hnot : ¬ "Wrote ".toList <+: ("Would write: " ++ (joinPath directory
      (OsText.ofString (chunkFileName blobName f))).shown).toList := by
    rw [String.toList_append]
    simp
  exact (if_neg hlisting).trans ((if_neg hcommand).trans ((if_neg hnot).trans (if_pos hbegins)))

theorem shownText_append (a b : String) : shownText (a ++ b) = shownText a ++ shownText b := by
  rw [← String.toList_inj]
  simp [shownText, String.toList_join]

/-- A notice that begins with plain words is shown with these words at its beginning. -/
theorem prefix_shownText {begin rest : String} (hplain : shownText begin = begin) :
    begin.toList <+: (shownText (begin ++ rest)).toList := by
  rw [shownText_append, hplain, String.toList_append]
  exact List.prefix_append _ _

theorem topic_writeFailed (target : OsText) (cause : WriteError) :
    (Report.notice (.writeFailed target cause)).entry.topic = .failure := by
  have hmessage : (Notice.writeFailed target cause).message
      = "Failed to write " ++ target.shown ++ ": " ++ cause.message := rfl
  have hbegins : "Failed to write ".toList
      <+: (shownText (Notice.writeFailed target cause).message).toList := by
    rw [hmessage, String.append_assoc, String.append_assoc]
    exact prefix_shownText (by decide)
  exact if_pos hbegins

theorem topic_info (text : String) : Line.topic ⟨some .info, text⟩
    = if "Summary: ".toList <+: text.toList then .summary else .other := rfl

theorem message_summary (found duplicates written : Nat) :
    (Notice.summary found duplicates written).message
      = "Summary: " ++ (found.repr ++ " chunks found, " ++ duplicates.repr
        ++ " duplicates skipped, " ++ written.repr ++ " written") := by
  change "Summary: " ++ found.repr ++ " chunks found, " ++ duplicates.repr
    ++ " duplicates skipped, " ++ written.repr ++ " written" = _
  simp only [String.append_assoc]

theorem topic_summary (found duplicates written : Nat) :
    (Report.notice (.summary found duplicates written)).entry.topic = .summary := by
  refine (topic_info _).trans (if_pos ?_)
  rw [Report.text, message_summary]
  exact prefix_shownText (by decide)

/-- Numbers are shown as they are. -/
theorem shownText_repr (n : Nat) : shownText n.repr = n.repr := by
  have hdigit : ∀ c ∈ Nat.toDigits 10 n, (shownChar c).toList = [c] := by
    intro c hc
    obtain ⟨hlow, hhigh⟩ : 48 ≤ c.toNat ∧ c.toNat ≤ 57 := by
      have hdigit := Nat.isDigit_of_mem_toDigits (b := 10) (by decide) (by decide) hc
      rw [Char.isDigit, Bool.and_eq_true, decide_eq_true_eq, decide_eq_true_eq] at hdigit
      exact hdigit
    have hplain : ¬ ([0x07, 0x08, 0x0c, 0x1b, 0x7f].contains c.toNat = true) := by
      simp only [List.contains_iff_mem, List.mem_cons, List.not_mem_nil, or_false]
      omega
    rw [shownChar, if_neg hplain, if_neg (by simp; omega), Char.toString, String.toList_singleton]
  rw [← String.toList_inj, shownText, String.toList_join, List.flatMap_map,
    Nat.repr_eq_ofList_toDigits, String.toList_ofList, List.flatMap_congr hdigit,
    List.flatMap_singleton']

/-- What is printed of a summary. -/
theorem entry_summary (found duplicates written : Nat) :
    (Report.notice (.summary found duplicates written)).entry = ⟨some .info,
      s!"Summary: {found} chunks found, {duplicates} duplicates skipped, {written} written"⟩ := by
  have hshown (begin : String) (hplain : shownText begin = begin) (n : Nat) (rest : String) :
      shownText (begin ++ (n.repr ++ rest)) = begin ++ (n.repr ++ shownText rest) := by
    rw [shownText_append, shownText_append, hplain, shownText_repr]
  have htext : (Report.notice (.summary found duplicates written)).text
      = (Notice.summary found duplicates written).message := by
    rw [Report.text, message_summary]
    simp only [String.append_assoc]
    rw [hshown _ (by decide), hshown _ (by decide), hshown _ (by decide)]
    rfl
  exact congrArg (Line.mk _) htext
/-- No passing notice is about a chunk or sums up. -/
theorem topic_of_isPassing {notice : Notice} (h : notice.isPassing) :
    (Report.notice notice).entry.topic = .other := by
  have hother (begin : String) {rest : String} (hplain : shownText begin = begin)
      (hne : ¬ "Summary: ".toList <+: begin.toList)
      (hle : "Summary: ".toList.length ≤ begin.toList.length) :
      Line.topic ⟨some .info, shownText (begin ++ rest)⟩ = .other :=
    (topic_info _).trans (if_neg fun hbegins => hne
      (List.prefix_of_prefix_length_le hbegins (prefix_shownText hplain) hle))
  cases notice with
  | directoryEntered path =>
    exact hother "Scanning directory: " (by decide) (by decide) (by decide)
  | blobsProcessed count =>
    have hmessage : (Notice.blobsProcessed count).message
        = "Processed " ++ (count.repr ++ " blobs") := by
      change "Processed " ++ count.repr ++ " blobs" = _
      rw [String.append_assoc]
    rw [Report.entry, Report.text, hmessage]
    exact hother "Processed " (by decide) (by decide) (by decide)
  | duplicateSkipped | writeFailed | summary => cases h
  | _ => rfl

end Topics

/-- A text that takes one line. -/
def IsLine (text : String) : Prop := '\n' ∉ text.toList

section Lines

variable {text : String} {path directory name target : OsText}

instance : Decidable (IsLine text) := inferInstanceAs (Decidable (_ ∉ _))

@[simp] theorem isLine_append {a b : String} : IsLine (a ++ b) ↔ IsLine a ∧ IsLine b := by
  simp [IsLine]

theorem not_mem_toDigits {b : Nat} (hb : 1 < b) (n : Nat) : '\n' ∉ Nat.toDigits b n := by
  induction n using Nat.strongRecOn with
  | ind n ih =>
    have hdigit (k : Nat) : '\n' ≠ k.digitChar := (Nat.digitChar_ne '\n' (by decide)).symm
    rw [Nat.toDigits_eq_if hb]
    split
    · simp [hdigit]
    · have hlt : n / b < n := Nat.div_lt_self (by omega) hb
      simp [ih _ hlt, hdigit]

@[simp] theorem isLine_repr (n : Nat) : IsLine n.repr := by
  rw [IsLine, Nat.repr_eq_ofList_toDigits, String.toList_ofList]
  exact not_mem_toDigits (by decide) n

@[simp] theorem isLine_hex (n : Nat) : IsLine (hex n) := by
  rw [IsLine, hex, String.toList_ofList]
  exact not_mem_toDigits (by decide) n

theorem isLine_paddedHex (width n : Nat) : IsLine (paddedHex width n) := by
  rw [IsLine, paddedHex, String.toList_ofList]
  simp [not_mem_toDigits]

theorem isLine_hexBytes (bytes : List UInt8) : IsLine (hexBytes bytes) := by
  rw [IsLine, hexBytes, String.toList_join, List.mem_flatMap]
  rintro ⟨shown, hshown, hmem⟩
  obtain ⟨b, -, rfl⟩ := List.mem_map.1 hshown
  exact isLine_paddedHex 2 b.toNat hmem

theorem isLine_shownChar {c : Char} (hc : c ≠ '\n') : IsLine (shownChar c) := by
  unfold shownChar
  split
  · exact isLine_append.2 ⟨by decide, isLine_paddedHex 2 c.toNat⟩
  · split
    · exact isLine_append.2 ⟨isLine_append.2 ⟨by decide, isLine_hex c.toNat⟩, by decide⟩
    · simpa [IsLine] using hc.symm

theorem isLine_shownText (h : IsLine text) : IsLine (shownText text) := by
  rw [IsLine, shownText, String.toList_join, List.mem_flatMap]
  rintro ⟨shown, hshown, hmem⟩
  obtain ⟨c, hc, rfl⟩ := List.mem_map.1 hshown
  exact isLine_shownChar (fun heq => h (heq ▸ hc)) hmem

theorem isLine_name (format : Format) : IsLine format.name := by
  cases format <;> decide

/-- A path without newlines is shown without them. -/
theorem isLine_shown (h : newline ∉ path) : IsLine path.shown := fun hmem => by
  rcases OsText.encode_of_mem_shown hmem with heq | hsub
  · exact absurd heq (by decide)
  · exact h (hsub (by decide))

theorem not_mem_joinPath (hdirectory : newline ∉ directory) (hname : newline ∉ name) :
    newline ∉ joinPath directory name := by
  rw [FileTree.joinPath_eq]
  split
  · simp [hdirectory, hname]
  · simp only [List.mem_append, List.mem_cons, not_or]
    exact ⟨hdirectory, by decide, hname⟩

theorem mem_intercalate {b : UInt8} {pieces : List OsText}
    (h : b ∈ [slash].intercalate pieces) : b = slash ∨ ∃ piece ∈ pieces, b ∈ piece := by
  induction pieces with
  | nil => cases h
  | cons piece pieces ih =>
    cases pieces with
    | nil => simp_all
    | cons second pieces =>
      rw [List.intercalate_cons_cons, List.mem_append, List.mem_append, List.mem_singleton] at h
      rcases h with (h | h) | h
      · exact .inr ⟨piece, List.mem_cons_self, h⟩
      · exact .inl h
      · exact (ih h).imp_right fun ⟨other, hother, hmem⟩ =>
          ⟨other, List.mem_cons_of_mem _ hother, hmem⟩

theorem not_mem_trimPath (h : newline ∉ path) : newline ∉ trimPath path := by
  unfold trimPath
  split
  · exact h
  rename_i first names hnames
  have hpieces : first :: (names.reverse.dropWhile isIdle).reverse ⊆ pathNames path := by
    rw [hnames]
    refine List.cons_subset_cons first fun name hname => ?_
    exact List.mem_reverse.1 ((List.dropWhile_suffix _).subset (List.mem_reverse.1 hname))
  have hjoined : newline ∉ [slash].intercalate
      (first :: (names.reverse.dropWhile isIdle).reverse) := fun hmem => by
    rcases mem_intercalate hmem with heq | ⟨piece, hpiece, hmem⟩
    · exact absurd heq (by decide)
    · exact h ((FileTree.not_mem_of_mem_pathNames (hpieces hpiece)).2 hmem)
  dsimp only
  split
  · decide
  · exact hjoined

theorem not_mem_chunkFileName (h : newline ∉ path) (f : Finding) :
    newline ∉ ofString (chunkFileName (blobName path) f) := fun hmem =>
  not_mem_blobName (by decide) (fun _ => h) (mem_of_mem_chunkFileName (by decide) hmem)

end Lines

section Paths

def WriteError.path : WriteError → OsText
  | directoryNotMade path | alreadyThere path | fileNotMade path | fileNotWritten path => path

def Failure.path : Failure → OsText
  | fileMissing path | notAFile path | directoryMissing path | notADirectory path => path
  | readFailed path _ | scanFailed path _ => path

def Notice.paths : Notice → List OsText
  | directoryEntered path | blobMet path | blobOpened path | blobRead path _ => [path]
  | chunksFound path _ | nothingFound path => [path]
  | blobFailed path cause => [path, cause.path]
  | writeFailed target cause => [target, cause.path]
  | duplicateSkipped _ | blobsProcessed _ | summary .. => []

variable {path : OsText}

theorem isLine_before {text : String} (htext : IsLine text) (h : newline ∉ path) :
    IsLine (text ++ path.shown) :=
  isLine_append.2 ⟨htext, isLine_shown h⟩

theorem isLine_message_writeError {cause : WriteError} (h : newline ∉ cause.path) :
    IsLine cause.message := by
  cases cause with
  | alreadyThere path => exact isLine_append.2 ⟨isLine_before (by decide) h, by decide⟩
  | _ => exact isLine_before (by decide) h

theorem isLine_message_failure {cause : Failure} (h : newline ∉ cause.path) :
    IsLine cause.message := by
  cases cause with
  | _ => exact isLine_before (by decide) h

/-- A notice takes one line if its paths hold no newlines. -/
theorem isLine_notice {notice : Notice} (h : ∀ path ∈ notice.paths, newline ∉ path) :
    IsLine (Report.notice notice).text := by
  refine isLine_shownText ?_
  cases notice with
  | duplicateSkipped digest =>
    exact isLine_append.2 ⟨isLine_append.2 ⟨by decide, isLine_hexBytes digest⟩, by decide⟩
  | blobsProcessed count =>
    exact isLine_append.2 ⟨isLine_append.2 ⟨by decide, isLine_repr count⟩, by decide⟩
  | summary found duplicates written =>
    rw [message_summary]
    simp +decide
  | blobRead path size =>
    have hsize : IsLine ("Read " ++ size.repr ++ " bytes from ") := by simp +decide
    exact isLine_before hsize (h path List.mem_cons_self)
  | chunksFound path count =>
    have hcount : IsLine ("Found " ++ count.repr ++ " chunk(s) in ") := by simp +decide
    exact isLine_before hcount (h path List.mem_cons_self)
  | blobFailed path cause =>
    refine isLine_append.2 ⟨isLine_append.2 ⟨?_, by decide⟩, ?_⟩
    · exact isLine_before (by decide) (h path List.mem_cons_self)
    · exact isLine_message_failure (h cause.path (List.mem_cons_of_mem _ List.mem_cons_self))
  | writeFailed target cause =>
    refine isLine_append.2 ⟨isLine_append.2 ⟨?_, by decide⟩, ?_⟩
    · exact isLine_before (by decide) (h target List.mem_cons_self)
    · exact isLine_message_writeError (h cause.path (List.mem_cons_of_mem _ List.mem_cons_self))
  | _ => exact isLine_before (by decide) (h _ List.mem_cons_self)

theorem isLine_found (h : newline ∉ path) (f : Finding) : IsLine (Report.found path f).text := by
  have hrender : IsLine f.chunk.render := by
    change IsLine ("0x" ++ hex f.chunk.start ++ "-0x" ++ hex f.chunk.stop)
    simp +decide
  rw [text_found]
  simp +decide [isLine_shown h, hrender, isLine_name]

theorem isLine_command {input directory : OsText} (hinput : newline ∉ input)
    (hdirectory : newline ∉ directory) (format : Format) :
    IsLine (Report.command (format.extractionCommand input directory)).text := by
  have hinput := isLine_shown hinput
  have hdirectory := isLine_shown hdirectory
  cases format with
  | gzip | lzh | ntfs =>
    change IsLine ("7z" ++ " " ++ "x" ++ " " ++ "-y" ++ " " ++ input.shown ++ " "
      ++ (ofString "-o" ++ directory).shown)
    rw [OsText.shown_ofString_append]
    simp +decide [hinput, hdirectory]
  | ubifs =>
    change IsLine ("ubireader_extract_files" ++ " " ++ input.shown ++ " " ++ (ofString "-o").shown
      ++ " " ++ directory.shown)
    simp +decide [hinput, hdirectory]
  | ubi =>
    change IsLine ("ubireader_extract_images" ++ " " ++ input.shown ++ " " ++ (ofString "-o").shown
      ++ " " ++ directory.shown)
    simp +decide [hinput, hdirectory]

end Paths

section Chunks

variable {digest : List UInt8 → List UInt8} {host : Host} {o : Options} {l : Ledger}
  {path : OsText} {data : Array UInt8} {h : List Carved} {e : Carved} {report : Report}

/-- A write that fails names the directory or the file. -/
theorem path_of_writeFile {t u : FileTree} {force : Bool} {directory name : OsText}
    {content : Array UInt8} {hindrance : Option Hindrance} {cause : WriteError}
    (h : writeFile t force directory name content hindrance = (u, some cause)) :
    cause.path = trimPath directory ∨ cause.path = joinPath directory name := by
  unfold writeFile at h
  split at h
  · cases h
    exact .inl rfl
  dsimp only at h
  split at h
  · cases h
    exact .inr rfl
  split at h
  · cases h
    exact .inr rfl
  split at h
  · cases h
    exact .inr rfl
  · cases h

/-- The texts of the reports about a chunk tell what these are about. -/
theorem topic_of_mem_reports (he : e.Of path data) (hreport : report ∈ e.reports digest o) :
    report.entry.topic = report.topic := by
  have htarget := he.target_eq (o := o)
  obtain rfl | rfl | ⟨-, rfl⟩ | ⟨-, rfl⟩ | ⟨-, rfl⟩ | ⟨cause, -, rfl⟩ :=
    Carved.eq_of_mem_reports hreport
  · exact topic_found _ _
  · exact topic_command _ _ _
  · rfl
  · rw [htarget]
    exact topic_wouldWrite _ _ _
  · rw [htarget]
    exact topic_wrote _ _ _
  · exact topic_writeFailed _ _

/-- The reports about a chunk take one line each, if the paths in them hold no newlines. -/
theorem isLine_of_mem_reports (hex : l.Explains digest host o h) (he : e ∈ h)
    (hof : e.Of path data) (hpath : newline ∉ path) (houtput : o.carve → newline ∉ o.output)
    (hreport : report ∈ e.reports digest o) : IsLine report.text := by
  obtain ⟨met, hfate⟩ := hex.exists_fate_eq he
  have hfound : IsLine (Report.found e.path e.finding).text := isLine_found (hof.path_eq ▸ hpath) _
  by_cases hcarve : o.carve
  · have htarget : newline ∉ e.target o := by
      rw [hof.target_eq]
      exact not_mem_joinPath (houtput hcarve) (not_mem_chunkFileName hpath _)
    have hdirectory : newline ∉ e.target o ++ ofString "_extract" := by
      rw [List.mem_append, not_or]
      exact ⟨htarget, by decide⟩
    obtain rfl | rfl | ⟨-, rfl⟩ | ⟨-, rfl⟩ | ⟨-, rfl⟩ | ⟨cause, hfailed, rfl⟩ :=
      Carved.eq_of_mem_reports hreport
    · exact hfound
    · exact isLine_command htarget hdirectory _
    · exact isLine_notice (by simp [Notice.paths])
    · exact isLine_before (by decide) htarget
    · exact isLine_before (by decide) htarget
    · obtain ⟨-, -, -, hcause⟩ := Ledger.fate_eq_failed.1 (hfate ▸ hfailed)
      have hnamed := path_of_writeFile (Prod.ext rfl hcause)
      refine isLine_notice fun path hmem => ?_
      simp only [Notice.paths, List.mem_cons, List.not_mem_nil, or_false] at hmem
      rcases hmem with rfl | rfl
      · exact htarget
      · rcases hnamed with hnamed | hnamed <;> rw [hnamed]
        · exact not_mem_trimPath (houtput hcarve)
        · exact htarget
  · have hlisted : e.fate = .listed := hfate.trans (Ledger.fate_eq_listed.2 (by simpa using hcarve))
    rw [Carved.reports, Carved.told, hlisted, List.mem_singleton] at hreport
    exact hreport ▸ hfound

end Chunks

end Carving.Console
