import Mathlib.Data.List.Basic
import Carving.Proofs.ChunkFates
import Carving.Proofs.ChunkNames

/-!
# The chunks of one blob

A run that scans one file comes upon the findings of the scan, one after another (`carvings_file`).
Each is carved under a name of its own, so that no two chunks of the blob that are not skipped have
files of one name (`nodup_names_of_blob`). In any run the name of a chunk's file is made of the path
of its blob and its finding, and bars no way (`isProper_of_mem_carvings`).
-/

namespace Carving

/-- The findings of one format come in the order of its candidates. -/
theorem scanned_singleton (format : Format) (maxChunks minChunkSize : Nat)
    (content : Array UInt8) : scanned ⟨[format], maxChunks, minChunkSize⟩ content
      = limit maxChunks (findingsOf minChunkSize content format) := by
  rw [scanned, findings, List.flatMap_singleton, List.mergeSort_of_pairwise]
  exact (pairwise_findingsOf format).imp fun hlt => Finding.le_iff.2 (.inl hlt)

/-- An archive is found if its header is one and the end that it declares lies in the data. -/
theorem accept_lzh {content : Array UInt8} {start stop : Nat} (h : start < stop)
    (hsize : start + Lzh.header.size ≤ content.toList.length)
    (hlevel : Lzh.level ((content.toList.drop start).take Lzh.header.size) ≤ 2)
    (hstop : start + Lzh.declaredSize ((content.toList.drop start).take Lzh.header.size) = stop)
    (hlength : content.toList.length ≠ stop + 1) (hle : stop ≤ content.toList.length) :
    accept 1 content .lzh start = some ⟨.lzh, ⟨start, stop, h⟩⟩ := by
  refine accept_eq_some.2 ⟨rfl, ?_, Nat.sub_pos_of_lt h⟩
  rw [Lzh.boundaryIn_eq]
  exact Lzh.outcome_eq_some.2 ⟨hsize, hlevel, rfl, by rw [hstop, if_neg hlength], hle⟩

/-- A scan for archives finds those at the places that look like one, if all of them are whole. -/
theorem scanned_archives {content : Array UInt8} (chunks : List Chunk)
    (hstarts : Format.lzh.signature.candidates content.toList = chunks.map Chunk.start)
    (hwhole : ∀ c ∈ chunks, c.start + Lzh.header.size ≤ content.toList.length
      ∧ Lzh.level ((content.toList.drop c.start).take Lzh.header.size) ≤ 2
      ∧ c.start + Lzh.declaredSize ((content.toList.drop c.start).take Lzh.header.size) = c.stop
      ∧ content.toList.length ≠ c.stop + 1 ∧ c.stop ≤ content.toList.length) :
    scanned ⟨[.lzh], 0, 1⟩ content = chunks.map (⟨.lzh, ·⟩) := by
  rw [scanned_singleton, limit, if_pos rfl, findingsOf, hstarts, List.filterMap_map,
    List.filterMap_eq_map_iff_forall_eq_some]
  intro c hc
  obtain ⟨hsize, hlevel, hstop, hlength, hle⟩ := hwhole c hc
  exact accept_lzh c.start_lt_stop hsize hlevel hstop hlength hle

/-- An archive that holds a few bytes as they are. -/
def archive (stored : List UInt8) : Array UInt8 :=
  let size := stored.length.toUInt8
  ([19, 0, 0x2D, 0x6C, 0x68, 0x30, 0x2D, size, 0, 0, 0, size, 0, 0, 0, 0, 0, 0, 0, 0x20, 0]
    ++ stored).toArray

namespace Console

section Trail

variable {digest : List UInt8 → List UInt8} {host : Host} {o : Options} {l : Ledger} {t : FileTree}
  {path : OsText} {paths : List OsText} {data : Array UInt8} {found : List Finding} {e : Carved}

theorem FileTree.readFile_eq_ok : t.readFile path = .ok data
    ↔ ∃ location, t.locate path = .ok location ∧ t.content? location = some data := by
  unfold FileTree.readFile
  cases t.locate path with
  | error absence => simp
  | ok location =>
    cases hcontent : t.content? location <;> simp [hcontent]

theorem Host.readFile_eq_ok : host.readFile t path = .ok data
    ↔ host.refusal? path = none ∧ t.readFile path = .ok data := by
  unfold Host.readFile
  cases host.refusal? path <;> simp

theorem Host.leadsToFile_of_readFile (h : host.readFile t path = .ok data) :
    t.leadsToFile path := by
  obtain ⟨-, hread⟩ := Host.readFile_eq_ok.1 h
  obtain ⟨location, hlocate, hcontent⟩ := FileTree.readFile_eq_ok.1 hread
  simp [FileTree.leadsToFile, FileTree.locate?_eq_some.2 hlocate, FileTree.isFile, hcontent]

/-- A chunk is what its finding says it is. -/
structure Carved.Of (path : OsText) (data : Array UInt8) (e : Carved) : Prop where
  path_eq : e.path = path
  name_eq : e.name = OsText.ofString (chunkFileName (blobName path) e.finding)
  content_eq : e.content = e.finding.chunk.slice data

theorem Carved.Of.target_eq (he : e.Of path data) : e.target o
    = joinPath o.output (OsText.ofString (chunkFileName (blobName path) e.finding)) := by
  rw [target, he.name_eq]

theorem of_mem_trail (he : e ∈ l.trail digest host o path data found) : e.Of path data := by
  induction found generalizing l with
  | nil => cases he
  | cons f found ih =>
    rcases List.mem_cons.1 he with rfl | he
    · exact ⟨rfl, rfl, rfl⟩
    · exact ih he

theorem map_finding_trail :
    (l.trail digest host o path data found).map Carved.finding = found := by
  induction found generalizing l with
  | nil => rfl
  | cons f found ih => exact congrArg (f :: ·) ih

/-- Chunks of one blob that have one name have one content. -/
theorem Carved.Of.content_eq_of_name {m : Carved} (hm : m.Of path data) (he : e.Of path data)
    (h : m.name = e.name) : m.content = e.content := by
  rw [hm.name_eq, he.name_eq, OsText.ofString_inj] at h
  rw [hm.content_eq, he.content_eq, (chunkFileName_inj.1 h).2]

/-- The chunks of one blob that are not skipped have different names. -/
theorem nodup_names_of_blob {h : List Carved} (hcarve : o.carve)
    (hex : l.Explains digest host o h) (hof : ∀ e ∈ h, e.Of path data) :
    ((h.filter (·.fate ≠ .skipped)).map Carved.name).Nodup := by
  refine List.pairwise_map.2 ((Ledger.pairwise_unskipped hcarve hex).imp_of_mem
    fun ha hb hne hname => hne ?_)
  rw [(hof _ (List.mem_of_mem_filter ha)).content_eq_of_name (hof _ (List.mem_of_mem_filter hb))
    hname]

theorem carvedIn_eq (hread : host.readFile l.tree path = .ok data) : l.carvedIn digest host o path
    = l.trail digest host o path data (scanned o.scanConfig data) := by
  simp only [Ledger.carvedIn, hread]

/-- A run that meets one blob, which can be read. -/
theorem carvings_single (hblobs : o.blobs digest host t = [path])
    (hread : host.readFile t path = .ok data) :
    carvings digest host o t
      = Ledger.trail digest host o ⟨t, []⟩ path data (scanned o.scanConfig data) := by
  rw [carvings, hblobs, Ledger.history_singleton, carvedIn_eq hread]

theorem carvings_file (hinput : o.input = .file path) (hread : host.readFile t path = .ok data) :
    carvings digest host o t
      = Ledger.trail digest host o ⟨t, []⟩ path data (scanned o.scanConfig data) := by
  refine carvings_single ?_ hread
  simp only [Options.blobs, hinput, Host.leadsToFile_of_readFile hread, if_true]

/-- The chunks of a run are those of its blobs, which the system has read. -/
theorem of_mem_history (he : e ∈ l.history digest host o paths) :
    ∃ data, e.Of e.path data ∧ e.path ∈ paths ∧ 0 ∉ e.path := by
  induction paths generalizing l with
  | nil => cases he
  | cons path paths ih =>
    rcases List.mem_append.1 he with he | he
    · unfold Ledger.carvedIn at he
      split at he
      · cases he
      · rename_i data hread
        have hof := of_mem_trail he
        obtain rfl := hof.path_eq
        obtain ⟨-, hread⟩ := Host.readFile_eq_ok.1 hread
        obtain ⟨location, hlocate, -⟩ := FileTree.readFile_eq_ok.1 hread
        exact ⟨data, hof, List.mem_cons_self, (FileTree.locate_eq_ok.1 hlocate).1⟩
    · obtain ⟨data, hof, hmem, hnul⟩ := ih he
      exact ⟨data, hof, List.mem_cons_of_mem _ hmem, hnul⟩

/-- The file of a chunk has a name by which it can be reached, if that is not too long. -/
theorem isProper_of_mem_carvings (he : e ∈ carvings digest host o t)
    (hshort : e.name.length ≤ maxNameSize) : IsProper e.name := by
  obtain ⟨data, hof, -, hnul⟩ := of_mem_history he
  rw [hof.name_eq] at hshort ⊢
  have hslash : '/' ∉ (blobName e.path).toList :=
    not_mem_blobName (b := slash) (by decide) fun hne => absurd rfl hne
  have hzero : '\x00' ∉ (blobName e.path).toList :=
    not_mem_blobName (b := 0) (by decide) fun _ => hnul
  exact isProper_chunkFileName hslash hzero hshort

end Trail

end Console

end Carving
