import Carving.Proofs.FileWrites
import Carving.Proofs.ScanList
import Carving.Console.Run

/-!
# What becomes of each chunk

A run comes upon one chunk after another, and what it does with a chunk depends on the options, on
the files as they are then, on the digests of the chunks before it and on what the system hinders
(`Ledger.fate`). The history of a run lists its chunks with their fates (`carvings`), and each fate
says what is reported of the chunk (`Carved.reports`).
-/

namespace Carving.Console

inductive Fate
  /-- The chunk was not to be carved. -/
  | listed
  /-- A chunk of the same digest was met before. -/
  | skipped
  | proposed
  | written
  | failed (cause : WriteError)
  deriving DecidableEq, Repr

/-- A chunk of a blob, with the name of a file for it and what became of it. -/
structure Carved where
  path : OsText
  name : OsText
  finding : Finding
  content : List UInt8
  fate : Fate
  deriving DecidableEq, Repr

namespace Carved

variable (digest : List UInt8 → List UInt8) (o : Options) (e : Carved)

def target : OsText := joinPath o.output e.name

def commands : List Report :=
  if o.commands then
    [.command (e.finding.format.extractionCommand (e.target o)
      (e.target o ++ OsText.ofString "_extract"))]
  else []

/-- What is reported about a chunk behind the report that lists it. -/
def told : List Report :=
  match e.fate with
  | .listed => []
  | .skipped => [.notice (.duplicateSkipped (digest e.content))]
  | .proposed => .wouldWrite (e.target o) :: e.commands o
  | .written => .wrote (e.target o) :: e.commands o
  | .failed cause => [.notice (.writeFailed (e.target o) cause)]

/-- What is reported about a chunk. -/
def reports : List Report := .found e.path e.finding :: e.told digest o

end Carved

/-- A notice that tells neither what becomes of a chunk nor how many there were. -/
def Notice.isPassing : Notice → Bool
  | .duplicateSkipped _ | .writeFailed .. | .summary .. => false
  | _ => true

def Report.isPassing : Report → Bool
  | .notice n => n.isPassing
  | _ => false

theorem Carved.eq_of_mem_reports {digest : List UInt8 → List UInt8} {o : Options} {e : Carved}
    {report : Report} (h : report ∈ e.reports digest o) : report = .found e.path e.finding
      ∨ report = .command (e.finding.format.extractionCommand (e.target o)
        (e.target o ++ OsText.ofString "_extract"))
      ∨ e.fate = .skipped ∧ report = .notice (.duplicateSkipped (digest e.content))
      ∨ e.fate = .proposed ∧ report = .wouldWrite (e.target o)
      ∨ e.fate = .written ∧ report = .wrote (e.target o)
      ∨ ∃ cause, e.fate = .failed cause ∧ report = .notice (.writeFailed (e.target o) cause) := by
  have hcommand : report ∈ e.commands o → report = .command
      (e.finding.format.extractionCommand (e.target o)
        (e.target o ++ OsText.ofString "_extract")) := fun h => by
    unfold commands at h
    split at h
    · exact List.mem_singleton.1 h
    · cases h
  rcases List.mem_cons.1 h with rfl | h
  · exact .inl rfl
  unfold told at h
  split at h
  · cases h
  · exact .inr (.inr (.inl ⟨‹_›, List.mem_singleton.1 h⟩))
  · rcases List.mem_cons.1 h with rfl | h
    · exact .inr (.inr (.inr (.inl ⟨‹_›, rfl⟩)))
    · exact .inr (.inl (hcommand h))
  · rcases List.mem_cons.1 h with rfl | h
    · exact .inr (.inr (.inr (.inr (.inl ⟨‹_›, rfl⟩))))
    · exact .inr (.inl (hcommand h))
  · exact .inr (.inr (.inr (.inr (.inr ⟨_, ‹_›, List.mem_singleton.1 h⟩))))

/-- What decides about the next chunk of a run: the files, and the digests of the chunks that have
been met. -/
structure Ledger where
  tree : FileTree
  seen : List (List UInt8)

namespace Ledger

variable (digest : List UInt8 → List UInt8) (host : Host) (o : Options)

/-- The write of a chunk that is not skipped. -/
def write (l : Ledger) (name : OsText) (content : List UInt8) : FileTree × Option WriteError :=
  writeFile l.tree o.force o.output name content.toArray (host.hindrance? l.seen.length)

def fate (l : Ledger) (name : OsText) (content : List UInt8) : Fate :=
  if !o.carve then .listed
  else if digest content ∈ l.seen then .skipped
  else if o.dryRun then .proposed
  else
    match (l.write host o name content).2 with
    | none => .written
    | some cause => .failed cause

/-- A chunk as it is carved next. -/
def carved (l : Ledger) (path : OsText) (data : Array UInt8) (f : Finding) : Carved :=
  let name := OsText.ofString (chunkFileName (blobName path) f)
  let content := f.chunk.slice data
  ⟨path, name, f, content, l.fate digest host o name content⟩

/-- The ledger behind a chunk. -/
def settle (l : Ledger) (e : Carved) : Ledger :=
  match e.fate with
  | .listed | .skipped => l
  | .proposed => { l with seen := digest e.content :: l.seen }
  | .written | .failed _ => ⟨(l.write host o e.name e.content).1, digest e.content :: l.seen⟩

/-- The ledger behind some chunks. -/
def after (l : Ledger) (h : List Carved) : Ledger := h.foldl (settle digest host o) l

/-- Chunks of one blob, carved one after another. -/
def trail (l : Ledger) (path : OsText) (data : Array UInt8) : List Finding → List Carved
  | [] => []
  | f :: rest =>
    let e := l.carved digest host o path data f
    e :: (l.settle digest host o e).trail path data rest

/-- The chunks of a blob. -/
def carvedIn (l : Ledger) (path : OsText) : List Carved :=
  match host.readFile l.tree path with
  | .error _ => []
  | .ok data => l.trail digest host o path data (scanned o.scanConfig data)

/-- The chunks of some blobs. -/
def history (l : Ledger) : List OsText → List Carved
  | [] => []
  | path :: rest =>
    let h := l.carvedIn digest host o path
    h ++ (l.after digest host o h).history rest

theorem history_singleton (l : Ledger) (path : OsText) :
    l.history digest host o [path] = l.carvedIn digest host o path :=
  List.append_nil _

theorem history_append (l : Ledger) (paths rest : List OsText) :
    l.history digest host o (paths ++ rest) = l.history digest host o paths
      ++ (l.after digest host o (l.history digest host o paths)).history digest host o rest := by
  induction paths generalizing l with
  | nil => rfl
  | cons path paths ih =>
    rw [List.cons_append, history, ih, history, List.append_assoc, after, after, after,
      List.foldl_append]

end Ledger

/-- The paths of the blobs that a run visits. -/
def Options.blobs (digest : List UInt8 → List UInt8) (host : Host) (o : Options) (t : FileTree) :
    List OsText :=
  match o.input with
  | .file path => if t.leadsToFile path then [path] else []
  | .directory _ => ((Run.start t).visit digest host o).1.blobs.toList

/-- The chunks of a run. -/
def carvings (digest : List UInt8 → List UInt8) (host : Host) (o : Options) (t : FileTree) :
    List Carved :=
  Ledger.history digest host o ⟨t, []⟩ (o.blobs digest host t)

end Carving.Console
