import Carving.Console.Host
import Carving.Console.Options
import Carving.Console.Usage

/-!
# A run of the program

A run scans one file, or all files below a directory except hidden ones, and reports each chunk. If
it is asked to carve, it writes each chunk to a file, except those whose content it has met before:
it knows a content by a digest, which is a parameter of the run. Without leave to overwrite it never
writes to a file that is there. Directories are opened one after another while the run goes on, so
that files that it writes below them can be met later.
-/

namespace Carving.Console

structure Run where
  tree : FileTree
  reports : Array Report
  /-- The digests of the chunks met so far. -/
  seen : List (List UInt8)
  found : Nat
  duplicates : Nat
  written : Nat
  /-- The paths of the blobs that were met below a directory. -/
  blobs : Array OsText

/-- The name of a blob in the names of the files of its chunks. -/
def blobName (path : OsText) : String := ((fileName? path).bind OsText.string?).getD "blob"

/-- A file is hidden if its name is a string that begins with a dot. -/
def isHidden (path : OsText) : Bool :=
  ((fileName? path).bind OsText.string?).any (·.startsWith ".")

def chunkFileName (blobName : String) (f : Finding) : String :=
  s!"{blobName}_{f.chunk.start}-{f.chunk.stop}.{f.format.name}"

def Options.scanConfig (o : Options) : ScanConfig where
  formats := if o.formats.isEmpty then Format.all else o.formats
  maxChunks := o.maxChunks

/-- There is a file where a path leads. -/
def FileTree.leadsToFile (t : FileTree) (path : OsText) : Bool := (t.locate? path).any t.isFile

def scanFile (config : ScanConfig) (t : FileTree) (path : OsText) : Except Error (List Finding) :=
  match t.readFile path with
  | .error cause => .error (.fileRead path.shown cause)
  | .ok content => scan config content

namespace Run

def start (t : FileTree) : Run := ⟨t, #[], [], 0, 0, 0, #[]⟩

def report (r : Run) (report : Report) : Run := { r with reports := r.reports.push report }

def tell (r : Run) (notice : Notice) : Run := r.report (.notice notice)

/-- Prints the command that extracts a carved chunk, if commands are asked for. -/
def reportCommand (r : Run) (o : Options) (f : Finding) (target : OsText) : Run :=
  if o.commands then
    r.report (.command (f.format.extractionCommand target (target ++ OsText.ofString "_extract")))
  else r

/-- Sums up what has been carved, if anything was to be written. -/
def summarize (r : Run) (o : Options) : Run :=
  if o.carve && !o.dryRun then r.tell (.summary r.found r.duplicates r.written) else r

variable (digest : List UInt8 → List UInt8) (host : Host)

/-- Carves a chunk whose content has not been met before. -/
def carveNew (r : Run) (o : Options) (path : OsText) (f : Finding) (content : List UInt8) : Run :=
  let name := OsText.ofString (chunkFileName (blobName path) f)
  let target := joinPath o.output name
  let hindrance := host.hindrance? r.seen.length
  let r := { r with seen := digest content :: r.seen }
  if o.dryRun then (r.report (.wouldWrite target)).reportCommand o f target
  else
    match writeFile r.tree o.force o.output name content.toArray hindrance with
    | (tree, none) =>
      let r := { r with tree := tree, written := r.written + 1 }
      (r.report (.wrote target)).reportCommand o f target
    | (tree, some cause) => { r with tree := tree }.tell (.writeFailed target cause)

def carve (r : Run) (o : Options) (path : OsText) (f : Finding) (content : List UInt8) : Run :=
  let r := { r with found := r.found + 1 }
  if digest content ∈ r.seen then
    { r with duplicates := r.duplicates + 1 }.tell (.duplicateSkipped (digest content))
  else r.carveNew digest host o path f content

def handle (o : Options) (path : OsText) (data : Array UInt8) (r : Run) (f : Finding) : Run :=
  let r := r.report (.found path f)
  if o.carve then r.carve digest host o path f (f.chunk.slice data) else r

def process (r : Run) (o : Options) (path : OsText) : Run × Option Failure :=
  let r := r.tell (.blobOpened path)
  match host.readFile r.tree path with
  | .error cause => (r, some (.readFailed path cause))
  | .ok data =>
    let r := r.tell (.blobRead path data.size)
    match scan o.scanConfig data with
    | .error e => (r, some (.scanFailed path e))
    | .ok [] => (r.tell (.nothingFound path), none)
    | .ok findings =>
      let r := r.tell (.chunksFound path findings.length)
      (findings.foldl (handle digest host o path data) r, none)

/-- Scans a blob among others: a failure is reported, and the run goes on. -/
def processAmong (o : Options) (r : Run) (path : OsText) : Run :=
  let r := { r with blobs := r.blobs.push path }
  match (r.tell (.blobMet path)).process digest host o path with
  | (r, none) => r
  | (r, some failure) => r.tell (.blobFailed path failure)

/-- Scans what is at a path, if it is a file that is not hidden. -/
def meet (o : Options) (r : Run) (path : OsText) : Run :=
  if r.tree.leadsToFile path && !isHidden path then r.processAmong digest host o path else r

/-- Meets everything below a directory. A path of more than `maxPathSize` bytes leads nowhere, so
that there are no directories at a greater depth. Links to directories are not followed. -/
def walk (o : Options) : Nat → Run → OsText → Run
  | 0, r, _ => r
  | depth + 1, r, path =>
    match r.tree.locate? path with
    | none => r
    | some location =>
      (host.names r.tree location).foldl (fun r name =>
        let below := joinPath path name
        if r.tree.isDirectory (location ++ [name]) then walk o depth r below
        else r.meet digest host o below) r

def visitFile (r : Run) (o : Options) (path : OsText) : Run × Option Failure :=
  match r.tree.locate? path with
  | none => (r, some (.fileMissing path))
  | some location =>
    if !r.tree.isFile location then (r, some (.notAFile path))
    else
      match r.process digest host o path with
      | (r, none) => (r.summarize o, none)
      | (r, some failure) => (r, some failure)

def visitDirectory (r : Run) (o : Options) (path : OsText) : Run × Option Failure :=
  match r.tree.locate? path with
  | none => (r, some (.directoryMissing path))
  | some location =>
    if !r.tree.isDirectory location then (r, some (.notADirectory path))
    else
      let r := walk digest host o maxPathSize (r.tell (.directoryEntered path)) path
      ((r.tell (.blobsProcessed r.blobs.size)).summarize o, none)

def visit (r : Run) (o : Options) : Run × Option Failure :=
  match o.input with
  | .file path => r.visitFile digest host o path
  | .directory path => r.visitDirectory digest host o path

end Run

def shows (verbosity : Nat) : Severity → Bool
  | .error | .warn => true
  | .info => 1 ≤ verbosity
  | .debug => 2 ≤ verbosity
  | .trace => 3 ≤ verbosity

/-- The reports that are printed: all but the notices of lower severities than are asked for. -/
def Options.prints (o : Options) (report : Report) : Bool :=
  match report.mark with
  | none => true
  | some severity => shows o.verbosity severity

structure Outcome where
  exit : Nat
  reports : List Report
  errors : List String
  tree : FileTree

namespace Outcome

/-- What is printed, one text after another. A text holds newlines if a path in it does. -/
def entries (o : Outcome) : List Line := o.reports.map Report.entry

def lines (o : Outcome) : List Line := o.entries.flatMap Line.split

/-- The printed lines that do not begin a notice. -/
def results (o : Outcome) : List String :=
  o.lines.filterMap fun line => if line.mark.isNone then some line.text else none

/-- The printed lines that begin a notice of one of some severities. -/
def log (o : Outcome) (severities : List Severity) : List String :=
  o.lines.filterMap fun line =>
    if severities.any (line.mark = some ·) then some line.render else none

end Outcome

def Refusal.outcome (r : Refusal) (t : FileTree) : Outcome :=
  match r with
  | help => ⟨0, usage.map .advice, [], t⟩
  | version => ⟨0, [.advice s!"{program} {Console.version}"], [], t⟩
  | unusable => ⟨2, [], "error: the arguments cannot be used" :: "" :: usage, t⟩

/-- A run that takes chunks for the same if their digests agree. -/
def runWith (digest : List UInt8 → List UInt8) (host : Host) (arguments : List OsText)
    (t : FileTree) : Outcome :=
  match Options.parse arguments with
  | .error refusal => refusal.outcome t
  | .ok o =>
    let (r, failure) := (Run.start t).visit digest host o
    let shown := r.reports.toList.filter o.prints
    match failure with
    | none => ⟨0, shown, [], r.tree⟩
    | some failure => ⟨1, shown, failure.lines, r.tree⟩

/-- A run that compares chunks byte by byte, on a system that hinders nothing. -/
def run (arguments : List OsText) (t : FileTree) : Outcome :=
  runWith (fun content => content) .calm arguments t

end Carving.Console
