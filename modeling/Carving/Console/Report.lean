import Carving.Event
import Carving.Scan

/-!
# What a run prints

A run prints reports: what it finds and does, and notices about its way, each with a severity.
The text of a report may hold newlines, since paths may, and then takes several lines. Only the
first line of a notice is marked with its severity; the others look like any other line.
-/

namespace Carving.Console

def textLines (text : String) : List String :=
  (text.toList.splitOn '\n').map String.ofList

inductive WriteError
  | directoryNotMade (path : OsText)
  | alreadyThere (path : OsText)
  | fileNotMade (path : OsText)
  /-- The file has been made, and holds a part of its content at most. -/
  | fileNotWritten (path : OsText)
  deriving DecidableEq, Repr

def WriteError.message : WriteError → String
  | directoryNotMade path => s!"Failed to create directory: {path.shown}"
  | alreadyThere path => s!"File already exists: {path.shown} (use --force to overwrite)"
  | fileNotMade path => s!"Failed to create file: {path.shown}"
  | fileNotWritten path => s!"Failed to write file: {path.shown}"

inductive Failure
  | fileMissing (path : OsText)
  | notAFile (path : OsText)
  | directoryMissing (path : OsText)
  | notADirectory (path : OsText)
  | readFailed (path : OsText) (cause : String)
  | scanFailed (path : OsText) (cause : Error)
  deriving DecidableEq, Repr

namespace Failure

def message : Failure → String
  | fileMissing path => s!"Input file does not exist: {path.shown}"
  | notAFile path => s!"Input path is not a file: {path.shown}"
  | directoryMissing path => s!"Directory does not exist: {path.shown}"
  | notADirectory path => s!"Path is not a directory: {path.shown}"
  | readFailed path _ => s!"Failed to read input file: {path.shown}"
  | scanFailed path _ => s!"Failed to scan blob: {path.shown}"

def cause? : Failure → Option String
  | readFailed _ cause => some cause
  | scanFailed _ cause => some cause.message
  | _ => none

/-- The lines in which a failure is shown, with its cause. -/
def lines (f : Failure) : List String :=
  textLines s!"Error: {f.message}" ++ match f.cause? with
    | some cause => ["", "Caused by:", s!"    {cause}"]
    | none => []

end Failure

inductive Notice
  | directoryEntered (path : OsText)
  | blobMet (path : OsText)
  | blobOpened (path : OsText)
  | blobRead (path : OsText) (size : Nat)
  | chunksFound (path : OsText) (count : Nat)
  | nothingFound (path : OsText)
  | blobFailed (path : OsText) (cause : Failure)
  /-- A chunk is skipped, for one of the same digest was met before. -/
  | duplicateSkipped (digest : List UInt8)
  | writeFailed (target : OsText) (cause : WriteError)
  | blobsProcessed (count : Nat)
  | summary (found duplicates written : Nat)
  deriving DecidableEq, Repr

/-- A character as a notice shows it. One that would control a terminal is shown by its number. -/
def shownChar (c : Char) : String :=
  if [0x07, 0x08, 0x0c, 0x1b, 0x7f].contains c.toNat then "\\x" ++ paddedHex 2 c.toNat
  else if 0x80 ≤ c.toNat && c.toNat < 0xa0 then "\\u\x7b" ++ hex c.toNat ++ "\x7d"
  else c.toString

def shownText (text : String) : String := String.join (text.toList.map shownChar)

namespace Notice

def severity : Notice → Severity
  | blobOpened _ | blobRead .. | nothingFound _ => .trace
  | blobMet _ | chunksFound .. | duplicateSkipped _ => .debug
  | directoryEntered _ | blobsProcessed _ | summary .. => .info
  | blobFailed .. => .warn
  | writeFailed .. => .error

def message : Notice → String
  | directoryEntered path => s!"Scanning directory: {path.shown}"
  | blobMet path => s!"Processing blob: {path.shown}"
  | blobOpened path => s!"Reading {path.shown}"
  | blobRead path size => s!"Read {size} bytes from {path.shown}"
  | chunksFound path count => s!"Found {count} chunk(s) in {path.shown}"
  | nothingFound path => s!"No chunks found in {path.shown}"
  | blobFailed path cause => s!"Error processing {path.shown}: {cause.message}"
  | duplicateSkipped digest => s!"Skipping duplicate chunk (hash: {hexBytes digest})"
  | writeFailed target cause => s!"Failed to write {target.shown}: {cause.message}"
  | blobsProcessed count => s!"Processed {count} blobs"
  | summary found duplicates written =>
    s!"Summary: {found} chunks found, {duplicates} duplicates skipped, {written} written"

end Notice

inductive Report
  | advice (text : String)
  | found (path : OsText) (finding : Finding)
  | wouldWrite (target : OsText)
  | wrote (target : OsText)
  /-- A command that extracts what a chunk holds. -/
  | command (words : List OsText)
  | notice (notice : Notice)
  deriving DecidableEq, Repr

/-- A text that is printed, or a line of it. -/
structure Line where
  /-- The severity of the notice that it begins, if it begins one. -/
  mark : Option Severity
  text : String
  deriving DecidableEq, Repr

def Line.render (line : Line) : String :=
  match line.mark with
  | none => line.text
  | some severity => s!"{severity.name} {line.text}"

/-- The lines that a text takes. -/
def Line.split (line : Line) : List Line :=
  match textLines line.text with
  | [] => []
  | first :: rest => ⟨line.mark, first⟩ :: rest.map fun text => ⟨none, text⟩

namespace Report

def text : Report → String
  | advice text => text
  | found path f =>
    s!"{path.shown}\t{f.format.name}\t{f.chunk.render}\t{f.chunk.size} bytes"
  | wouldWrite target => s!"Would write: {target.shown}"
  | wrote target => s!"Wrote {target.shown}"
  | command words => String.intercalate " " (words.map OsText.shown)
  | notice n => shownText n.message

def mark : Report → Option Severity
  | notice n => some n.severity
  | _ => none

/-- What is printed of a report. -/
def entry (r : Report) : Line := ⟨r.mark, r.text⟩

end Report

end Carving.Console
