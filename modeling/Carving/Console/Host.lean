import Carving.Console.FileTree
import Carving.Console.Report

/-!
# The system that a run works on

The files alone do not tell all that the system does: in which order it finds the names of a
directory, which files it refuses to read, and which writes it hinders, for want of room or of
permission. A run is told this by its host. Whatever the host does, a write either leaves the files
as they are or puts a content at one place.
-/

namespace Carving.Console

/-- What stops a write. -/
inductive Hindrance
  /-- No directories can be made behind the first few names on the way. -/
  | way (names : Nat)
  /-- The place of the file cannot be looked at, and no file can be made there. -/
  | place
  /-- No file can be made or opened at the place. -/
  | file
  /-- The content breaks off. -/
  | content (size : Nat)
  deriving DecidableEq, Repr

/-- How many names on the way of a directory can be entered, if not all. -/
def Hindrance.way? : Hindrance → Option Nat
  | way names => some names
  | _ => none

structure Host where
  /-- The names that the system finds in a directory, in its order. -/
  names : FileTree → Location → List OsText
  /-- Why the file of a path cannot be read, if the system refuses it. -/
  refusal? : OsText → Option String
  /-- What hinders a write, if anything does, by the number of the writes before it. -/
  hindrance? : Nat → Option Hindrance

/-- A system on which nothing fails but what the files themselves bar. -/
def Host.calm : Host := ⟨FileTree.namesIn, fun _ => none, fun _ => none⟩

def Host.readFile (host : Host) (t : FileTree) (path : OsText) : Except String (Array UInt8) :=
  match host.refusal? path with
  | some cause => .error cause
  | none => t.readFile path

/-- Writes a file into a directory, which is made if it is missing. Returns the tree that is left,
and why the write failed if it did. -/
def writeFile (t : FileTree) (force : Bool) (directory name : OsText) (content : Array UInt8)
    (hindrance : Option Hindrance) : FileTree × Option WriteError :=
  match t.makeDirectories directory (hindrance.bind Hindrance.way?) with
  | (t, none) => (t, some (.directoryNotMade (trimPath directory)))
  | (t, some location) =>
    let place := t.behind (location ++ [name])
    let path := joinPath directory name
    let unseen := maxNameSize < name.length || maxPathSize < path.length
      || hindrance = some .place
    let lost := place ≠ location ++ [name] && !t.isDirectory place.dropLast
    if t.occupied place && !force && !unseen then (t, some (.alreadyThere path))
    else if t.isDirectory place || unseen || lost || hindrance = some .file then
      (t, some (.fileNotMade path))
    else
      match hindrance with
      | some (.content size) => (t.put place (content.take size), some (.fileNotWritten path))
      | _ => (t.put place content, none)

end Carving.Console
