import Carving.Console.Run

/-!
# The program

The places on the disk that a run works on are read into a file tree, the run changes the tree,
and the changes are written back.
-/

namespace Carving.Console

def Location.path (location : Location) : String :=
  "/" ++ String.intercalate "/" (location.map OsText.shown)

def Location.ofPath (path : String) : Location :=
  (pathNames (OsText.ofString path)).filter (· ≠ [])

namespace FileTree

/-- Adds the place at a location of the disk, if there is one, without what it holds, and returns
the place that the location stands for. -/
def loadPlace (t : FileTree) (location : Location) : IO (FileTree × Location) := do
  let place := (← IO.currentDir) / location.path
  if !(← place.pathExists) then return (t, location)
  let real := Location.ofPath (← IO.FS.realPath place).toString
  let t := if real = location || (t.link? location).isSome then t
    else { t with links := (location, real) :: t.links }
  if t.occupied real then return (t, real)
  else if ← place.isDir then return ({ t with directories := real :: t.directories }, real)
  else return (t.put real #[], real)

/-- Adds the place at a location of the disk: a file with its content, or a directory with
everything below it. Links to directories are not followed. -/
partial def load (t : FileTree) (location : Location) : IO FileTree := do
  let (t, real) ← t.loadPlace location
  let place := (← IO.currentDir) / real.path
  if ← place.isDir then
    (← place.readDir).foldlM (fun t entry => do
      let below := real ++ [OsText.ofString entry.fileName]
      let (t, target) ← t.loadPlace below
      if (← entry.path.isDir) && target ≠ below then return t
      t.load below) t
  else if ← place.pathExists then return t.put real (← IO.FS.readBinFile place).data
  else return t

/-- Adds the place at a location of the disk, and the names in it if it is a directory. -/
def loadNames (t : FileTree) (location : Location) : IO FileTree := do
  let (t, real) ← t.loadPlace location
  let place := (← IO.currentDir) / real.path
  if ← place.isDir then
    (← place.readDir).foldlM (fun t entry => do
      return (← t.loadPlace (real ++ [OsText.ofString entry.fileName])).1) t
  else return t

/-- Adds the places on the way of a path, and returns the location at its end. -/
def loadWay (t : FileTree) (path : OsText) : IO (FileTree × Location) :=
  (pathNames path).foldlM (fun (t, location) name => do
    let (t, real) ← t.loadPlace location
    return (t, if isIdle name then real
      else if name = ".." then real.dropLast
      else real ++ [name])) (t, t.origin path)

end FileTree

/-- The part of the disk that a run with these options works on. -/
def Options.load (o : Options) (t : FileTree) : IO FileTree := do
  let input := match o.input with
    | .file path | .directory path => path
  let (t, location) ← t.loadWay input
  let t ← t.load location
  if !o.carve then return t
  let (t, location) ← t.loadWay o.output
  t.loadNames location

def runOnDisk (arguments : List String) : IO UInt32 := do
  let arguments := arguments.map OsText.ofString
  let current ← IO.currentDir
  let empty : FileTree :=
    { files := [], directories := [], current := Location.ofPath current.toString }
  let before ← match Options.parse arguments with
    | .ok o => o.load empty
    | .error _ => pure empty
  let outcome := run arguments before
  for (path, content) in before.changes outcome.tree [] do
    let place := current / ("/" ++ path.shown)
    if let some directory := place.parent then IO.FS.createDirAll directory
    IO.FS.writeBinFile place ⟨content⟩
  for line in outcome.lines do IO.println line.render
  for line in outcome.errors do IO.eprintln line
  return UInt32.ofNat outcome.exit

end Carving.Console

def main (arguments : List String) : IO UInt32 := Carving.Console.runOnDisk arguments
