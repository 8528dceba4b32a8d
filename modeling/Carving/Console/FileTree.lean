import Carving.Bytes.OsText

/-!
# Files and directories

A location is the list of names that lead to a place from the root. A path is a text that is read
from the root if it begins with a slash, and otherwise from the current directory. What is at a
place can be a link, which stands for another place. Writing a file puts its content at a location,
and leaves every other location as it was.
-/

namespace Carving.Console

/-- The names that lead from the root to a place. -/
abbrev Location := List OsText

/-- Files, directories and links, and the directory that paths are read from. -/
structure FileTree where
  files : List (Location × Array UInt8)
  directories : List Location
  current : Location
  /-- The places of links, each with the place where it leads in the end. A file that has several
  names is at the place of one of them, and the others lead there. -/
  links : List (Location × Location) := []

def maxNameSize : Nat := 255

def maxPathSize : Nat := 4095

/-- Why a path leads nowhere. -/
inductive Absence
  | notFound
  | notADirectory
  | tooLong
  | unusable
  deriving DecidableEq, Repr

def Absence.message : Absence → String
  | notFound => "No such file or directory (os error 2)"
  | notADirectory => "Not a directory (os error 20)"
  | tooLong => "File name too long (os error 36)"
  | unusable => "file name contained an unexpected NUL byte"

/-- The byte between the names of a path. -/
def slash : UInt8 := 0x2F

def pathNames (path : OsText) : List OsText := path.splitOn slash

def joinPath (directory name : OsText) : OsText :=
  if directory = [] || directory.getLast? = some slash then directory ++ name
  else directory ++ slash :: name

/-- A name that leads from a directory to itself. -/
def isIdle (name : OsText) : Bool := name = [] || name = "."

/-- A directory's path without the slashes and dots that it ends with. -/
def trimPath (path : OsText) : OsText :=
  match pathNames path with
  | [] => path
  | first :: names =>
    let path := [slash].intercalate (first :: (names.reverse.dropWhile isIdle).reverse)
    if path = [] then [slash] else path

/-- The name that a path ends with, unless that leads upwards. -/
def fileName? (path : OsText) : Option OsText :=
  match (pathNames path).reverse.dropWhile isIdle with
  | [] => none
  | name :: _ => if name = ".." then none else some name

namespace FileTree

def content? (t : FileTree) (location : Location) : Option (Array UInt8) :=
  (t.files.find? (·.1 = location)).map (·.2)

def isFile (t : FileTree) (location : Location) : Bool := (t.content? location).isSome

/-- There is a directory at a location. The root is one. -/
def isDirectory (t : FileTree) (location : Location) : Bool :=
  location.isEmpty || t.directories.contains location

def occupied (t : FileTree) (location : Location) : Bool :=
  t.isFile location || t.isDirectory location

/-- Where the link at a location leads, if there is one. -/
def link? (t : FileTree) (location : Location) : Option Location :=
  (t.links.find? (·.1 = location)).map (·.2)

/-- The place that a location stands for: where its link leads, or itself. -/
def behind (t : FileTree) (location : Location) : Location :=
  (t.link? location).getD location

def put (t : FileTree) (location : Location) (content : Array UInt8) : FileTree :=
  if t.isFile location then
    let replace (file : Location × Array UInt8) :=
      if file.1 = location then (location, content) else file
    { t with files := t.files.map replace }
  else { t with files := t.files ++ [(location, content)] }

/-- Where a path is read from. -/
def origin (t : FileTree) (path : OsText) : Location :=
  if path.head? = some slash then [] else t.current

/-- Follows one name of a path, from a directory to what is there. -/
def follow (t : FileTree) (location : Location) (name : OsText) : Except Absence Location :=
  if !t.isDirectory location then .error .notADirectory
  else if isIdle name then .ok location
  else if name = ".." then .ok location.dropLast
  else if maxNameSize < name.length then .error .tooLong
  else
    let place := t.behind (location ++ [name])
    if t.occupied place then .ok place else .error .notFound

/-- The location that a path leads to. -/
def locate (t : FileTree) (path : OsText) : Except Absence Location :=
  if path.contains 0 then .error .unusable
  else if path = [] then .error .notFound
  else if maxPathSize < path.length then .error .tooLong
  else (pathNames path).foldlM t.follow (t.origin path)

def locate? (t : FileTree) (path : OsText) : Option Location := (t.locate path).toOption

/-- The content of the file that a path leads to, or the system's reason why there is none. -/
def readFile (t : FileTree) (path : OsText) : Except String (Array UInt8) :=
  match t.locate path with
  | .error absence => .error absence.message
  | .ok location =>
    match t.content? location with
    | some content => .ok content
    | none => .error "Is a directory (os error 21)"

/-- Follows one name of a path, and makes the directory of that name if nothing is there. -/
def enter (place : FileTree × Location) (name : OsText) : Option (FileTree × Location) :=
  let (t, location) := place
  if isIdle name then some (t, location)
  else if name = ".." then some (t, location.dropLast)
  else if maxNameSize < name.length then none
  else
    let below := location ++ [name]
    if t.isDirectory (t.behind below) then some (t, t.behind below)
    else if t.isFile below || (t.link? below).isSome then none
    else some ({ t with directories := t.directories ++ [below] }, below)

/-- Enters one name after another. Where one cannot be entered, the directories that have been made
before it are left. -/
def enterAll (t : FileTree) (location : Location) : List OsText → FileTree × Option Location
  | [] => (t, some location)
  | name :: names =>
    match enter (t, location) name with
    | some (t, location) => t.enterAll location names
    | none => (t, none)

/-- The tree with all directories made that are missing on the way of a path, and the directory that
the path leads to. If the way is barred, only its first few names can be entered. -/
def makeDirectories (t : FileTree) (path : OsText) (barred : Option Nat) :
    FileTree × Option Location :=
  if path.contains 0 || maxPathSize < (trimPath path).length then (t, none)
  else
    match barred with
    | none => t.enterAll (t.origin path) (pathNames path)
    | some count => ((t.enterAll (t.origin path) ((pathNames path).take count)).1, none)

/-- The places where there is something. -/
def places (t : FileTree) : List Location := t.directories ++ t.files.map (·.1) ++ t.links.map (·.1)

/-- The names that are found in a directory. -/
def namesIn (t : FileTree) (location : Location) : List OsText :=
  t.places.filterMap fun place => if place.dropLast = location then place.getLast? else none

/-- The files below a location, each by the names that lead to it from there. -/
def filesBelow (t : FileTree) (location : Location) : List (List OsText) :=
  t.files.filterMap fun file =>
    if location.isPrefixOf file.1 && location.length < file.1.length then
      some (file.1.drop location.length)
    else none

/-- A tree with nothing but a current directory and the files below it, given by their paths. -/
def ofFiles (current : Location) (files : List (OsText × Array UInt8)) : FileTree :=
  files.foldl addFile { files := [], directories := parents current ++ [current], current }
where
  parents (location : Location) : List Location :=
    ((List.range location.length).drop 1).map location.take
  addFile (t : FileTree) (file : OsText × Array UInt8) : FileTree :=
    let location := t.current ++ pathNames file.1
    let missing := (parents location).filter fun above => !t.isDirectory above
    { t with directories := t.directories ++ missing }.put location file.2

/-- The files below a location that are new in the second tree or differ there, by their paths from
that location and in the order of these. -/
def changes (before after : FileTree) (location : Location) : List (OsText × Array UInt8) :=
  let changed := (after.filesBelow location).filterMap fun names =>
    match after.content? (location ++ names) with
    | none => none
    | some content =>
      if before.content? (location ++ names) = some content then none
      else some ([slash].intercalate names, content)
  changed.mergeSort fun a b => a.1 ≤ b.1

end FileTree

end Carving.Console
