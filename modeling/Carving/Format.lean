import Carving.Archive.Lzh
import Carving.Bytes.OsText
import Carving.Flash.Ubi
import Carving.Flash.Ubifs
import Carving.Gzip.Boundary
import Carving.Volume.Ntfs

/-!
# The formats

Every format has a name, a signature by which candidates are found, a calculation that bounds the
chunk of a candidate, and a tool that extracts what a chunk holds.
-/

namespace Carving

inductive Format
  | gzip
  | lzh
  | ntfs
  | ubifs
  | ubi
  deriving DecidableEq, Repr

namespace Format

def all : List Format := [gzip, lzh, ntfs, ubifs, ubi]

def name : Format → String
  | gzip => "gzip"
  | lzh => "lzh"
  | ntfs => "ntfs"
  | ubifs => "ubifs"
  | ubi => "ubi"

/-- Two names that differ at most in the case of their letters from A to Z. -/
def sameName (a b : String) : Bool :=
  a.toList.map Char.toLower = b.toList.map Char.toLower

def ofName? (name : String) : Option Format :=
  all.find? fun format => sameName format.name name

def parse (name : String) : Except Error Format :=
  match ofName? name with
  | some format => .ok format
  | none => .error (.unknownFormat name)

def signature : Format → Signature
  | gzip => Gzip.signature
  | lzh => Lzh.signature
  | ntfs => Ntfs.signature
  | ubifs => Ubifs.signature
  | ubi => Ubi.signature

/-- The chunk of the object that begins at `start`, if one does. -/
def boundary [Arithmetic] (format : Format) (start : Nat) : Probe (Option Chunk) :=
  match format with
  | gzip => Gzip.boundary start
  | lzh => Lzh.boundary start
  | ntfs => Ntfs.boundary start
  | ubifs => Ubifs.boundary start
  | ubi => Ubi.boundary start

def boundaryIn (format : Format) (content : Array UInt8) (start : Nat) :
    Except Error (Option Chunk) :=
  match format.boundary start (.ofSource (.ofContent content)) with
  | .ok chunk _ => .ok chunk
  | .error e _ => .error e

/-- The words of the command that extracts a chunk into a directory. -/
def extractionCommand (format : Format) (input directory : OsText) : List OsText :=
  match format with
  | gzip | lzh | ntfs => ["7z", "x", "-y", input, OsText.ofString "-o" ++ directory]
  | ubifs => ["ubireader_extract_files", input, "-o", directory]
  | ubi => ["ubireader_extract_images", input, "-o", directory]

end Format

end Carving
