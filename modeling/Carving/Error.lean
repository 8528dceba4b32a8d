/-!
# Why a calculation gives no answer

An error either speaks against the candidate that was looked at, which is then passed over, or
stands for a failure beneath it, which ends the whole search.
-/

namespace Carving

inductive Error
  | io (text : String)
  | fileRead (path text : String)
  /-- Fewer bytes are there than a layout needs. -/
  | truncated (layout : String) (offset needed available : Nat)
  /-- The data contradict the format that they seem to have. -/
  | malformed (format reason : String)
  /-- The marker does not occur often enough to tell a distance. -/
  | strideNotFound
  /-- The bounds do not enclose a part of the source. -/
  | invalidChunk (start stop length : Nat)
  | unknownFormat (name : String)
  | internal (text : String)
  /-- An index is out of range. This is no error that is returned: the program stops there. -/
  | outOfRange
  deriving DecidableEq, Repr

namespace Error

def message : Error → String
  | io text => s!"I/O error: {text}"
  | fileRead path text => s!"failed to read file '{path}': {text}"
  | truncated layout offset needed available =>
    s!"truncated {layout} header at offset {offset}: need {needed} bytes, have {available}"
  | malformed format reason => s!"invalid {format} data: {reason}"
  | strideNotFound => "could not infer UBI physical erase block size"
  | invalidChunk start stop length =>
    s!"invalid chunk {start}..{stop} for source of {length} bytes"
  | unknownFormat name => s!"unknown format '{name}'"
  | internal text => s!"internal error: {text}"
  | outOfRange => "index out of range"

/-- The error speaks only against the candidate. -/
def rejectsCandidate : Error → Bool
  | truncated .. | malformed .. | strideNotFound | invalidChunk .. => true
  | io _ | fileRead .. | unknownFormat _ | internal _ | outOfRange => false

end Error

end Carving
