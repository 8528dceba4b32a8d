import Carving.Chunk
import Carving.Gzip.Member
import Carving.Signature
import Carving.Source.Search

/-!
# Where a gzip member ends

A member is decoded to its end and checked against its trailer. Zero bytes that follow it belong to
its chunk; a further member does not.
-/

namespace Carving.Gzip

def signature : Signature where
  patterns := [[0x1F, 0x8B, 0x08]]
  matchOffset := 0
  constraint := "flags byte <= 0x1F, XFL in \x7b2, 4\x7d, OS in 0..=13 or 0xFF"

/-- Reads a whole member, and tells whether there is one. -/
def readMember [Arithmetic] : Decoding Bool := do
  if !(← Member.readHeader) then return false
  Member.readData
  Member.verifyTrailer
  return true

def withMember {α : Type} (act : Decoding α) : Probe α := fun session =>
  match act (.ofSession session) with
  | .ok a m => .ok a m.session
  | .error e m => .error e m.session

/-- The chunk of the member that begins at `start`, if one does. -/
def boundary [Arithmetic] (start : Nat) : Probe (Option Chunk) := do
  Source.seek start
  if !(← withMember readMember) then return none
  let memberEnd ← Source.tell
  let stop ← Source.skipRun 0
  if memberEnd < stop then Probe.report (.paddingAbsorbed (stop - memberEnd))
  let length ← Source.length
  Probe.ofExcept ((Chunk.within start stop length).map some)

end Carving.Gzip
