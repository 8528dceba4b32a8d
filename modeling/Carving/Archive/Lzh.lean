import Carving.Arithmetic
import Carving.Chunk
import Carving.Event
import Carving.Record.Layout
import Carving.Signature

/-!
# Where an LZH archive ends

The first header of an archive tells its own size and the size of the data behind it. In headers of
level 2 the size takes up two bytes, in those of lower levels one byte, and does not count
two bytes of the header.
-/

namespace Carving.Lzh

open Arithmetic (add)

def signature : Signature where
  patterns := ["-lh0-", "-lzs-", "-lz4-", "-lh1-", "-lh2-", "-lh3-", "-lh4-", "-lh5-", "-lh6-",
    "-lh7-", "-lh8-", "-lhd-"].map fun id => id.toUTF8.toList
  matchOffset := -2
  constraint := "level identifier 18 bytes after the method id is <= 0x02"

/-- The header of levels 0 and 1, up to its level. -/
def header : Layout where
  name := "lzh_default_header"
  fields := [
    ⟨"header_size", .u8⟩,
    ⟨"header_checksum", .u8⟩,
    ⟨"method_id", .chars 5⟩,
    ⟨"compressed_size", .u32⟩,
    ⟨"uncompressed_size", .u32⟩,
    ⟨"timestamp", .u32⟩,
    ⟨"fd_attribute", .u8⟩,
    ⟨"level_identifier", .u8⟩]

/-- The size of a header, from its first two bytes and its level. -/
def headerSize [Arithmetic] (first second level : Nat) : Except Error Nat :=
  if level = 2 then add first (256 * second) else add first 2

/-- The chunk of the archive whose header is at `start`. A single byte that is left behind it in the
source is the archive's terminator, and belongs to the chunk. -/
def boundary [Arithmetic] (start : Nat) : Probe (Option Chunk) := do
  Source.seek start
  let record ← header.parse .little
  let level ← Probe.ofExcept (record.number "level_identifier")
  if 2 < level then throw (.malformed "lzh" s!"unsupported header level {level}")
  let first ← Probe.ofExcept (record.number "header_size")
  let second ← Probe.ofExcept (record.number "header_checksum")
  let size ← Probe.ofExcept (headerSize first second level)
  let headerEnd ← Probe.ofExcept (add start size)
  let dataSize ← Probe.ofExcept (record.number "compressed_size")
  let declared ← Probe.ofExcept (add headerEnd dataSize)
  let length ← Source.length
  let stop := if length = declared + 1 then length else declared
  if stop ≠ declared then Probe.report (.terminatorAbsorbed declared)
  Probe.ofExcept ((Chunk.within start stop length).map some)

end Carving.Lzh
