import Carving.Arithmetic
import Carving.Chunk
import Carving.Event
import Carving.Record.Layout
import Carving.Signature

/-!
# Where a UBIFS image ends

The superblock at the beginning of an image tells the number of its blocks and their size. Its magic
number shows in which byte order the image is written.
-/

namespace Carving.Ubifs

def signature : Signature where
  patterns := [[0x31, 0x18, 0x10, 0x06], [0x06, 0x10, 0x18, 0x31]]
  matchOffset := 0
  constraint := "node type 0x06 at offset 20, group type <= 2, then two NUL bytes"

def nodeMagic : Nat := 0x06101831

/-- The superblock: the header that all nodes have, and its own fields. -/
def superblock : Layout where
  name := "ubifs_sb_node"
  fields := [
    ⟨"magic", .u32⟩,
    ⟨"crc", .u32⟩,
    ⟨"sqnum", .u64⟩,
    ⟨"len", .u32⟩,
    ⟨"node_type", .u8⟩,
    ⟨"group_type", .u8⟩,
    ⟨"ch_padding", .bytes 2⟩,
    ⟨"padding", .bytes 2⟩,
    ⟨"key_hash", .u8⟩,
    ⟨"key_fmt", .u8⟩,
    ⟨"flags", .u32⟩,
    ⟨"min_io_size", .u32⟩,
    ⟨"leb_size", .u32⟩,
    ⟨"leb_cnt", .u32⟩,
    ⟨"max_leb_cnt", .u32⟩,
    ⟨"max_bud_bytes", .u64⟩,
    ⟨"log_lebs", .u32⟩,
    ⟨"lpt_lebs", .u32⟩,
    ⟨"orph_lebs", .u32⟩,
    ⟨"jhead_cnt", .u32⟩,
    ⟨"fanout", .u32⟩,
    ⟨"lsave_cnt", .u32⟩,
    ⟨"fmt_version", .u32⟩,
    ⟨"default_compr", .u16⟩,
    ⟨"padding1", .bytes 2⟩,
    ⟨"rp_uid", .u32⟩,
    ⟨"rp_gid", .u32⟩,
    ⟨"rp_size", .u64⟩,
    ⟨"time_gran", .u32⟩,
    ⟨"uuid", .bytes 16⟩,
    ⟨"ro_compat_version", .u32⟩,
    ⟨"hmac", .bytes 64⟩,
    ⟨"hmac_wkm", .bytes 64⟩,
    ⟨"hash_algo", .u16⟩,
    ⟨"hash_mst", .bytes 64⟩,
    ⟨"padding2", .bytes 3774⟩]

def detectEndian (magic : List UInt8) : Option Endian :=
  if Endian.big.value magic = nodeMagic then some .big
  else if Endian.little.value magic = nodeMagic then some .little
  else none

/-- The chunk of the image whose superblock is at `start`, if one is and the image is not empty. -/
def boundary [Arithmetic] (start : Nat) : Probe (Option Chunk) := do
  Source.seek start
  let magic ← Source.fill 4
  if magic.length < 4 then return none
  match detectEndian magic with
  | none => return none
  | some order =>
    Source.seek start
    let record ← superblock.parse order
    let blockSize ← Probe.ofExcept (record.number "leb_size")
    let blocks ← Probe.ofExcept (record.number "leb_cnt")
    Probe.report (.superblockRead order blocks blockSize)
    let imageSize ← Probe.ofExcept (Arithmetic.mul blockSize blocks)
    if imageSize = 0 then return none
    let stop ← Probe.ofExcept (Arithmetic.add start imageSize)
    let length ← Source.length
    Probe.ofExcept ((Chunk.within start stop length).map some)

end Carving.Ubifs
