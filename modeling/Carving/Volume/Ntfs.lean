import Carving.Chunk
import Carving.Event
import Carving.Record.Layout
import Carving.Signature

/-!
# Where an NTFS volume ends

The boot sector tells the number of sectors and their size; the volume lies behind it. Sizes are
computed in 64 bits and stay at the greatest number where they would exceed it.
-/

namespace Carving.Ntfs

def signature : Signature where
  patterns := [[0xEB, 0x52, 0x90, 0x4E, 0x54, 0x46, 0x53, 0x20, 0x20, 0x20, 0x20]]
  matchOffset := 0
  constraint := "bytes per sector high byte non-zero, 55 AA at offset 510"

/-- The boot sector with both parameter blocks. -/
def bootSector : Layout where
  name := "ntfs_boot"
  fields := [
    ⟨"jmp_ins", .bytes 3⟩,
    ⟨"oem_id", .chars 8⟩,
    ⟨"bytes_per_sector", .u16⟩,
    ⟨"sectors_per_cluster", .u8⟩,
    ⟨"unused1", .bytes 7⟩,
    ⟨"media_descriptor", .u8⟩,
    ⟨"unused2", .bytes 2⟩,
    ⟨"sectors_per_track", .u16⟩,
    ⟨"heads", .u16⟩,
    ⟨"hidden_sectors", .u32⟩,
    ⟨"unused3", .bytes 4⟩,
    ⟨"unused4", .bytes 4⟩,
    ⟨"total_sectors", .u64⟩,
    ⟨"mft_cluster_number", .u64⟩,
    ⟨"mft_mirror_cluster_number", .u64⟩,
    ⟨"record_size", .u8⟩,
    ⟨"unused5", .bytes 3⟩,
    ⟨"index_size", .u8⟩,
    ⟨"unused6", .bytes 3⟩,
    ⟨"serial_num", .u64⟩,
    ⟨"checksum", .u32⟩,
    ⟨"bootstrap_code", .bytes 426⟩,
    ⟨"boot_magic", .u16⟩]

def greatest : Nat := capacity 8 - 1

def saturatingAdd (a b : Nat) : Nat := min (a + b) greatest

def saturatingMul (a b : Nat) : Nat := min (a * b) greatest

/-- The chunk of the volume whose boot sector is at `start`, unless the volume is empty. -/
def boundary (start : Nat) : Probe (Option Chunk) := do
  Source.seek start
  let record ← bootSector.parse .little
  let sectors ← Probe.ofExcept (record.number "total_sectors")
  let sectorSize ← Probe.ofExcept (record.number "bytes_per_sector")
  let volumeSize := saturatingMul sectors sectorSize
  if volumeSize = 0 then
    Probe.report (.volumeEmpty start)
    return none
  let stop := saturatingAdd (saturatingAdd start record.size) volumeSize
  let length ← Source.length
  Probe.ofExcept ((Chunk.within start stop length).map some)

end Carving.Ntfs
