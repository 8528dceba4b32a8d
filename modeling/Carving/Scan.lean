import Carving.Format

/-!
# Scanning data for chunks

A scan tries every candidate of every format that is asked for. Candidates that their format
rejects are passed over; any other failure ends the scan. What is found is sorted by its bounds, and
then cut off at the greatest number of chunks.
-/

namespace Carving

structure Finding where
  format : Format
  chunk : Chunk
  deriving DecidableEq, Repr

structure ScanConfig where
  formats : List Format := Format.all
  /-- The most chunks that are returned; zero stands for no bound. -/
  maxChunks : Nat := 0
  /-- The size below which chunks are dropped. -/
  minChunkSize : Nat := 1
  deriving DecidableEq, Repr

namespace Finding

/-- The order of findings: by their start, and then by their end. -/
def le (a b : Finding) : Bool :=
  a.chunk.start < b.chunk.start || a.chunk.start = b.chunk.start && a.chunk.stop ≤ b.chunk.stop

end Finding

/-- The finding at one candidate, unless the format rejects it or the chunk is too small. -/
def probe (minChunkSize : Nat) (content : Array UInt8) (format : Format) (start : Nat) :
    Except Error (Option Finding) :=
  match format.boundaryIn content start with
  | .ok (some chunk) => .ok (if chunk.size < minChunkSize then none else some ⟨format, chunk⟩)
  | .ok none => .ok none
  | .error e => if e.rejectsCandidate then .ok none else .error e

def probeAll (minChunkSize : Nat) (content : Array UInt8) :
    List (Format × Nat) → Except Error (List Finding)
  | [] => .ok []
  | (format, start) :: rest => do
    let found ← probe minChunkSize content format start
    let others ← probeAll minChunkSize content rest
    return found.toList ++ others

/-- Every candidate of every format, in the order of the formats. -/
def candidates (formats : List Format) (data : List UInt8) : List (Format × Nat) :=
  formats.flatMap fun format => (format.signature.candidates data).map (format, ·)

def limit (maxChunks : Nat) (findings : List Finding) : List Finding :=
  if maxChunks = 0 then findings else findings.take maxChunks

/-- All findings in the data, sorted and limited. -/
def scan (config : ScanConfig) (content : Array UInt8) : Except Error (List Finding) := do
  let found ← probeAll config.minChunkSize content (candidates config.formats content.toList)
  return limit config.maxChunks (found.mergeSort Finding.le)

end Carving
