import Carving.Bytes.Number
import Carving.Error
import Carving.Source.Basic

/-!
# What a calculation reports on its way

A calculation works on a source and reports the decisions that its answer alone does not show.
-/

namespace Carving

inductive Severity
  | trace
  | debug
  | info
  | warn
  | error
  deriving DecidableEq, Repr

def Severity.name : Severity → String
  | trace => "TRACE"
  | debug => "DEBUG"
  | info => "INFO"
  | warn => "WARN"
  | error => "ERROR"

inductive Event
  | memberInflated (compressed size unused : Nat)
  | paddingAbsorbed (count : Nat)
  | terminatorAbsorbed (offset : Nat)
  | volumeEmpty (offset : Nat)
  | superblockRead (order : Endian) (blocks blockSize : Nat)
  | tooFewBlocks
  | blockSizeGuessed (size : Nat)
  deriving DecidableEq, Repr

namespace Event

def severity : Event → Severity
  | memberInflated .. | paddingAbsorbed _ | terminatorAbsorbed _ => .trace
  | volumeEmpty _ | superblockRead .. | tooFewBlocks | blockSizeGuessed _ => .debug

def message : Event → String
  | memberInflated compressed size unused =>
    s!"gzip member inflated: {compressed} compressed bytes, {size} bytes out, {unused} unused"
  | paddingAbsorbed count => s!"absorbed {count} bytes of zero padding after gzip member"
  | terminatorAbsorbed offset => s!"absorbing trailing LZH terminator at 0x{hex offset}"
  | volumeEmpty offset => s!"zero-sized NTFS volume at 0x{hex offset}"
  | superblockRead order blocks blockSize =>
    let name := match order with
      | .little => "Little"
      | .big => "Big"
    s!"UBIFS superblock ({name} endian): {blocks} LEBs of {blockSize} bytes"
  | tooFewBlocks => "too few UBI erase blocks to infer the PEB size"
  | blockSizeGuessed size => s!"guessed UBI PEB size: {size} bytes"

end Event

/-- A source under examination, and what has been reported about it, in order. -/
structure Session where
  source : Source
  log : List Event

abbrev Probe (α : Type) := EStateM Error Session α

namespace Probe

variable {α : Type}

def ofReading (act : Reading α) : Probe α := fun s =>
  match act s.source with
  | .ok a source => .ok a { s with source := source }
  | .error e source => .error e { s with source := source }

instance : MonadLift Reading Probe := ⟨ofReading⟩

def report (event : Event) : Probe Unit := fun s => .ok () { s with log := s.log ++ [event] }

/-- Gives up if there is no answer. -/
def ofExcept (answer : Except Error α) : Probe α := fun s =>
  match answer with
  | .ok a => .ok a s
  | .error e => .error e s

end Probe

/-- A session on a source of which nothing has been reported. -/
def Session.ofSource (source : Source) : Session := ⟨source, []⟩

end Carving
