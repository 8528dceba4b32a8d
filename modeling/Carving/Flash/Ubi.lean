import Carving.Chunk
import Carving.Event
import Carving.Geometry.Stride
import Carving.Signature

/-!
# Where a UBI image ends

An image is a sequence of blocks that all begin with the same marker. The size of a block is
inferred from the distances between markers, and the image ends before the first block that does
not begin with one.
-/

namespace Carving.Ubi

open Arithmetic (add)

def marker : List UInt8 := [0x55, 0x42, 0x49, 0x23]

def signature : Signature where
  patterns := [marker ++ [1]]
  matchOffset := 0
  constraint := "erase-counter header magic followed by version 1"

/-- Reads as many bytes at an offset as a marker has. -/
def fillAt (offset : Nat) : Reading (List UInt8) := fun s =>
  Source.fill marker.length { s with position := offset }

/-- A marker that is read lies within the source. -/
theorem fillAt_marker {s s' : Source} {offset : Nat} (h : fillAt offset s = .ok marker s') :
    s'.content = s.content ∧ offset + marker.length ≤ s.content.size := by
  obtain ⟨-, -, h1, h2, h3⟩ := Source.fill_ok h
  exact ⟨h1, h2 ▸ h3 (by decide)⟩

/-- The first of the offsets `offset`, `offset + stride`, … at which there is no marker. Without a
stride there is none behind a marker; the walk, which would not end, is broken off there. -/
def walk [Arithmetic] (stride offset : Nat) (s : Source) : EStateM.Result Error Source Nat :=
  match (⟨fillAt offset s, rfl⟩ : { r // fillAt offset s = r }) with
  | ⟨.error e s', _⟩ => .error e s'
  | ⟨.ok bytes s', _h⟩ =>
    if bytes = marker ∧ stride ≠ 0 then
      match (⟨add offset stride, rfl⟩ : { r // add offset stride = r }) with
      | ⟨.ok next, _hnext⟩ => walk stride next s'
      | ⟨.error e, _⟩ => .error e s'
    else .ok offset s'
termination_by s.content.size - offset
decreasing_by
  rename_i hc
  obtain ⟨h1, h2⟩ := fillAt_marker (hc.1 ▸ _h)
  have : marker.length = 4 := rfl
  rw [h1, Arithmetic.eq_of_add _hnext]
  omega

/-- The offset behind the blocks that follow each other from `start` on. -/
def walkBlocks [Arithmetic] (start stride : Nat) : Reading Nat := walk stride start

def guessBlockSize [Arithmetic] : Reading (Option Nat) := fun s =>
  match inferStride marker s with
  | .ok stride s => .ok (some stride) s
  | .error .strideNotFound s => .ok none s
  | .error e s => .error e s

/-- The chunk of the image whose first block is at `start`, if one is. The last block may be cut
off by the end of the source. -/
def boundary [Arithmetic] (start : Nat) : Probe (Option Chunk) := do
  match ← guessBlockSize with
  | none =>
    Probe.report .tooFewBlocks
    return none
  | some blockSize =>
    Probe.report (.blockSizeGuessed blockSize)
    let length ← Source.length
    let stop := min (← walkBlocks start blockSize) length
    if stop ≤ start then return none
    Probe.ofExcept ((Chunk.within start stop length).map some)

end Carving.Ubi
