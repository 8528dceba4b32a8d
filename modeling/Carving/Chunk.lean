import Carving.Bytes.Number
import Carving.Error

/-!
# Chunks

A chunk is a part of a source, given by the offset of its first byte and the offset behind its
last. It is never empty.
-/

namespace Carving

/-- A non-empty range of offsets. -/
structure Chunk where
  start : Nat
  stop : Nat
  start_lt_stop : start < stop := by omega
  deriving DecidableEq, Repr

namespace Chunk

/-- The chunk between two offsets, if it is not empty and lies within a source of that length. -/
def within (start stop length : Nat) : Except Error Chunk :=
  if h : start < stop ∧ stop ≤ length then .ok ⟨start, stop, h.1⟩
  else .error (.invalidChunk start stop length)

def size (c : Chunk) : Nat := c.stop - c.start

def slice (c : Chunk) (content : Array UInt8) : List UInt8 :=
  (content.extract c.start c.stop).toList

def render (c : Chunk) : String := s!"0x{hex c.start}-0x{hex c.stop}"

theorem size_pos (c : Chunk) : 0 < c.size := Nat.sub_pos_of_lt c.start_lt_stop

theorem within_of_le {start stop length : Nat} (h : start < stop) (hl : stop ≤ length) :
    within start stop length = .ok ⟨start, stop, h⟩ :=
  dif_pos ⟨h, hl⟩

theorem within_eq_ok_iff {start stop length : Nat} {c : Chunk} :
    within start stop length = .ok c ↔ c.start = start ∧ c.stop = stop ∧ stop ≤ length := by
  unfold within
  obtain ⟨s, e, hc⟩ := c
  split
  · simp only [Except.ok.injEq, mk.injEq]
    omega
  · simp only [reduceCtorEq, false_iff]
    omega

end Chunk

end Carving
