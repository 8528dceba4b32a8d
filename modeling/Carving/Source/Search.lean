import Carving.Arithmetic
import Carving.Bytes.Occurrence
import Carving.Source.Basic

/-!
# Searching a source

`skipRun` passes over equal bytes from the position on. `findAll` lists every occurrence of a
pattern in the whole source; it reads in blocks, and keeps from each block the bytes in which an
occurrence may begin that ends in the next.
-/

namespace Carving.Source

open Arithmetic (add)

def blockSize : Nat := 65536

/-- Passes over a run of one byte that begins at the position of the source. -/
def skipRunFrom [Arithmetic] (byte : UInt8) (s : Source) : EStateM.Result Error Source Nat :=
  match (⟨fill blockSize s, rfl⟩ : { r // fill blockSize s = r }) with
  | ⟨.error e s', _⟩ => .error e s'
  | ⟨.ok [] s', _⟩ => .ok s.position s'
  | ⟨.ok (b :: bytes) s', _h⟩ =>
    match (b :: bytes).findIdx? (· != byte) with
    | some i =>
      match add s.position i with
      | .ok stop => .ok stop { s' with position := stop }
      | .error e => .error e s'
    | none => skipRunFrom byte s'
termination_by s.remaining
decreasing_by exact fill_remaining_lt _h (by simp)

/-- Passes over a run of one byte, and returns the offset behind it. -/
def skipRun [Arithmetic] (byte : UInt8) : Reading Nat := skipRunFrom byte

/-- Where in the source the occurrences in a window stand, and where the window begins once its
first bytes are dropped. -/
def advanceWindow [Arithmetic] (pattern window : List UInt8) (offset dropped : Nat) :
    Except Error (List Nat × Nat) := do
  return (← (resumedFrom pattern window 0).mapM (add offset), ← add offset dropped)

/-- The occurrences of a pattern from a window on. The window starts at `offset` and holds the
last bytes before the position, too few of them for an occurrence. -/
def findFrom [Arithmetic] (pattern window : List UInt8) (offset : Nat) (s : Source) :
    EStateM.Result Error Source (List Nat) :=
  match (⟨fill blockSize s, rfl⟩ : { r // fill blockSize s = r }) with
  | ⟨.error e s', _⟩ => .error e s'
  | ⟨.ok [] s', _⟩ => .ok [] s'
  | ⟨.ok (b :: bytes) s', _h⟩ =>
    let window := window ++ b :: bytes
    let dropped := window.length - min (pattern.length - 1) window.length
    match advanceWindow pattern window offset dropped with
    | .error e => .error e s'
    | .ok (found, next) =>
      match findFrom pattern (window.drop dropped) next s' with
      | .error e s'' => .error e s''
      | .ok more s'' => .ok (found ++ more) s''
termination_by s.remaining
decreasing_by exact fill_remaining_lt _h (by simp)

/-- The offsets of all occurrences of a pattern in the source, in ascending order. -/
def findAll [Arithmetic] (pattern : List UInt8) : Reading (List Nat) := do
  if pattern.isEmpty then return []
  seek 0
  findFrom pattern [] 0

end Carving.Source
