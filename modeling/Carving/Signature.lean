import Carving.Bytes.Occurrence

/-!
# Signatures

A signature is a set of byte patterns. Wherever one of them occurs a chunk may begin, at a fixed
distance from the occurrence.
-/

namespace Carving

structure Signature where
  patterns : List (List UInt8)
  /-- The distance from an occurrence to the beginning of the candidate. -/
  matchOffset : Int
  /-- What else holds of a candidate, in words. -/
  constraint : String
  deriving DecidableEq, Repr

namespace Signature

/-- Where a candidate begins whose pattern occurs at the offset, if it lies within the data. -/
def startOf (matchOffset : Int) (offset : Nat) : Option Nat :=
  let start := (offset : Int) + matchOffset
  if 0 ≤ start then some start.toNat else none

/-- The beginnings of all candidates in the data, in ascending order and each once. -/
def candidates (s : Signature) (data : List UInt8) : List Nat :=
  let found := s.patterns.flatMap fun pattern =>
    (resumedFrom pattern data 0).filterMap (startOf s.matchOffset)
  (found.mergeSort (· ≤ ·)).eraseReps

end Signature

end Carving
