import Carving.Source.Search

/-!
# Distances between markers

Blocks of one size that all begin with the same marker show their size by the distance between
markers that follow each other. The distance that occurs most often is taken, and of several such
distances the one that occurs first.
-/

namespace Carving

def gaps (offsets : List Nat) : List Nat :=
  List.zipWith (fun a b => b - a) offsets offsets.tail

section Counting

variable {m : Type → Type} [Monad m]

/-- Counts a value once more. What follows a count is told by `next`. -/
def bump (next : Nat → m Nat) (value : Nat) : List (Nat × Nat) → m (List (Nat × Nat))
  | [] => return [(value, 1)]
  | (v, count) :: counts => do
    if v = value then return (v, ← next count) :: counts
    return (v, count) :: (← bump next value counts)

/-- How often each value occurs, in the order in which the values occur first. -/
def tally (next : Nat → m Nat) (values : List Nat) : m (List (Nat × Nat)) :=
  values.foldlM (fun counts value => bump next value counts) []

end Counting

/-- The entry with the greatest count, the first of several. -/
def mostFrequent : List (Nat × Nat) → Option (Nat × Nat)
  | [] => none
  | entry :: entries =>
    match mostFrequent entries with
    | none => some entry
    | some best => if entry.2 < best.2 then some best else some entry

def mode (values : List Nat) : Option Nat :=
  (mostFrequent (tally (m := Id) (· + 1) values)).map (·.1)

/-- The most frequent distance between occurrences of a marker in the source. -/
def inferStride [Arithmetic] (marker : List UInt8) : Reading Nat := do
  match tally (Arithmetic.add · 1) (gaps (← Source.findAll marker)) with
  | .ok counts =>
    match mostFrequent counts with
    | some (stride, _) => return stride
    | none => throw .strideNotFound
  | .error e => throw e

end Carving
