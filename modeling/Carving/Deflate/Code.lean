import Carving.Deflate.BitReader

/-!
# Prefix codes

A prefix code is a binary tree with symbols at its leaves: a zero bit goes to the left, a one bit
to the right. A canonical code is given by the length of each symbol's code word alone; words of
one length are consecutive and in the order of their symbols, and shorter words come first.
-/

namespace Carving.Deflate

/-- A part of a code below some bits. A gap is a place that no symbol has. -/
inductive Tree
  | gap
  | leaf (symbol : Nat)
  | node (zero one : Tree)
  deriving DecidableEq, Repr

/-- A prefix code. Every word has at least one bit. -/
structure Code where
  zero : Tree
  one : Tree
  deriving DecidableEq, Repr

def maxLength : Nat := 15

namespace Tree

/-- Follows bits down to a symbol. A word that no symbol has is corrupt. -/
def read : Tree → Parser Nat
  | gap => Parser.fail
  | leaf symbol => Parser.pure symbol
  | node zero one => Parser.bit.bind fun b => if b then one.read else zero.read

/-- Fills a tree that stands at `depth`, with `levels` more below it, from code lengths and their
symbols in code order, and returns with it those that found no place. -/
def fill : (levels depth : Nat) → List (Nat × Nat) → Tree × List (Nat × Nat)
  | _, _, [] => (gap, [])
  | 0, depth, (length, symbol) :: rest =>
    if length = depth then (leaf symbol, rest) else (gap, (length, symbol) :: rest)
  | levels + 1, depth, (length, symbol) :: rest =>
    if length = depth then (leaf symbol, rest)
    else
      let (zero, afterZero) := fill levels (depth + 1) ((length, symbol) :: rest)
      let (one, afterOne) := fill levels (depth + 1) afterZero
      (node zero one, afterOne)

theorem shrinks_read : ∀ t : Tree, t.read.Shrinks
  | gap => Parser.shrinks_fail
  | leaf symbol => Parser.shrinks_pure symbol
  | node zero one => Parser.eats_bit.shrinks.bind fun b => by
    cases b
    · exact shrinks_read zero
    · exact shrinks_read one

end Tree

namespace Code

def read (code : Code) : Parser Nat :=
  Parser.bit.bind fun b => if b then code.one.read else code.zero.read

/-- The code lengths in use with their symbols, in code order. -/
def inOrder (lengths : List Nat) : List (Nat × Nat) :=
  (List.range' 1 maxLength).flatMap fun length =>
    lengths.zipIdx.filterMap fun (l, symbol) => if l = length then some (l, symbol) else none

/-- The canonical code with the given code length for each symbol; length zero means unused. -/
def ofLengths (lengths : List Nat) : Code :=
  let (zero, afterZero) := Tree.fill (maxLength - 1) 1 (inOrder lengths)
  ⟨zero, (Tree.fill (maxLength - 1) 1 afterZero).1⟩

/-- How many words of the greatest length begin with the word of a symbol in use. -/
def mass (lengths : List Nat) : Nat :=
  lengths.foldr (fun l rest => (if l = 0 then 0 else 1 <<< (maxLength - l)) + rest) 0

/-- Every sequence of bits begins with the word of exactly one symbol. -/
def isComplete (lengths : List Nat) : Bool :=
  mass lengths = 1 <<< maxLength

/-- The code is complete, or it is empty, or it has a single word of one bit. -/
def isUsable (lengths : List Nat) : Bool :=
  isComplete lengths || mass lengths = 0 || lengths.filter (· ≠ 0) = [1]

theorem eats_read (code : Code) : code.read.Eats :=
  Parser.eats_bit.bind fun b => by
    cases b
    · exact Tree.shrinks_read code.zero
    · exact Tree.shrinks_read code.one

end Code

end Carving.Deflate
