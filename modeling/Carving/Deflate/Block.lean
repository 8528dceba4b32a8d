import Carving.Deflate.Token

/-!
# The beginning of a block

A block begins with a mark on the last one and its kind: stored bytes with their count, the fixed
codes, or codes that the block itself describes. The lengths of such codes are themselves
written with a code, in which three symbols stand for runs.
-/

namespace Carving.Deflate

inductive Block
  | stored (count : Nat)
  | coded (literalCode distanceCode : Code)
  deriving DecidableEq, Repr

namespace Block

/-- The order in which the lengths of the code for code lengths are written. -/
def lengthOrder : List Nat :=
  [16, 17, 18, 0, 8, 7, 9, 6, 10, 5, 11, 4, 12, 3, 13, 2, 14, 1, 15]

def fixedLiterals : Code :=
  Code.ofLengths (List.replicate 144 8 ++ List.replicate 112 9 ++ List.replicate 24 7
    ++ List.replicate 8 8)

def fixedDistances : Code := Code.ofLengths (List.replicate 32 5)

/-- Takes what belongs to a symbol of the code for code lengths: a length, and how many symbols
beyond the first have it. -/
def readRun (symbol : Nat) (previous : Option Nat) : Parser (Nat × Nat) :=
  if symbol < 16 then Parser.pure (symbol, 0)
  else if symbol = 16 then
    match previous with
    | none => Parser.fail
    | some length => (Parser.number 2).bind fun n => Parser.pure (length, 2 + n)
  else if symbol = 17 then (Parser.number 3).bind fun n => Parser.pure (0, 2 + n)
  else (Parser.number 7).bind fun n => Parser.pure (0, 10 + n)

/-- Takes the code lengths of `left` more symbols, behind those already taken. -/
def readLengths (code : Code) (left : Nat) (taken : Array Nat) : Parser (List Nat) :=
  match left with
  | 0 => Parser.pure taken.toList
  | left + 1 =>
    code.read.bind fun symbol => (readRun symbol taken.back?).bind fun (length, more) =>
      if left < more then Parser.fail
      else readLengths code (left - more) (taken ++ Array.replicate (more + 1) length)
termination_by left
decreasing_by omega

/-- How two codes are described: how many symbols each has, and the code for their lengths. -/
structure Shape where
  literals : Nat
  distances : Nat
  code : Code
  deriving DecidableEq, Repr

def readShape : Parser Shape := do
  let literals := 257 + (← Parser.number 5)
  let distances := 1 + (← Parser.number 5)
  let count := 4 + (← Parser.number 4)
  Parser.check (literals ≤ 286 && distances ≤ 30)
  let written ← (Parser.number 3).times count
  let lengths := (List.range 19).map fun s => (written[lengthOrder.idxOf s]?).getD 0
  Parser.check (Code.isComplete lengths)
  return ⟨literals, distances, Code.ofLengths lengths⟩

def readCodes : Parser Block := do
  let shape ← readShape
  let lengths ← readLengths shape.code (shape.literals + shape.distances) #[]
  let literalLengths := lengths.take shape.literals
  let distanceLengths := lengths.drop shape.literals
  Parser.check (Code.isUsable literalLengths && Code.isUsable distanceLengths)
  return coded (Code.ofLengths literalLengths) (Code.ofLengths distanceLengths)

/-- Takes the count of a stored block, which is written twice, the second time inverted. -/
def readStored : Parser Block :=
  Parser.align.bind fun _ => (Parser.byte.times 4).bind fun bytes =>
    match bytes with
    | [low, high, lowInverse, highInverse] =>
      if lowInverse = ~~~low ∧ highInverse = ~~~high then
        Parser.pure (stored (low.toNat + 256 * high.toNat))
      else Parser.fail
    | _ => Parser.fail

def ofKind : Nat → Parser Block
  | 0 => readStored
  | 1 => Parser.pure (coded fixedLiterals fixedDistances)
  | 2 => readCodes
  | _ => Parser.fail

/-- Takes the beginning of a block, and whether the block is the last. -/
def read : Parser (Bool × Block) :=
  Parser.bit.bind fun last => (Parser.number 2).bind fun kind =>
    (ofKind kind).bind fun block => Parser.pure (last, block)

theorem shrinks_readRun (symbol : Nat) (previous : Option Nat) :
    (readRun symbol previous).Shrinks := by
  unfold readRun
  split
  · exact Parser.shrinks_pure _
  · split
    · split
      · exact Parser.shrinks_fail
      · exact (Parser.shrinks_number 2).bind fun _ => Parser.shrinks_pure _
    · split
      · exact (Parser.shrinks_number 3).bind fun _ => Parser.shrinks_pure _
      · exact (Parser.shrinks_number 7).bind fun _ => Parser.shrinks_pure _

theorem shrinks_readLengths (code : Code) (left : Nat) (taken : Array Nat) :
    (readLengths code left taken).Shrinks := by
  induction left using Nat.strongRecOn generalizing taken with
  | ind left ih =>
    rw [readLengths.eq_def]
    split
    · exact Parser.shrinks_pure _
    · refine (Code.eats_read code).shrinks.bind fun _ => (shrinks_readRun _ _).bind
        fun (length, more) => ?_
      dsimp only
      split
      · exact Parser.shrinks_fail
      · exact ih _ (by omega) _

theorem shrinks_readShape : readShape.Shrinks :=
  (Parser.shrinks_number 5).bind fun _ => (Parser.shrinks_number 5).bind fun _ =>
    (Parser.shrinks_number 4).bind fun _ => (Parser.shrinks_check _).bind fun _ =>
    ((Parser.shrinks_number 3).times _).bind fun _ => (Parser.shrinks_check _).bind fun _ =>
    Parser.shrinks_pure _

theorem shrinks_readCodes : readCodes.Shrinks :=
  shrinks_readShape.bind fun _ => (shrinks_readLengths _ _ _).bind fun _ =>
    (Parser.shrinks_check _).bind fun _ => Parser.shrinks_pure _

theorem shrinks_readStored : readStored.Shrinks :=
  Parser.shrinks_align.bind fun _ => (Parser.eats_byte.shrinks.times 4).bind fun bytes => by
    split
    · split
      · exact Parser.shrinks_pure _
      · exact Parser.shrinks_fail
    · exact Parser.shrinks_fail

theorem shrinks_ofKind (kind : Nat) : (ofKind kind).Shrinks := by
  unfold ofKind
  split
  · exact shrinks_readStored
  · exact Parser.shrinks_pure _
  · exact shrinks_readCodes
  · exact Parser.shrinks_fail

theorem eats_read : read.Eats :=
  Parser.eats_bit.bind fun _ => (Parser.shrinks_number 2).bind fun kind =>
    (shrinks_ofKind kind).bind fun _ => Parser.shrinks_pure _

end Block

end Carving.Deflate
