import Carving.Deflate.Code

/-!
# The tokens of a compressed block

A token is a byte to write, a stretch of earlier output to write again, or the end of the block.
-/

namespace Carving.Deflate

/-- What one symbol, with its extra bits and its distance, asks for. -/
inductive Token
  | literal (byte : UInt8)
  | copy (length distance : Nat)
  | endOfBlock
  deriving DecidableEq, Repr

namespace Token

def size : Token → Nat
  | literal _ => 1
  | copy length _ => length
  | endOfBlock => 0

/-- The least length and the count of extra bits of each length symbol, from 257 on. -/
def lengths : Array (Nat × Nat) := #[
  (3, 0), (4, 0), (5, 0), (6, 0), (7, 0), (8, 0), (9, 0), (10, 0), (11, 1), (13, 1), (15, 1),
  (17, 1), (19, 2), (23, 2), (27, 2), (31, 2), (35, 3), (43, 3), (51, 3), (59, 3), (67, 4),
  (83, 4), (99, 4), (115, 4), (131, 5), (163, 5), (195, 5), (227, 5), (258, 0)]

/-- The least distance and the count of extra bits of each distance symbol. -/
def distances : Array (Nat × Nat) := #[
  (1, 0), (2, 0), (3, 0), (4, 0), (5, 1), (7, 1), (9, 2), (13, 2), (17, 3), (25, 3), (33, 4),
  (49, 4), (65, 5), (97, 5), (129, 6), (193, 6), (257, 7), (385, 7), (513, 8), (769, 8),
  (1025, 9), (1537, 9), (2049, 10), (3073, 10), (4097, 11), (6145, 11), (8193, 12), (12289, 12),
  (16385, 13), (24577, 13)]

/-- Takes the extra bits of an entry of a table. Entries that are not there are corrupt. -/
def readExtra (entry : Option (Nat × Nat)) : Parser Nat :=
  match entry with
  | none => Parser.fail
  | some (least, extra) => (Parser.number extra).bind fun n => Parser.pure (least + n)

/-- Takes what belongs to a symbol of the first code. -/
def ofSymbol (distanceCode : Code) (symbol : Nat) : Parser Token :=
  if symbol < 256 then Parser.pure (literal (UInt8.ofNat symbol))
  else if symbol = 256 then Parser.pure endOfBlock
  else
    (readExtra lengths[symbol - 257]?).bind fun length =>
      distanceCode.read.bind fun d =>
        (readExtra distances[d]?).bind fun distance => Parser.pure (copy length distance)

def read (literalCode distanceCode : Code) : Parser Token :=
  literalCode.read.bind (ofSymbol distanceCode)

theorem shrinks_readExtra (entry : Option (Nat × Nat)) : (readExtra entry).Shrinks := by
  rcases entry with _ | ⟨least, extra⟩
  · exact Parser.shrinks_fail
  · exact (Parser.shrinks_number extra).bind fun _ => Parser.shrinks_pure _

theorem shrinks_ofSymbol (distanceCode : Code) (symbol : Nat) :
    (ofSymbol distanceCode symbol).Shrinks := by
  unfold ofSymbol
  split
  · exact Parser.shrinks_pure _
  · split
    · exact Parser.shrinks_pure _
    · exact (shrinks_readExtra _).bind fun _ => (Code.eats_read _).shrinks.bind fun _ =>
        (shrinks_readExtra _).bind fun _ => Parser.shrinks_pure _

theorem eats_read (literalCode distanceCode : Code) : (read literalCode distanceCode).Eats :=
  (Code.eats_read literalCode).bind fun s => shrinks_ofSymbol distanceCode s

end Token

end Carving.Deflate
