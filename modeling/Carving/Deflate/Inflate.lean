import Carving.Deflate.Block

/-!
# Decoding a stream

A stream is a sequence of blocks up to the one that is marked as the last. `run` decodes as far
as it can: to the end of the stream, to the end of the bits, to corrupt bits, or to a byte that the
output has no room for. `inflate` decodes a whole stream at once, with room for everything.

The standard forbids copies from before the first byte of the output. This decoder does not refuse
them, it takes zeros for the bytes that lie there.
-/

namespace Carving.Deflate

/-- Where among its blocks a stream has been decoded to. -/
inductive Phase
  | between
  | stored (last : Bool) (left : Nat)
  | coded (last : Bool) (literalCode distanceCode : Code)
  | finished
  deriving DecidableEq, Repr

/-- What has been decoded and not yet been written. -/
inductive Pending
  | nothing
  | literal (byte : UInt8)
  | copy (length distance : Nat)
  deriving DecidableEq, Repr

/-- A stream that has been decoded in part, with all its output so far. -/
structure State where
  phase : Phase
  pending : Pending
  output : Array UInt8
  deriving DecidableEq, Repr

inductive Stop
  | finished
  | short
  | full
  | corrupt
  deriving DecidableEq, Repr

def State.start : State := ⟨.between, .nothing, #[]⟩

def Phase.after (last : Bool) : Phase := if last then .finished else .between

def Phase.inside (last : Bool) : Block → Phase
  | .stored count => .stored last count
  | .coded literalCode distanceCode => .coded last literalCode distanceCode

/-- How many of `count` more bytes an output of the given size has room for. -/
def roomFor (limit : Option Nat) (size count : Nat) : Nat :=
  match limit with
  | none => count
  | some limit => min count (limit - size)

/-- Writes bytes again that stand at a distance behind the end. Zeros are taken for those that lie
before the first byte. -/
def copyBack : (count distance : Nat) → Array UInt8 → Array UInt8
  | 0, _, output => output
  | count + 1, distance, output =>
    copyBack count distance
      (output.push (if distance ≤ output.size then output.getD (output.size - distance) 0 else 0))

namespace Pending

/-- Takes up a token of a block; nothing is pending at the block's end. -/
def ofToken : Token → Pending
  | .literal byte => literal byte
  | .copy length distance => copy length distance
  | .endOfBlock => nothing

def size : Pending → Nat
  | nothing => 0
  | literal _ => 1
  | copy length _ => length

/-- Bounds the writes until nothing is pending. -/
def weight : Pending → Nat
  | nothing => 0
  | literal _ => 1
  | copy length _ => length + 1

end Pending

/-- Bounds the changes of phase that take no bits. -/
def Phase.weight : Phase → Nat
  | stored _ _ => 1
  | _ => 0

/-- Decodes as far as it can. The output never grows beyond the limit. -/
def run (limit : Option Nat) (s : State) (r : BitReader) : Stop × State × BitReader :=
  match s with
  | ⟨phase, .literal byte, output⟩ =>
    if roomFor limit output.size 1 = 0 then (.full, ⟨phase, .literal byte, output⟩, r)
    else run limit ⟨phase, .nothing, output.push byte⟩ r
  | ⟨phase, .copy length distance, output⟩ =>
    let count := roomFor limit output.size length
    let output := copyBack count distance output
    if count < length then (.full, ⟨phase, .copy (length - count) distance, output⟩, r)
    else run limit ⟨phase, .nothing, output⟩ r
  | ⟨.finished, .nothing, output⟩ => (.finished, ⟨.finished, .nothing, output⟩, r)
  | ⟨.between, .nothing, output⟩ =>
    match _h : Block.read r with
    | .done (last, block) rest => run limit ⟨.inside last block, .nothing, output⟩ rest
    | .short => (.short, ⟨.between, .nothing, output⟩, r)
    | .corrupt => (.corrupt, ⟨.between, .nothing, output⟩, r)
  | ⟨.stored last 0, .nothing, output⟩ => run limit ⟨.after last, .nothing, output⟩ r
  | ⟨.stored last (left + 1), .nothing, output⟩ =>
    if roomFor limit output.size 1 = 0 then
      (.full, ⟨.stored last (left + 1), .nothing, output⟩, r)
    else
      match _h : Parser.byte r with
      | .done byte rest => run limit ⟨.stored last left, .nothing, output.push byte⟩ rest
      | .short => (.short, ⟨.stored last (left + 1), .nothing, output⟩, r)
      | .corrupt => (.corrupt, ⟨.stored last (left + 1), .nothing, output⟩, r)
  | ⟨.coded last literalCode distanceCode, .nothing, output⟩ =>
    match _h : Token.read literalCode distanceCode r with
    | .done .endOfBlock rest => run limit ⟨.after last, .nothing, output⟩ rest
    | .done token rest =>
      run limit ⟨.coded last literalCode distanceCode, .ofToken token, output⟩ rest
    | .short => (.short, ⟨.coded last literalCode distanceCode, .nothing, output⟩, r)
    | .corrupt => (.corrupt, ⟨.coded last literalCode distanceCode, .nothing, output⟩, r)
termination_by (r.size, s.pending.weight, s.phase.weight)
decreasing_by
  · exact Prod.Lex.right _ (Prod.Lex.left _ _ (by simp [Pending.weight]))
  · exact Prod.Lex.right _ (Prod.Lex.left _ _ (by simp [Pending.weight]))
  · exact Prod.Lex.left _ _ (Block.eats_read _ _ _ _h)
  · refine Prod.Lex.right _ (Prod.Lex.right _ ?_)
    cases last <;> simp [Phase.weight, Phase.after]
  · exact Prod.Lex.left _ _ (Parser.eats_byte _ _ _ _h)
  · exact Prod.Lex.left _ _ (Token.eats_read _ _ _ _ _ _h)
  · exact Prod.Lex.left _ _ (Token.eats_read _ _ _ _ _ _h)

inductive Inflated
  /-- The stream is complete, and `unused` follows the byte that holds its last bit. -/
  | complete (output : List UInt8) (unused : List UInt8)
  | unfinished
  | corrupt
  deriving DecidableEq, Repr

/-- Decodes the stream that some bytes begin with, and those besides whose copies lead before the
output. -/
def inflate (bytes : List UInt8) : Inflated :=
  match run none .start (.ofBytes bytes) with
  | (.finished, s, r) => .complete s.output.toList r.bytes
  | (.corrupt, _, _) => .corrupt
  | _ => .unfinished

end Carving.Deflate
