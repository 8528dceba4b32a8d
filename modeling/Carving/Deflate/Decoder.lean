import Carving.Deflate.Lookahead

/-!
# Decoding a stream piece by piece

A decoder is given the stream's bytes in pieces and hands its output over in pieces. It writes into
a window of 32 KiB and stops where the window ends, so that what it has written is handed over
before it is overwritten. Whole bytes that it has not begun go back to the caller, except when
the bits run out: then it keeps what it could not decode. A stored byte that it has looked ahead to
where the window ends is taken as well.
-/

namespace Carving.Deflate

/-- The size of the window, and the most output that one call hands over. -/
def windowSize : Nat := 32768

structure Decoder where
  state : State
  /-- The bits of bytes taken earlier that are not yet decoded. -/
  kept : BitReader
  delivered : Nat
  stop : Stop
  taken : Nat

structure Progress where
  consumed : Nat
  produced : List UInt8
  /-- The stream is complete and all its output is handed over. -/
  ended : Bool

namespace Decoder

def start : Decoder := ⟨.start, .ofBytes [], 0, .short, 0⟩

def waiting (d : Decoder) : Nat := d.state.output.size - d.delivered

/-- What is read next: the kept bits, and the given bytes behind them. The kept bits are loaded. -/
def lookahead (d : Decoder) (input : List UInt8) : Lookahead :=
  ⟨d.kept, input, d.stop = .short⟩

/-- Decodes up to the end of the window, and returns how many of the given bytes are left. -/
def advance (d : Decoder) (input : List UInt8) : Decoder × Nat :=
  let l := d.lookahead input
  let ⟨state, _, delivered, _, taken⟩ := d
  let windowEnd := (state.output.size / windowSize + 1) * windowSize
  match runAhead windowEnd state l with
  | (.short, state, rest) => (⟨state, rest, delivered, .short, taken + input.length⟩, 0)
  | (stop, state, rest) =>
    let left := min rest.bytes.length input.length
    (⟨state, ⟨rest.bits, []⟩, delivered, stop, taken + (input.length - left)⟩, left)

def deliver (d : Decoder) (consumed : Nat) : Progress × Decoder :=
  let stop := min d.state.output.size (d.delivered + windowSize)
  let produced := (d.state.output.extract d.delivered stop).toList
  let ended := d.stop = .finished && stop = d.state.output.size
  (⟨consumed, produced, ended⟩, { d with delivered := stop })

/-- Advances to the end of the window, and once more if input is left and the call may still hand
over more. -/
def advanceTwice (d : Decoder) (input : List UInt8) : Decoder × Nat :=
  let (d, left) := d.advance input
  if d.stop = .full ∧ left ≠ 0 ∧ d.waiting < windowSize then
    d.advance (input.drop (input.length - left))
  else (d, left)

/-- One call on some bytes. Output that waits is handed over first, and nothing else is then done;
otherwise the decoder advances. The call fails if it meets corrupt bits, or an earlier call did. -/
def decode (d : Decoder) (input : List UInt8) : Option Progress × Decoder :=
  if d.stop = .corrupt then (none, d)
  else if d.waiting ≠ 0 then
    let (progress, d) := d.deliver 0
    (some progress, d)
  else
    let (d, left) := d.advanceTwice input
    if d.stop = .corrupt then (none, d)
    else
      let (progress, d) := d.deliver (input.length - left)
      (some progress, d)

end Decoder

end Carving.Deflate
