import Carving.Deflate.Inflate

/-!
# Looking ahead

Whole bytes are loaded into a buffer of bits before a piece of a stream is decoded: as few as the
piece needs, or several at once where plenty of input follows. When decoding stops, what is loaded
and has not been begun is given back, with one exception: if the output has no more room and the
next byte of a stored block is loaded, that byte is taken and waits to be written. What is decoded
does not depend on the buffer, but how much of its input a call takes does.
-/

namespace Carving.Deflate

inductive Loading
  /-- One by one, as many as the piece needs. -/
  | single
  /-- Two at once if a code word might not be loaded; one by one if only one is left. -/
  | double
  /-- Four at once if two code words might not be loaded. -/
  | quadruple
  deriving DecidableEq, Repr

/-- How tokens are decoded: the faster, the more input and room there must be. -/
inductive Pace
  | slow
  | brisk
  | fast
  deriving DecidableEq, Repr

def Pace.loading : Pace → Loading
  | slow => .double
  | brisk | fast => .quadruple

/-- A reader of which the front is loaded. -/
structure Lookahead where
  buffer : BitReader
  behind : List UInt8
  /-- An earlier call ran out of bits, and no piece has been met since that it had too few for. What
  it had the bits for it decoded, so nothing is loaded for that again. -/
  resumed : Bool
  deriving DecidableEq, Repr

namespace Lookahead

def reader (l : Lookahead) : BitReader := l.buffer.append l.behind

def hasBehind (l : Lookahead) (count : Nat) : Bool := (l.behind.take count).length = count

/-- Loads bytes at once, if the rule asks for it. -/
def load (l : Lookahead) (rule : Loading) : Lookahead :=
  let count := match rule with
    | .single => 0
    | .double => if l.buffer.size < maxLength && l.hasBehind 2 then 2 else 0
    | .quadruple => if l.buffer.size < 2 * maxLength then 4 else 0
  ⟨l.buffer.append (l.behind.take count), l.behind.drop count, l.resumed⟩

/-- How the next token is decoded, if the output has room for so many bytes. -/
def pace (l : Lookahead) (room : Nat) : Pace :=
  if room < 2 || !l.hasBehind 4 then .slow
  else if room < 259 || !l.hasBehind 14 then .brisk
  else .fast

/-- How a token is decoded behind its symbol: slowly, if an earlier call has decoded the symbol. -/
def paceBehind (l : Lookahead) (pace : Pace) : Pace := if l.resumed then .slow else pace

def skip (l : Lookahead) (count : Nat) : Lookahead :=
  ⟨⟨l.buffer.bits, l.buffer.bytes.drop count⟩,
    l.behind.drop (count - l.buffer.bytes.length), l.resumed⟩

theorem size_reader (l : Lookahead) : l.reader.size = l.buffer.size + 8 * l.behind.length :=
  l.buffer.size_append l.behind

theorem reader_load (l : Lookahead) (rule : Loading) : (l.load rule).reader = l.reader := by
  simp [reader, load, BitReader.append]

theorem size_skip_le (l : Lookahead) (count : Nat) :
    (l.skip count).reader.size ≤ l.reader.size := by
  rw [size_reader, size_reader]
  simp only [skip, BitReader.size, List.length_drop]
  omega

end Lookahead

/-- A way to take a value from the front of a reader that keeps account of what is loaded. -/
abbrev Loader (α : Type) := StateT Lookahead Option α

namespace Loader

variable {α β : Type}

def takeSingle (p : Parser α) (buffer : BitReader) (behind : List UInt8) :
    Option (α × Lookahead) :=
  match p buffer, behind with
  | .done a rest, behind => some (a, ⟨rest, behind, false⟩)
  | .short, byte :: behind => takeSingle p (buffer.append [byte]) behind
  | _, _ => none

def piece (rule : Loading) (p : Parser α) : Loader α := fun l =>
  match l.resumed, p l.buffer with
  | true, .done a rest => some (a, ⟨rest, l.behind, true⟩)
  | _, _ => takeSingle p (l.load rule).buffer (l.load rule).behind

def passLengths (code : Code) (left : Nat) : Loader Unit :=
  match left with
  | 0 => pure ()
  | left + 1 => do
    let symbol ← piece .double code.read
    let run ← piece .single (Block.readRun symbol (some 0))
    passLengths code (left - run.2)
termination_by left
decreasing_by omega

def passKind : Nat → Loader Unit
  | 0 => do
    let _ ← piece .single Block.readStored
  | 2 => do
    let shape ← piece .single Block.readShape
    passLengths shape.code (shape.literals + shape.distances)
  | _ => pure ()

/-- Takes the beginning of a block, and whether the block is the last. -/
def block : Loader (Bool × Block) := do
  let reader := (← get).reader
  let _ ← piece .single Parser.bit
  passKind (← piece .single (Parser.number 2))
  match Block.read reader with
  | .done value _ => pure value
  | _ => failure

def ofSymbol (distanceCode : Code) (pace : Pace) (symbol : Nat) : Loader Token :=
  if symbol < 256 then pure (.literal (UInt8.ofNat symbol))
  else if symbol = 256 then pure .endOfBlock
  else do
    let isFast := pace = .fast
    let length ← piece (if isFast then .quadruple else .single)
      (Token.readExtra Token.lengths[symbol - 257]?)
    let entry := Token.distances[← piece (if isFast then .single else .double) distanceCode.read]?
    let isLong := entry.any fun (_, extra) => extra ≠ 0
    let distance ← piece (if isFast && isLong then .quadruple else .single) (Token.readExtra entry)
    pure (.copy length distance)

/-- Takes a token, or two of which the first is a literal: unless the pace is slow, the symbol
behind a literal is decoded from what is loaded already. -/
def tokens (literalCode distanceCode : Code) (room : Nat) : Loader (List Token) := do
  let pace := (← get).pace room
  let symbol ← piece pace.loading literalCode.read
  let pace := (← get).paceBehind pace
  let first ← ofSymbol distanceCode pace symbol
  if pace = .slow || 256 ≤ symbol then pure [first]
  else
    let second ← ofSymbol distanceCode pace (← piece .single literalCode.read)
    pure [first, second]

def Shrinks (m : Loader α) : Prop :=
  ∀ l a l', m l = some (a, l') → l'.reader.size ≤ l.reader.size

def Eats (m : Loader α) : Prop :=
  ∀ l a l', m l = some (a, l') → l'.reader.size < l.reader.size

theorem bind_eq_some {m : Loader α} {f : α → Loader β} {l l' : Lookahead} {b : β}
    (h : (m >>= f) l = some (b, l')) : ∃ a mid, m l = some (a, mid) ∧ f a mid = some (b, l') := by
  obtain ⟨⟨a, mid⟩, h1, h2⟩ := Option.bind_eq_some_iff.1 h
  exact ⟨a, mid, h1, h2⟩

theorem shrinks_pure (a : α) : (pure a : Loader α).Shrinks := by
  intro l b l' h
  cases h
  exact Nat.le_refl _

theorem shrinks_get : (get : Loader Lookahead).Shrinks := by
  intro l b l' h
  cases h
  exact Nat.le_refl _

theorem Shrinks.bind {m : Loader α} {f : α → Loader β} (hm : m.Shrinks)
    (hf : ∀ a, (f a).Shrinks) : (m >>= f).Shrinks := by
  intro l b l' h
  obtain ⟨a, mid, h1, h2⟩ := bind_eq_some h
  exact Nat.le_trans (hf a mid b l' h2) (hm l a mid h1)

theorem Eats.bind {m : Loader α} {f : α → Loader β} (hm : m.Eats)
    (hf : ∀ a, (f a).Shrinks) : (m >>= f).Eats := by
  intro l b l' h
  obtain ⟨a, mid, h1, h2⟩ := bind_eq_some h
  exact Nat.lt_of_le_of_lt (hf a mid b l' h2) (hm l a mid h1)

theorem Shrinks.eats_bind {m : Loader α} {f : α → Loader β} (hm : m.Shrinks)
    (hf : ∀ a, (f a).Eats) : (m >>= f).Eats := by
  intro l b l' h
  obtain ⟨a, mid, h1, h2⟩ := bind_eq_some h
  exact Nat.lt_of_lt_of_le (hf a mid b l' h2) (hm l a mid h1)

/-- A piece that is taken is at the front of what was loaded. -/
theorem takeSingle_eq_some {p : Parser α} {buffer : BitReader} {behind : List UInt8} {a : α}
    {l : Lookahead} (h : takeSingle p buffer behind = some (a, l)) :
    ∃ loaded rest, p loaded = .done a rest ∧ l.buffer = rest
      ∧ loaded.append l.behind = buffer.append behind := by
  fun_induction takeSingle p buffer behind with
  | case1 buffer b rest behind hp =>
    cases h
    exact ⟨buffer, rest, hp, rfl, rfl⟩
  | case2 buffer hp byte behind ih =>
    obtain ⟨loaded, rest, h1, h2, h3⟩ := ih h
    exact ⟨loaded, rest, h1, h2, by rw [h3]; simp [BitReader.append]⟩
  | case3 => cases h

theorem piece_eq_some {rule : Loading} {p : Parser α} {l l' : Lookahead} {a : α}
    (h : piece rule p l = some (a, l')) :
    ∃ loaded rest, p loaded = .done a rest ∧ l'.buffer = rest
      ∧ loaded.append l'.behind = l.reader := by
  unfold piece at h
  split at h
  · rename_i hp
    cases h
    exact ⟨l.buffer, _, hp, rfl, rfl⟩
  · obtain ⟨loaded, rest, h1, h2, h3⟩ := takeSingle_eq_some h
    exact ⟨loaded, rest, h1, h2, h3.trans (l.reader_load rule)⟩

/-- A piece takes from the reader what it takes from the bits that are loaded for it. -/
theorem size_piece {rule : Loading} {p : Parser α} {l l' : Lookahead} {a : α}
    (h : piece rule p l = some (a, l')) :
    ∃ loaded rest, p loaded = .done a rest
      ∧ l'.reader.size + loaded.size = l.reader.size + rest.size := by
  obtain ⟨loaded, rest, hdone, hrest, hloaded⟩ := piece_eq_some h
  refine ⟨loaded, rest, hdone, ?_⟩
  rw [← hloaded, l'.size_reader, hrest, BitReader.size_append]
  omega

theorem shrinks_piece (rule : Loading) {p : Parser α} (hp : p.Shrinks) :
    (piece rule p).Shrinks := by
  intro l a l' h
  obtain ⟨loaded, rest, hdone, hsize⟩ := size_piece h
  have := hp _ _ _ hdone
  omega

theorem eats_piece (rule : Loading) {p : Parser α} (hp : p.Eats) : (piece rule p).Eats := by
  intro l a l' h
  obtain ⟨loaded, rest, hdone, hsize⟩ := size_piece h
  have := hp _ _ _ hdone
  omega

theorem shrinks_passLengths (code : Code) (left : Nat) : (passLengths code left).Shrinks := by
  induction left using Nat.strongRecOn with
  | ind left ih =>
    rw [passLengths.eq_def]
    split
    · exact shrinks_pure ()
    · exact (shrinks_piece _ (Code.eats_read code).shrinks).bind fun _ =>
        (shrinks_piece _ (Block.shrinks_readRun _ _)).bind fun _ => ih _ (by omega)

theorem shrinks_passKind (kind : Nat) : (passKind kind).Shrinks := by
  unfold passKind
  split
  · exact (shrinks_piece _ Block.shrinks_readStored).bind fun _ => shrinks_pure ()
  · exact (shrinks_piece _ Block.shrinks_readShape).bind fun _ => shrinks_passLengths _ _
  · exact shrinks_pure ()

theorem eats_block : block.Eats :=
  shrinks_get.eats_bind fun _ => (eats_piece _ Parser.eats_bit).bind fun _ =>
    (shrinks_piece _ (Parser.shrinks_number 2)).bind fun kind => (shrinks_passKind kind).bind
      fun _ => by
        split
        · exact shrinks_pure _
        · intro l a l' h
          cases h

theorem shrinks_ofSymbol (distanceCode : Code) (pace : Pace) (symbol : Nat) :
    (ofSymbol distanceCode pace symbol).Shrinks := by
  unfold ofSymbol
  split
  · exact shrinks_pure _
  · split
    · exact shrinks_pure _
    · exact (shrinks_piece _ (Token.shrinks_readExtra _)).bind fun _ =>
        (shrinks_piece _ (Code.eats_read _).shrinks).bind fun _ =>
          (shrinks_piece _ (Token.shrinks_readExtra _)).bind fun _ => shrinks_pure _

theorem eats_tokens (literalCode distanceCode : Code) (room : Nat) :
    (tokens literalCode distanceCode room).Eats :=
  shrinks_get.eats_bind fun _ => (eats_piece _ (Code.eats_read _)).bind fun _ =>
    shrinks_get.bind fun _ => (shrinks_ofSymbol _ _ _).bind fun _ => by
      split
      · exact shrinks_pure _
      · exact (shrinks_piece _ (Code.eats_read _).shrinks).bind fun _ =>
          (shrinks_ofSymbol _ _ _).bind fun _ => shrinks_pure _

end Loader

/-- The next byte is loaded where the room ends within a stored block. -/
def Lookahead.loadedWhenFull (l : Lookahead) (phase : Phase) (room : Nat) : Bool :=
  match phase with
  | .finished => false
  | .between =>
    match _h : Loader.block l with
    | none => false
    | some ((last, block), next) => next.loadedWhenFull (.inside last block) room
  | .stored last left =>
    if left ≤ room then (l.skip left).loadedWhenFull (.after last) (room - left)
    else !(l.skip room).buffer.bytes.isEmpty
  | .coded last literalCode distanceCode =>
    match _h : Loader.tokens literalCode distanceCode room l with
    | none => false
    | some (tokens, next) =>
      let room := tokens.foldl (fun room token => room - token.size) room
      if tokens.contains .endOfBlock then next.loadedWhenFull (.after last) room
      else next.loadedWhenFull (.coded last literalCode distanceCode) room
termination_by (l.reader.size, phase.weight)
decreasing_by
  · exact Prod.Lex.left _ _ (Loader.eats_block _ _ _ _h)
  · rcases Nat.lt_or_eq_of_le (l.size_skip_le left) with h | h
    · exact Prod.Lex.left _ _ h
    · rw [h]
      exact Prod.Lex.right _ (by cases last <;> simp [Phase.weight, Phase.after])
  · exact Prod.Lex.left _ _ (Loader.eats_tokens _ _ _ _ _ _ _h)
  · exact Prod.Lex.left _ _ (Loader.eats_tokens _ _ _ _ _ _ _h)

/-- Decodes as far as it can, and takes a stored byte that is loaded when the output is full. -/
def runAhead (limit : Nat) (s : State) (l : Lookahead) : Stop × State × BitReader :=
  match run (some limit) s l.reader with
  | (.full, ⟨.stored last (left + 1), .nothing, output⟩, ⟨bits, byte :: bytes⟩) =>
    if l.loadedWhenFull s.phase (limit - (s.output.size + s.pending.size)) then
      (.full, ⟨.stored last left, .literal byte, output⟩, ⟨[], bytes⟩)
    else (.full, ⟨.stored last (left + 1), .nothing, output⟩, ⟨bits, byte :: bytes⟩)
  | outcome => outcome

/-- At most, the first byte that the output had no room for is taken. -/
theorem runAhead_eq (limit : Nat) (s : State) (l : Lookahead) :
    runAhead limit s l = run (some limit) s l.reader ∨ ∃ last left output bits byte bytes,
      run (some limit) s l.reader
          = (.full, ⟨.stored last (left + 1), .nothing, output⟩, ⟨bits, byte :: bytes⟩)
        ∧ runAhead limit s l
          = (.full, ⟨.stored last left, .literal byte, output⟩, ⟨[], bytes⟩) := by
  unfold runAhead
  split
  · rename_i last left output bits byte bytes h
    split
    · exact .inr ⟨last, left, output, bits, byte, bytes, h, rfl⟩
    · exact .inl h.symm
  · exact .inl rfl

end Carving.Deflate
