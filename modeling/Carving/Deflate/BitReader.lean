/-!
# Reading bits out of bytes

A reader holds the unread bits of the byte it has begun and the bytes it has not. A parser takes a
value from the front of a reader, or finds that the bits run out, or that they are corrupt. What a
parser finds does not change when more bytes follow, unless the bits had run out.
-/

namespace Carving.Deflate

/-- The unread part of a sequence of bytes, of which the first may be partly read. -/
structure BitReader where
  /-- The unread bits of the byte that has been begun, lowest first. -/
  bits : List Bool
  bytes : List UInt8
  deriving DecidableEq, Repr

namespace BitReader

def ofBytes (bytes : List UInt8) : BitReader := ⟨[], bytes⟩

def size (r : BitReader) : Nat := r.bits.length + 8 * r.bytes.length

def append (r : BitReader) (more : List UInt8) : BitReader := ⟨r.bits, r.bytes ++ more⟩

@[simp] theorem size_append (r : BitReader) (more : List UInt8) :
    (r.append more).size = r.size + 8 * more.length := by
  simp only [size, append, List.length_append]
  omega

end BitReader

inductive Parsed (α : Type) where
  | done (value : α) (rest : BitReader)
  | short
  | corrupt
  deriving DecidableEq, Repr

/-- A way to take a value from the front of a reader. -/
def Parser (α : Type) := BitReader → Parsed α

namespace Parser

variable {α β : Type}

protected def pure (a : α) : Parser α := fun r => .done a r

protected def bind (p : Parser α) (f : α → Parser β) : Parser β := fun r =>
  match p r with
  | .done a rest => f a rest
  | .short => .short
  | .corrupt => .corrupt

instance : Monad Parser where
  pure := Parser.pure
  bind := Parser.bind

def fail : Parser α := fun _ => .corrupt

def check (ok : Bool) : Parser Unit := if ok then Parser.pure () else fail

/-- Takes one bit. The bits of a byte are taken lowest first. -/
def bit : Parser Bool
  | ⟨b :: bits, bytes⟩ => .done b ⟨bits, bytes⟩
  | ⟨[], byte :: bytes⟩ =>
    let n := byte.toNat
    .done (n.testBit 0) ⟨[n.testBit 1, n.testBit 2, n.testBit 3, n.testBit 4, n.testBit 5,
      n.testBit 6, n.testBit 7], bytes⟩
  | ⟨[], []⟩ => .short

/-- Takes a number of the given count of bits, lowest bit first. -/
def number : Nat → Parser Nat
  | 0 => Parser.pure 0
  | count + 1 => bit.bind fun b => (number count).bind fun n => Parser.pure (b.toNat + 2 * n)

/-- Passes over the rest of the byte that has been begun. -/
def align : Parser Unit := fun r => .done () ⟨[], r.bytes⟩

def byte : Parser UInt8
  | ⟨_, b :: bytes⟩ => .done b ⟨[], bytes⟩
  | ⟨_, []⟩ => .short

def times (p : Parser α) : Nat → Parser (List α)
  | 0 => Parser.pure []
  | count + 1 => p.bind fun a => (times p count).bind fun as => Parser.pure (a :: as)

/-- No run of the parser leaves more bits than it found. -/
def Shrinks (p : Parser α) : Prop :=
  ∀ r a rest, p r = .done a rest → rest.size ≤ r.size

/-- Every run of the parser takes at least one bit. -/
def Eats (p : Parser α) : Prop :=
  ∀ r a rest, p r = .done a rest → rest.size < r.size

theorem Eats.shrinks {p : Parser α} (h : p.Eats) : p.Shrinks :=
  fun r a rest e => Nat.le_of_lt (h r a rest e)

theorem bind_eq_done {p : Parser α} {f : α → Parser β} {r rest : BitReader} {b : β}
    (h : p.bind f r = .done b rest) : ∃ a mid, p r = .done a mid ∧ f a mid = .done b rest := by
  unfold Parser.bind at h
  split at h
  · exact ⟨_, _, by assumption, h⟩
  · cases h
  · cases h

theorem shrinks_pure (a : α) : (Parser.pure a).Shrinks := by
  intro r b rest h
  cases h
  exact Nat.le_refl _

theorem shrinks_fail : (fail : Parser α).Shrinks := by
  intro r b rest h
  cases h

theorem shrinks_check (ok : Bool) : (check ok).Shrinks := by
  cases ok
  · exact shrinks_fail
  · exact shrinks_pure ()

theorem Shrinks.bind {p : Parser α} {f : α → Parser β} (hp : p.Shrinks)
    (hf : ∀ a, (f a).Shrinks) : (p.bind f).Shrinks := by
  intro r b rest h
  obtain ⟨a, mid, h1, h2⟩ := bind_eq_done h
  exact Nat.le_trans (hf a mid b rest h2) (hp r a mid h1)

theorem Eats.bind {p : Parser α} {f : α → Parser β} (hp : p.Eats)
    (hf : ∀ a, (f a).Shrinks) : (p.bind f).Eats := by
  intro r b rest h
  obtain ⟨a, mid, h1, h2⟩ := bind_eq_done h
  exact Nat.lt_of_le_of_lt (hf a mid b rest h2) (hp r a mid h1)

theorem eats_bit : bit.Eats := by
  intro r a rest h
  obtain ⟨bits, bytes⟩ := r
  rcases bits with _ | ⟨b, bits⟩
  · rcases bytes with _ | ⟨b, bytes⟩
    · cases h
    · cases h
      simp only [BitReader.size, List.length_cons, List.length_nil]
      omega
  · cases h
    simp only [BitReader.size, List.length_cons]
    omega

theorem eats_byte : byte.Eats := by
  intro r a rest h
  obtain ⟨bits, _ | ⟨b, bytes⟩⟩ := r
  · cases h
  · cases h
    simp only [BitReader.size, List.length_cons, List.length_nil]
    omega

theorem shrinks_align : align.Shrinks := by
  intro r a rest h
  cases h
  simp only [BitReader.size, List.length_nil]
  omega

theorem shrinks_number : ∀ count, (number count).Shrinks
  | 0 => shrinks_pure 0
  | count + 1 => eats_bit.shrinks.bind fun _ => (shrinks_number count).bind fun _ => shrinks_pure _

theorem Shrinks.times {p : Parser α} (hp : p.Shrinks) : ∀ count, (p.times count).Shrinks
  | 0 => shrinks_pure []
  | count + 1 => hp.bind fun _ => (hp.times count).bind fun _ => shrinks_pure _

end Parser

end Carving.Deflate
