import Carving.Deflate.Inflate

/-!
# Parsers and the bytes behind what they read

A parser is sequential if it reads on from the front: what it finds stays the same when more bytes
follow, and where it ran out of bits, it uses up the bytes that were there and one more once enough
bytes follow. Every parser of the compressed format is sequential (`Block.sequential_read`,
`Token.sequential_read`).
-/

namespace Carving.Deflate

namespace BitReader

@[simp] theorem append_bytes (r : BitReader) (more : List UInt8) :
    (r.append more).bytes = r.bytes ++ more := rfl

@[simp] theorem append_nil (r : BitReader) : r.append [] = r := by
  simp [append]

theorem append_append (r : BitReader) (xs ys : List UInt8) :
    (r.append xs).append ys = r.append (xs ++ ys) := by
  simp [append]

theorem ofBytes_append (xs ys : List UInt8) :
    (ofBytes xs).append ys = ofBytes (xs ++ ys) := rfl

end BitReader

namespace Parser

variable {α β : Type}

/-- The parser reads on from the front of a reader, and never beyond what it needs. -/
structure Sequential (p : Parser α) : Prop where
  suffix_of_done : ∀ {r a rest}, p r = .done a rest → rest.bytes <:+ r.bytes
  done_append : ∀ {r a rest}, p r = .done a rest → ∀ more,
    p (r.append more) = .done a (rest.append more)
  corrupt_append : ∀ {r}, p r = .corrupt → ∀ more, p (r.append more) = .corrupt
  suffix_of_short : ∀ {r}, p r = .short → ∀ {more a rest},
    p (r.append more) = .done a rest → rest.bytes <:+ more.tail

theorem sequential_pure (a : α) : (Parser.pure a).Sequential where
  suffix_of_done h := by
    cases h
    exact List.suffix_refl _
  done_append h more := by
    cases h
    rfl
  corrupt_append h := by cases h
  suffix_of_short h := by cases h

theorem sequential_fail : (fail : Parser α).Sequential where
  suffix_of_done h := by cases h
  done_append h := by cases h
  corrupt_append _ _ := rfl
  suffix_of_short h := by cases h

theorem sequential_check (ok : Bool) : (check ok).Sequential := by
  cases ok
  · exact sequential_fail
  · exact sequential_pure ()

theorem bind_of_done {p : Parser α} {f : α → Parser β} {r mid : BitReader} {a : α}
    (h : p r = .done a mid) : p.bind f r = f a mid := by
  rw [Parser.bind, h]

theorem bind_of_short {p : Parser α} {f : α → Parser β} {r : BitReader} (h : p r = .short) :
    p.bind f r = .short := by
  rw [Parser.bind, h]

theorem bind_of_corrupt {p : Parser α} {f : α → Parser β} {r : BitReader} (h : p r = .corrupt) :
    p.bind f r = .corrupt := by
  rw [Parser.bind, h]

theorem Sequential.bind {p : Parser α} {f : α → Parser β} (hp : p.Sequential)
    (hf : ∀ a, (f a).Sequential) : (p.bind f).Sequential where
  suffix_of_done h := by
    obtain ⟨a, mid, h1, h2⟩ := bind_eq_done h
    exact ((hf a).suffix_of_done h2).trans (hp.suffix_of_done h1)
  done_append h more := by
    obtain ⟨a, mid, h1, h2⟩ := bind_eq_done h
    rw [bind_of_done (hp.done_append h1 more)]
    exact (hf a).done_append h2 more
  corrupt_append {r} h more := by
    rcases hr : p r with ⟨a, mid⟩ | _ | _
    · rw [bind_of_done hr] at h
      rw [bind_of_done (hp.done_append hr more)]
      exact (hf a).corrupt_append h more
    · rw [bind_of_short hr] at h
      cases h
    · exact bind_of_corrupt (hp.corrupt_append hr more)
  suffix_of_short {r} h more b rest hd := by
    rcases hr : p r with ⟨a, mid⟩ | _ | _
    · rw [bind_of_done hr] at h
      rw [bind_of_done (hp.done_append hr more)] at hd
      exact (hf a).suffix_of_short h hd
    · obtain ⟨a, mid, h1, h2⟩ := bind_eq_done hd
      exact ((hf a).suffix_of_done h2).trans (hp.suffix_of_short hr h1)
    · rw [bind_of_corrupt hr] at h
      cases h

theorem sequential_bit : bit.Sequential where
  suffix_of_done {r a rest} h := by
    obtain ⟨_ | ⟨b, bits⟩, _ | ⟨byte, bytes⟩⟩ := r <;> cases h
    · exact List.suffix_cons _ _
    · exact List.suffix_refl _
    · exact List.suffix_refl _
  done_append {r a rest} h more := by
    obtain ⟨_ | ⟨b, bits⟩, _ | ⟨byte, bytes⟩⟩ := r <;> cases h <;> rfl
  corrupt_append {r} h := by
    obtain ⟨_ | ⟨b, bits⟩, _ | ⟨byte, bytes⟩⟩ := r <;> cases h
  suffix_of_short {r} h more a rest hd := by
    obtain ⟨_ | ⟨b, bits⟩, _ | ⟨byte, bytes⟩⟩ := r <;> cases h
    rcases more with _ | ⟨byte, more⟩ <;> cases hd
    exact List.suffix_refl _

theorem byte_ne_corrupt (r : BitReader) : byte r ≠ .corrupt := by
  obtain ⟨bits, _ | ⟨b, bytes⟩⟩ := r <;> nofun

theorem sequential_byte : byte.Sequential where
  suffix_of_done {r a rest} h := by
    obtain ⟨bits, _ | ⟨byte, bytes⟩⟩ := r <;> cases h
    exact List.suffix_cons _ _
  done_append {r a rest} h more := by
    obtain ⟨bits, _ | ⟨byte, bytes⟩⟩ := r <;> cases h
    rfl
  corrupt_append h := absurd h (byte_ne_corrupt _)
  suffix_of_short {r} h more a rest hd := by
    obtain ⟨bits, _ | ⟨byte, bytes⟩⟩ := r <;> cases h
    rcases more with _ | ⟨byte, more⟩ <;> cases hd
    exact List.suffix_refl _

theorem sequential_align : align.Sequential where
  suffix_of_done h := by
    cases h
    exact List.suffix_refl _
  done_append h more := by
    cases h
    rfl
  corrupt_append h := by cases h
  suffix_of_short h := by cases h

theorem sequential_number : ∀ count, (number count).Sequential
  | 0 => sequential_pure 0
  | count + 1 => sequential_bit.bind fun _ => (sequential_number count).bind fun _ =>
    sequential_pure _

theorem Sequential.times {p : Parser α} (hp : p.Sequential) : ∀ count, (p.times count).Sequential
  | 0 => sequential_pure []
  | count + 1 => hp.bind fun _ => (hp.times count).bind fun _ => sequential_pure _

end Parser

open Deflate.Parser

theorem Tree.sequential_read : ∀ t : Tree, t.read.Sequential
  | gap => sequential_fail
  | leaf symbol => sequential_pure symbol
  | node zero one => sequential_bit.bind fun b => by
    cases b
    · exact sequential_read zero
    · exact sequential_read one

theorem Code.sequential_read (code : Code) : code.read.Sequential :=
  sequential_bit.bind fun b => by
    cases b
    · exact Tree.sequential_read code.zero
    · exact Tree.sequential_read code.one

namespace Token

theorem sequential_readExtra (entry : Option (Nat × Nat)) : (readExtra entry).Sequential := by
  rcases entry with _ | ⟨least, extra⟩
  · exact sequential_fail
  · exact (sequential_number extra).bind fun _ => sequential_pure _

theorem sequential_ofSymbol (distanceCode : Code) (symbol : Nat) :
    (ofSymbol distanceCode symbol).Sequential := by
  unfold ofSymbol
  split
  · exact sequential_pure _
  · split
    · exact sequential_pure _
    · exact (sequential_readExtra _).bind fun _ => (Code.sequential_read _).bind fun _ =>
        (sequential_readExtra _).bind fun _ => sequential_pure _

theorem sequential_read (literalCode distanceCode : Code) :
    (read literalCode distanceCode).Sequential :=
  (Code.sequential_read literalCode).bind fun symbol => sequential_ofSymbol distanceCode symbol

end Token

namespace Block

theorem sequential_readRun (symbol : Nat) (previous : Option Nat) :
    (readRun symbol previous).Sequential := by
  unfold readRun
  split
  · exact sequential_pure _
  · split
    · split
      · exact sequential_fail
      · exact (sequential_number 2).bind fun _ => sequential_pure _
    · split
      · exact (sequential_number 3).bind fun _ => sequential_pure _
      · exact (sequential_number 7).bind fun _ => sequential_pure _

theorem sequential_readLengths (code : Code) (left : Nat) (taken : Array Nat) :
    (readLengths code left taken).Sequential := by
  induction left using Nat.strongRecOn generalizing taken with
  | ind left ih =>
    rw [readLengths.eq_def]
    split
    · exact sequential_pure _
    · refine (Code.sequential_read code).bind fun _ => (sequential_readRun _ _).bind
        fun run => ?_
      dsimp only
      split
      · exact sequential_fail
      · exact ih _ (by omega) _

theorem sequential_readShape : readShape.Sequential :=
  (sequential_number 5).bind fun _ => (sequential_number 5).bind fun _ =>
    (sequential_number 4).bind fun _ => (sequential_check _).bind fun _ =>
    ((sequential_number 3).times _).bind fun _ => (sequential_check _).bind fun _ =>
    sequential_pure _

theorem sequential_readCodes : readCodes.Sequential :=
  sequential_readShape.bind fun _ => (sequential_readLengths _ _ _).bind fun _ =>
    (sequential_check _).bind fun _ => sequential_pure _

theorem sequential_readStored : readStored.Sequential :=
  sequential_align.bind fun _ => (sequential_byte.times 4).bind fun bytes => by
    split
    · split
      · exact sequential_pure _
      · exact sequential_fail
    · exact sequential_fail

theorem sequential_ofKind (kind : Nat) : (ofKind kind).Sequential := by
  unfold ofKind
  split
  · exact sequential_readStored
  · exact sequential_pure _
  · exact sequential_readCodes
  · exact sequential_fail

/-- The beginning of a block is read the same whatever follows it. -/
theorem sequential_read : read.Sequential :=
  sequential_bit.bind fun _ => (sequential_number 2).bind fun kind =>
    (sequential_ofKind kind).bind fun _ => sequential_pure _

end Block

end Carving.Deflate
