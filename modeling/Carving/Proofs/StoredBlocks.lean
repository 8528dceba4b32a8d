import Carving.Bytes.Number
import Carving.Proofs.Resumption

/-!
# Streams of stored blocks

A stored block holds its bytes as they are. Bytes that are cut into stored blocks, in whatever way,
are what the stream of these blocks inflates to (`inflate_storedStream`). Another byte in place of
one of them leaves all blocks as they are but for this byte (`exists_set_storedStream`).
-/

namespace Carving.Deflate

/-- A block that holds its bytes as they are. -/
structure StoredBlock where
  /-- The five bits between the kind of the block and the next whole byte, which mean nothing. -/
  padding : Fin 32
  content : List UInt8
  length_lt : content.length < capacity 2

namespace StoredBlock

/-- The mark on the last block with the kind and the padding, the count of the bytes, its
complement, and the bytes. -/
def encode (last : Bool) (b : StoredBlock) : List UInt8 :=
  UInt8.ofNat (8 * b.padding + last.toNat) :: Endian.toLittle 2 b.content.length
    ++ (Endian.toLittle 2 b.content.length).map (~~~·) ++ b.content

/-- How many bytes of a block precede its content. -/
def headSize : Nat := 5

/-- The head of a block depends on how many bytes follow it, and not on the bytes. -/
theorem encode_eq (last : Bool) (b : StoredBlock) : ∃ head, head.length = headSize
    ∧ ∀ b' : StoredBlock, b'.padding = b.padding → b'.content.length = b.content.length →
      b'.encode last = head ++ b'.content :=
  ⟨UInt8.ofNat (8 * b.padding + last.toNat) :: Endian.toLittle 2 b.content.length
    ++ (Endian.toLittle 2 b.content.length).map (~~~·), by simp [headSize],
    fun b' hp hl => by rw [encode, hp, hl]⟩

theorem length_encode (last : Bool) (b : StoredBlock) :
    (b.encode last).length = headSize + b.content.length := by
  obtain ⟨head, hl, he⟩ := b.encode_eq last
  rw [he b rfl rfl, List.length_append, hl]

/-- Another byte in the content gives the block with that content. -/
theorem exists_set_encode (last : Bool) (b : StoredBlock) {i : Nat} (hi : i < b.content.length)
    (byte : UInt8) :
    ∃ (b' : StoredBlock) (before : List UInt8) (a : UInt8) (behind : List UInt8),
      (b.encode last).set (headSize + i) byte = b'.encode last
      ∧ (b.encode last)[headSize + i]? = some a ∧ b.content = before ++ a :: behind
      ∧ b'.content = before ++ byte :: behind := by
  obtain ⟨head, hl, he⟩ := b.encode_eq last
  obtain ⟨before, behind, hb, -, hset⟩ := @List.exists_of_set _ i byte _ hi
  let b' : StoredBlock := ⟨b.padding, b.content.set i byte, by simpa using b.length_lt⟩
  refine ⟨b', before, b.content[i], behind, ?_, ?_, hb, hset⟩
  · rw [he b rfl rfl, he b' rfl List.length_set, List.set_append_right _ _ (by omega), hl,
      Nat.add_sub_cancel_left]
  · rw [he b rfl rfl, List.getElem?_append_right (by omega), hl, Nat.add_sub_cancel_left,
      List.getElem?_eq_getElem hi]

/-- The lowest three bits of a stored block are its mark and the kind zero. -/
theorem testBit_first : ∀ (padding : Fin 32) (last : Bool),
    (UInt8.ofNat (8 * padding + last.toNat)).toNat.testBit 0 = last
      ∧ (UInt8.ofNat (8 * padding + last.toNat)).toNat.testBit 1 = false
      ∧ (UInt8.ofNat (8 * padding + last.toNat)).toNat.testBit 2 = false := by
  decide

theorem readStored_eq (bits : List Bool) (low high : UInt8) (rest : List UInt8) :
    Block.readStored ⟨bits, low :: high :: ~~~low :: ~~~high :: rest⟩
      = .done (.stored (low.toNat + 256 * high.toNat)) (.ofBytes rest) := by
  change (if ~~~low = ~~~low ∧ ~~~high = ~~~high then Parser.pure _ else Parser.fail) _ = _
  rw [if_pos ⟨rfl, rfl⟩]
  rfl

/-- A byte whose second and third bit are not set begins a stored block. -/
theorem read_of_testBit {byte : UInt8} {last : Bool} {bytes : List UInt8} {block : Block}
    {rest : BitReader} (h0 : byte.toNat.testBit 0 = last) (h1 : byte.toNat.testBit 1 = false)
    (h2 : byte.toNat.testBit 2 = false)
    (h : ∀ bits, Block.readStored ⟨bits, bytes⟩ = .done block rest) :
    Block.read (.ofBytes (byte :: bytes)) = .done (last, block) rest := by
  obtain ⟨bits, hbit⟩ : ∃ bits, Parser.bit (.ofBytes (byte :: bytes)) = .done
      (byte.toNat.testBit 0) ⟨byte.toNat.testBit 1 :: byte.toNat.testBit 2 :: bits, bytes⟩ :=
    ⟨_, rfl⟩
  rw [h0, h1, h2] at hbit
  rw [Block.read, Parser.bind_of_done hbit]
  refine (Parser.bind_of_done (rfl : Parser.number 2 _ = .done 0 ⟨bits, bytes⟩)).trans ?_
  exact Parser.bind_of_done (h bits)

/-- The head of a block that is written is read. -/
theorem read_encode (last : Bool) (b : StoredBlock) (rest : List UInt8) :
    Block.read (.ofBytes (b.encode last ++ rest))
      = .done (last, .stored b.content.length) (.ofBytes (b.content ++ rest)) := by
  obtain ⟨h0, h1, h2⟩ := testBit_first b.padding last
  have hcount := Endian.ofLittle_toLittle 2 _ b.length_lt
  simp only [Endian.toLittle, Endian.ofLittle, Nat.mul_zero, Nat.add_zero] at hcount
  rw [encode, List.append_assoc]
  refine read_of_testBit h0 h1 h2 fun bits => (readStored_eq bits _ _ _).trans ?_
  rw [hcount]
  rfl

end StoredBlock

/-- The bytes of a stored block are written as they are. -/
theorem run_content (last : Bool) (content rest : List UInt8) (output : Array UInt8) :
    run none ⟨.stored last content.length, .nothing, output⟩ (.ofBytes (content ++ rest))
      = run none ⟨.after last, .nothing, output ++ content.toArray⟩ (.ofBytes rest) := by
  induction content generalizing output with
  | nil => rw [List.length_nil, run_stored_zero, List.nil_append, Array.append_empty]
  | cons b content ih =>
    have hbyte : Parser.byte (.ofBytes (b :: content ++ rest))
      = .done b (.ofBytes (content ++ rest)) := rfl
    rw [List.length_cons, run_byte none _ Nat.one_ne_zero hbyte, ih]
    simp

/-- Blocks that follow each other, of which the last one is marked. -/
def storedStream : List StoredBlock → List UInt8
  | [] => []
  | b :: blocks => b.encode blocks.isEmpty ++ storedStream blocks

/-- The bytes that blocks hold, one block after the other. -/
def payload (blocks : List StoredBlock) : List UInt8 := blocks.flatMap (·.content)

theorem payload_cons (b : StoredBlock) (blocks : List StoredBlock) :
    payload (b :: blocks) = b.content ++ payload blocks :=
  List.flatMap_cons

theorem run_storedStream {blocks : List StoredBlock} (h : blocks ≠ []) (output : Array UInt8)
    (rest : List UInt8) :
    run none ⟨.between, .nothing, output⟩ (.ofBytes (storedStream blocks ++ rest))
      = (.finished, ⟨.finished, .nothing, output ++ (payload blocks).toArray⟩, .ofBytes rest) := by
  induction blocks generalizing output with
  | nil => exact absurd rfl h
  | cons b blocks ih =>
    rw [storedStream, List.append_assoc, run_block none _ (b.read_encode _ _)]
    refine (run_content _ _ _ _).trans ?_
    rcases blocks with _ | ⟨next, blocks⟩
    · simp [storedStream, payload, Phase.after, run_finished]
    · refine (ih (List.cons_ne_nil _ _) _).trans ?_
      simp [payload]

/-- Bytes in stored blocks inflate to themselves. -/
theorem inflate_storedStream {blocks : List StoredBlock} (h : blocks ≠ []) :
    inflate (storedStream blocks) = .complete (payload blocks) [] := by
  have hrun := run_storedStream h #[] []
  rw [List.append_nil] at hrun
  exact inflate_eq_complete.2 ⟨_, _, hrun, by simp, rfl⟩

/-- The offset in the stream of the blocks is that of a byte of their payload. -/
def InContent : List StoredBlock → Nat → Prop
  | [], _ => False
  | b :: blocks, offset =>
    (∃ i, offset = StoredBlock.headSize + i ∧ i < b.content.length)
      ∨ ∃ i, offset = StoredBlock.headSize + b.content.length + i ∧ InContent blocks i

theorem lt_length_of_inContent {blocks : List StoredBlock} {offset : Nat}
    (h : InContent blocks offset) : offset < (storedStream blocks).length := by
  induction blocks generalizing offset with
  | nil => exact h.elim
  | cons b blocks ih =>
    rw [storedStream, List.length_append, b.length_encode]
    rcases h with ⟨i, rfl, hi⟩ | ⟨i, rfl, hi⟩
    · omega
    · have := ih hi
      omega

/-- Another byte in the content of some blocks gives the stream of blocks whose payload differs in
that one place. -/
theorem exists_set_storedStream {blocks : List StoredBlock} {offset : Nat} {byte : UInt8}
    (h : InContent blocks offset) (hne : (storedStream blocks)[offset]? ≠ some byte) :
    ∃ blocks' before a behind, (storedStream blocks).set offset byte = storedStream blocks'
      ∧ blocks'.isEmpty = blocks.isEmpty ∧ a ≠ byte ∧ payload blocks = before ++ a :: behind
      ∧ payload blocks' = before ++ byte :: behind := by
  induction blocks generalizing offset with
  | nil => exact h.elim
  | cons b blocks ih =>
    have hl := b.length_encode blocks.isEmpty
    rw [storedStream] at hne
    rcases h with ⟨i, rfl, hi⟩ | ⟨i, rfl, hi⟩
    · obtain ⟨b', before, a, behind, h1, h2, h3, h4⟩ := b.exists_set_encode blocks.isEmpty hi byte
      rw [List.getElem?_append_left (by omega), h2] at hne
      refine ⟨b' :: blocks, before, a, behind ++ payload blocks, ?_, rfl, fun ha => hne (ha ▸ rfl),
        ?_, ?_⟩
      · rw [storedStream, storedStream, List.set_append_left _ _ (by omega), h1]
      · rw [payload_cons, h3, List.append_assoc, List.cons_append]
      · rw [payload_cons, h4, List.append_assoc, List.cons_append]
    · rw [← hl, List.getElem?_append_right (by omega), Nat.add_sub_cancel_left] at hne
      obtain ⟨blocks', before, a, behind, h1, h2, h3, h4, h5⟩ := ih hi hne
      refine ⟨b :: blocks', b.content ++ before, a, behind, ?_, rfl, h3, ?_, ?_⟩
      · rw [storedStream, storedStream, h2, ← h1, ← hl, List.set_append_right _ _ (by omega),
          Nat.add_sub_cancel_left]
      · rw [payload_cons, h4, List.append_assoc]
      · rw [payload_cons, h5, List.append_assoc]

end Carving.Deflate
