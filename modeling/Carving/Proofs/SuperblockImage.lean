import Carving.Proofs.CheckedCalculation
import Carving.Proofs.RecordCodec

/-!
# Where a superblock says that its image ends

The magic number at the offset tells the byte order in which the superblock is written, and two of
its numbers, read in that order, how far the image reaches (`superblock_exact`). In the other byte
order the same values are written by other bytes, and the image reaches equally far.
-/

namespace Carving.Ubifs

open Layout (numberAt)

section Outcome

variable {data : List UInt8} {start : Nat}

/-- The size of the image, from where its numbers stand in the data. -/
theorem imageSize_take_drop (order : Endian) (data : List UInt8) (start : Nat) :
    imageSize order ((data.drop start).take superblock.size)
      = numberAt order data (start + 36) 4 * numberAt order data (start + 40) 4 := by
  rw [imageSize, Layout.numberAt_take_drop _ _ _ (by decide),
    Layout.numberAt_take_drop _ _ _ (by decide)]

theorem detectEndian_take_drop {order : Endian} :
    detectEndian ((data.drop start).take 4) = some order
      ↔ (data.drop start).take 4 = magicBytes order :=
  detectEndian_eq_some_iff (List.length_take_le _ _)

theorem length_of_magicBytes {order : Endian} (hm : (data.drop start).take 4 = magicBytes order) :
    4 ≤ data.length - start := by
  have hl := congrArg List.length hm
  rw [List.length_take, List.length_drop] at hl
  have hfour : (magicBytes order).length = 4 := by cases order <;> rfl
  omega

theorem outcome_of_no_magic (h : ∀ order, (data.drop start).take 4 ≠ magicBytes order) :
    outcome data start = .ok none := by
  unfold outcome
  rcases hd : detectEndian ((data.drop start).take 4) with _ | order
  · split <;> rfl
  · exact absurd (detectEndian_take_drop.1 hd) (h order)

theorem outcome_of_magic {order : Endian} (hm : (data.drop start).take 4 = magicBytes order) :
    outcome data start = if data.length - start < superblock.size then
        .error (.truncated superblock.name start superblock.size (data.length - start))
      else if imageSize order ((data.drop start).take superblock.size) = 0 then .ok none
      else (Chunk.within start (start + imageSize order ((data.drop start).take superblock.size))
        data.length).map some := by
  have hl := length_of_magicBytes hm
  rw [outcome, if_neg (by omega), detectEndian_take_drop.2 hm]

theorem outcome_of_short {order : Endian} (hm : (data.drop start).take 4 = magicBytes order)
    (h : data.length < start + 4096) : outcome data start
      = .error (.truncated "ubifs_sb_node" start 4096 (data.length - start)) := by
  have hsize : superblock.size = 4096 := by decide
  rw [outcome_of_magic hm, hsize, if_pos (by omega)]
  rfl

/-- The numbers of a superblock within the data decide. -/
theorem outcome_of_superblock {order : Endian}
    (hm : (data.drop start).take 4 = magicBytes order) (h : start + 4096 ≤ data.length) :
    let size := numberAt order data (start + 36) 4 * numberAt order data (start + 40) 4
    outcome data start = if size = 0 then .ok none
      else (Chunk.within start (start + size) data.length).map some := by
  have hsize : superblock.size = 4096 := by decide
  rw [outcome_of_magic hm, imageSize_take_drop, hsize, if_neg (by omega)]

end Outcome

section Orders

variable {values : List Value} {front rest : List UInt8}

theorem total_superblock : superblock.total < capacity 8 := by decide

/-- The values tell the size of the image, whatever the byte order. -/
theorem imageSize_encode (h : superblock.Fits values) (order order' : Endian) :
    imageSize order (superblock.encode order values)
      = imageSize order' (superblock.encode order' values) := by
  have hrecord : ∀ e, superblock.record values = ⟨superblock.name, superblock.size,
      Layout.cut e superblock.fields (superblock.encode e values)⟩ := fun e => by
    have hdecode := Layout.decode_encode total_superblock h e []
    rw [List.append_nil] at hdecode
    exact ((Layout.decode_eq_ok_iff total_superblock).1 hdecode).2
  obtain ⟨hsize, hcount⟩ := number_cut_superblock order (superblock.encode order values)
  obtain ⟨hsize', hcount'⟩ := number_cut_superblock order' (superblock.encode order' values)
  rw [← hrecord] at hsize hcount hsize' hcount'
  rw [imageSize, imageSize, Except.ok.inj (hsize.symm.trans hsize'),
    Except.ok.inj (hcount.symm.trans hcount')]

/-- A superblock begins with its magic number. -/
theorem take_encode (hm : values.head? = some (.number nodeMagic)) (order : Endian) :
    (superblock.encode order values ++ rest).take 4 = magicBytes order := by
  obtain ⟨others, rfl⟩ := List.head?_eq_some_iff.1 hm
  have hfirst : superblock.encode order (.number nodeMagic :: others)
      = magicBytes order
        ++ Layout.encode ⟨superblock.name, superblock.fields.tail⟩ order others := by
    cases order <;> rfl
  rw [hfirst, List.append_assoc, List.take_left' (by cases order <;> rfl)]

theorem outcome_encode (h : superblock.Fits values)
    (hm : values.head? = some (.number nodeMagic)) (order order' : Endian) :
    outcome (front ++ superblock.encode order values ++ rest) front.length
      = outcome (front ++ superblock.encode order' values ++ rest) front.length := by
  have hdrop : ∀ e, (front ++ superblock.encode e values ++ rest).drop front.length
      = superblock.encode e values ++ rest := fun e => by
    rw [List.append_assoc, List.drop_left]
  have hmagic : ∀ e, ((front ++ superblock.encode e values ++ rest).drop front.length).take 4
      = magicBytes e := fun e => by
    rw [hdrop, take_encode hm]
  have hfixed : ∀ e, ((front ++ superblock.encode e values ++ rest).drop front.length).take
      superblock.size = superblock.encode e values := fun e => by
    rw [hdrop, Layout.size_of_lt total_superblock, List.take_left' (Layout.length_encode h e)]
  have hlength : (front ++ superblock.encode order values ++ rest).length
      = (front ++ superblock.encode order' values ++ rest).length := by
    simp only [List.length_append, Layout.length_encode h]
  rw [outcome_of_magic (hmagic order), outcome_of_magic (hmagic order'), hfixed, hfixed, hlength,
    imageSize_encode h order order']

end Orders

/-- On any source that serves its data, the calculation finds nothing where the magic number stands
in neither byte order. Behind a magic number, the header is truncated if the superblock does not lie
within the data; otherwise two of its numbers, read in the byte order of the magic number, tell the
number of blocks and their size. If one of them is zero nothing is found, and else a chunk of as
many bytes as they tell, unless it ends behind the data. Their product never needs more than 64
bits, and nothing does on the way if the end of the image does not. The same values written in the
other byte order lead to the same answer, whatever stands in front of them and behind them. -/
theorem superblock_exact {session : Session} {data : List UInt8} {position : Nat}
    (h : session.source.Serves data position) (start : Nat) :
    let answer := (boundary start).answer session
    let blockSize := fun order => numberAt order data (start + 36) 4
    let blocks := fun order => numberAt order data (start + 40) 4
    (data.length < start + 4 ∨ (∀ order, (data.drop start).take 4 ≠ magicBytes order) →
      answer = .ok none)
    ∧ (∀ order, (data.drop start).take 4 = magicBytes order →
      (data.length < start + 4096 →
        answer = .error (.truncated "ubifs_sb_node" start 4096 (data.length - start)))
      ∧ (start + 4096 ≤ data.length →
        (blockSize order = 0 ∨ blocks order = 0 → answer = .ok none)
        ∧ (0 < blockSize order → 0 < blocks order →
          start + blockSize order * blocks order ≤ data.length →
          ∃ c, answer = .ok (some c) ∧ c.start = start
            ∧ c.stop = start + blockSize order * blocks order)
        ∧ (0 < blockSize order → 0 < blocks order →
          data.length < start + blockSize order * blocks order →
          answer = .error (.invalidChunk start (start + blockSize order * blocks order)
            data.length)))
      ∧ blockSize order * blocks order < capacity 8)
    ∧ ((∀ order, (data.drop start).take 4 = magicBytes order → start + 4096 ≤ data.length →
        start + blockSize order * blocks order < capacity 8) →
      Checked.boundary .ubifs start session = boundary start session)
    ∧ ∀ values front rest order order' session' position', superblock.Fits values →
      values.head? = some (.number nodeMagic) →
      data = front ++ superblock.encode order values ++ rest → start = front.length →
      Source.Serves (Session.source session') (front ++ superblock.encode order' values ++ rest)
        position' →
      (boundary start).answer session' = answer := by
  intro answer blockSize blocks
  have hanswer : answer = outcome data start := answer_boundary h start
  have himage : ∀ order, imageSize order ((data.drop start).take superblock.size)
      = blockSize order * blocks order := fun order => imageSize_take_drop order data start
  rw [hanswer]
  refine ⟨fun hno => outcome_of_no_magic ?_,
    fun order hm => ⟨outcome_of_short hm, fun hlong => ?_, ?_⟩, fun hend => ?_, ?_⟩
  · rcases hno with hshort | hno
    · intro order hm
      have hl := length_of_magicBytes hm
      omega
    · exact hno
  · have houtcome : outcome data start = if blockSize order * blocks order = 0 then .ok none
        else (Chunk.within start (start + blockSize order * blocks order) data.length).map some :=
      outcome_of_superblock hm hlong
    rw [houtcome]
    refine ⟨fun hempty => if_pos (Nat.mul_eq_zero.2 hempty), fun hb hc hle => ?_,
      fun hb hc hlt => ?_⟩
    · have hpos : 0 < blockSize order * blocks order := Nat.mul_pos hb hc
      rw [if_neg (Nat.ne_of_gt hpos), Chunk.within_of_le (by omega) hle]
      exact ⟨_, rfl, rfl, rfl⟩
    · have hpos : 0 < blockSize order * blocks order := Nat.mul_pos hb hc
      rw [if_neg (Nat.ne_of_gt hpos), Chunk.within, dif_neg (by omega)]
      rfl
  · exact himage order ▸ Nat.lt_of_le_of_lt (imageSize_le _ _) (by decide)
  · refine Checked.ubifs_eq_of_lt h fun order hd hl => ?_
    rw [himage]
    exact hend order (detectEndian_take_drop.1 hd) hl
  · rintro values front rest order order' session' position' hvalues hmagic rfl rfl hs'
    rw [answer_boundary hs']
    exact outcome_encode hvalues hmagic order' order

/-- An image of 2050 blocks of two bytes, written in both byte orders, that ends with the data. -/
theorem superblock_exact_small_blocks :
    let values : List Value := superblock.fields.map fun field =>
      if field.name = "magic" then .number nodeMagic
      else if field.name = "leb_size" then .number 2
      else if field.name = "leb_cnt" then .number 2050
      else field.kind.read .big (List.replicate field.kind.width 0)
    let data : Endian → List UInt8 := fun order =>
      [0x77] ++ superblock.encode order values ++ List.replicate 4 0xFF
    (∀ order, (Session.ofSource (.hesitant (data order))).source.Serves (data order) 0)
      ∧ superblock.Fits values ∧ values.head? = some (.number nodeMagic)
      ∧ (data .little).length = 4101
      ∧ (∃ c, (boundary 1).answer (.ofSource (.hesitant (data .little))) = .ok (some c)
        ∧ c.start = 1 ∧ c.stop = 4101)
      ∧ (boundary 1).answer (.ofSource (.hesitant (data .big)))
        = (boundary 1).answer (.ofSource (.hesitant (data .little))) := by
  intro values data
  have hs : ∀ order, (Session.ofSource (.hesitant (data order))).source.Serves (data order) 0 :=
    fun order => Source.serves_hesitant _
  have hvalues : superblock.Fits values := by decide +kernel
  have hmagic : values.head? = some (.number nodeMagic) := rfl
  have hlength : (data .little).length = 4101 := by
    simp only [data, List.length_append, Layout.length_encode hvalues, List.length_replicate]
    rfl
  obtain ⟨-, hfound, -, hother⟩ := superblock_exact (hs .little) 1
  have hm : ((data .little).drop 1).take 4 = magicBytes .little := by decide +kernel
  have hsize : numberAt .little (data .little) 37 4 = 2 := by decide +kernel
  have hcount : numberAt .little (data .little) 41 4 = 2050 := by decide +kernel
  obtain ⟨-, hwithin, -⟩ := hfound .little hm
  obtain ⟨-, hchunk, -⟩ := hwithin (by omega)
  simp only [hsize, hcount] at hchunk
  exact ⟨hs, hvalues, hmagic, hlength, hchunk (by decide) (by decide) (by omega),
    hother values [0x77] _ .little .big _ 0 hvalues hmagic rfl rfl (hs .big)⟩

end Carving.Ubifs
