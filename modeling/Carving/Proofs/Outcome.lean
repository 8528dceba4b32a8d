import Carving.Format
import Carving.Proofs.RecordFields
import Carving.Proofs.StrideInference

/-!
# What the calculations answer

A calculation that decodes one fixed header answers from the bytes of the header and the length of
the data alone, and the one that walks along markers from where the markers are. The answer of each
is given as a function of the data (`Lzh.outcome`, `Ntfs.outcome`, `Ubifs.outcome`, `Ubi.outcome`),
and every source that serves the data leads to it.
-/

namespace Carving

namespace Probe

variable {α β : Type} {act : Probe α} {next : α → Probe β} {session session' : Session}

/-- What a calculation answers. -/
def answer (act : Probe α) (session : Session) : Except Error α :=
  match act session with
  | .ok a _ => .ok a
  | .error e _ => .error e

theorem answer_eq_ok {a : α} : act.answer session = .ok a ↔ ∃ s, act session = .ok a s := by
  unfold answer
  split <;> rename_i h <;> simp [h]

theorem answer_bind {a : α} (h : act session = .ok a session') :
    (act >>= next).answer session = (next a).answer session' := by
  rw [answer, bind_of_ok h, answer]

theorem answer_of_error {e : Error} (h : act session = .error e session') :
    (act >>= next).answer session = .error e := by
  rw [answer, bind_of_error h]

theorem answer_ofExcept_bind {a : α} :
    (ofExcept (.ok a) >>= next).answer session = (next a).answer session := rfl

theorem answer_length_bind {data : List UInt8} {position : Nat} {next : Nat → Probe β}
    (h : session.source.Serves data position) :
    ((Source.length : Reading Nat) >>= next : Probe β).answer session
      = (next data.length).answer session := by
  have hl : Source.length session.source = .ok data.length session.source := by
    rw [Source.length, h.size_eq]
  exact answer_bind (ofReading_of_ok hl)

/-- A report on the way does not change the answer. -/
theorem answer_reported {p : Prop} [Decidable p] {event : Event} {answer : Except Error α} :
    (if p then report event >>= fun _ => ofExcept answer else ofExcept answer).answer session
      = answer := by
  split <;> rcases answer with e | a <;> rfl

theorem answer_ofExcept (answer : Except Error α) : (ofExcept answer).answer session = answer := by
  rcases answer with e | a <;> rfl

end Probe

theorem Format.boundaryIn_eq (format : Format) (content : Array UInt8) (start : Nat) :
    format.boundaryIn content start
      = (format.boundary start).answer (.ofSource (.ofContent content)) := by
  unfold Format.boundaryIn Probe.answer
  split <;> rename_i h <;> rw [h]

theorem map_within_eq_some {start stop length : Nat} {c : Chunk} :
    (Chunk.within start stop length).map some = .ok (some c)
      ↔ c.start = start ∧ c.stop = stop ∧ stop ≤ length := by
  rw [← Chunk.within_eq_ok_iff]
  rcases Chunk.within start stop length with e | c' <;> simp [Except.map]

theorem map_within_ne_none {start stop length : Nat} :
    (Chunk.within start stop length).map some ≠ .ok none := by
  rcases Chunk.within start stop length with e | c <;> simp [Except.map]

theorem map_within_of_le {start stop length : Nat} (h : start < stop) (hl : stop ≤ length) :
    (Chunk.within start stop length).map some = .ok (some ⟨start, stop, h⟩) := by
  rw [Chunk.within_of_le h hl]
  rfl

/-- Bounds that do not enclose a part of the data are named by the error. -/
theorem map_within_of_out {start stop length : Nat} (h : stop ≤ start ∨ length < stop) :
    (Chunk.within start stop length).map some = .error (.invalidChunk start stop length) := by
  rw [Chunk.within, dif_neg (by omega)]
  rfl

open Layout (numberAt numberAt_lt place? number_cut)

namespace Lzh

/-- The level in the bytes of a header. -/
def level (fixed : List UInt8) : Nat := numberAt .little fixed 20 1

/-- The size that the bytes of a header declare for the header and the data behind it. -/
def declaredSize (fixed : List UInt8) : Nat :=
  (if level fixed = 2 then numberAt .little fixed 0 1 + 256 * numberAt .little fixed 1 1
    else numberAt .little fixed 0 1 + 2) + numberAt .little fixed 7 4

/-- The answer on some data. -/
def outcome (data : List UInt8) (start : Nat) : Except Error (Option Chunk) :=
  let fixed := (data.drop start).take header.size
  if data.length - start < header.size then
    .error (.truncated header.name start header.size (data.length - start))
  else if 2 < level fixed then
    .error (.malformed "lzh" s!"unsupported header level {level fixed}")
  else
    let declared := start + declaredSize fixed
    (Chunk.within start (if data.length = declared + 1 then data.length else declared)
      data.length).map some

theorem number_cut_header (fixed : List UInt8) :
    let record : Record := ⟨header.name, header.size, Layout.cut .little header.fields fixed⟩
    record.number "level_identifier" = .ok (level fixed)
      ∧ record.number "header_size" = .ok (numberAt .little fixed 0 1)
      ∧ record.number "header_checksum" = .ok (numberAt .little fixed 1 1)
      ∧ record.number "compressed_size" = .ok (numberAt .little fixed 7 4) :=
  ⟨number_cut (by decide : place? header.fields _ = some (20, .u8)) (fun _ => rfl) _ _ _,
    number_cut (by decide : place? header.fields _ = some (0, .u8)) (fun _ => rfl) _ _ _,
    number_cut (by decide : place? header.fields _ = some (1, .u8)) (fun _ => rfl) _ _ _,
    number_cut (by decide : place? header.fields _ = some (7, .u32)) (fun _ => rfl) _ _ _⟩

theorem headerSize_eq (first second level : Nat) : headerSize first second level
    = .ok (if level = 2 then first + 256 * second else first + 2) := by
  unfold headerSize
  split <;> rfl

theorem answer_boundary {session : Session} {data : List UInt8} {position : Nat}
    (h : session.source.Serves data position) (start : Nat) :
    (boundary start).answer session = outcome data start := by
  unfold outcome
  change (Probe.ofReading (header.parse .little) >>= _).answer (session.seekTo start) = _
  rcases (h.seekTo start).parse header (by decide) .little with ⟨hl, s1, h1, hs1⟩ | ⟨hl, s1, h1⟩
  · rw [Probe.answer_bind (ofReading_of_ok h1), if_neg (by omega)]
    generalize (data.drop start).take header.size = fixed
    obtain ⟨hlevel, hfirst, hsecond, hsize⟩ := number_cut_header fixed
    rw [hlevel, hfirst, hsecond, hsize, Probe.answer_ofExcept_bind]
    by_cases hv : 2 < level fixed
    · rw [if_pos hv]
      simp only [if_pos hv]
      rfl
    · rw [if_neg hv]
      simp only [if_neg hv]
      simp only [Probe.answer_ofExcept_bind, headerSize_eq, Arithmetic.add_exact]
      rw [Probe.answer_length_bind hs1, Probe.answer_reported, declaredSize, ← Nat.add_assoc start]
  · rw [Probe.answer_of_error (ofReading_of_error h1), if_pos hl]

theorem boundaryIn_eq (content : Array UInt8) (start : Nat) :
    Format.lzh.boundaryIn content start = outcome content.toList start :=
  (Format.boundaryIn_eq .lzh content start).trans
    (answer_boundary (Source.serves_ofContent content) start)

theorem outcome_eq_some {data : List UInt8} {start : Nat} {c : Chunk} :
    outcome data start = .ok (some c) ↔ start + header.size ≤ data.length
      ∧ level ((data.drop start).take header.size) ≤ 2
      ∧ c.start = start
      ∧ c.stop = (if data.length = start + declaredSize ((data.drop start).take header.size) + 1
          then data.length else start + declaredSize ((data.drop start).take header.size))
      ∧ c.stop ≤ data.length := by
  unfold outcome
  have hsize : 0 < header.size := by decide
  dsimp only
  split
  · simp only [reduceCtorEq, false_iff]
    omega
  split
  · simp only [reduceCtorEq, false_iff]
    omega
  rw [map_within_eq_some]
  constructor
  · rintro ⟨h1, h2, h3⟩
    exact ⟨by omega, by omega, h1, h2, h2 ▸ h3⟩
  · rintro ⟨-, -, h1, h2, h3⟩
    exact ⟨h1, h2, h2 ▸ h3⟩

end Lzh

namespace Ntfs

/-- The size of the volume that the bytes of a boot sector declare. -/
def volumeSize (fixed : List UInt8) : Nat :=
  saturatingMul (numberAt .little fixed 40 8) (numberAt .little fixed 11 2)

/-- The answer on some data. -/
def outcome (data : List UInt8) (start : Nat) : Except Error (Option Chunk) :=
  let fixed := (data.drop start).take bootSector.size
  if data.length - start < bootSector.size then
    .error (.truncated bootSector.name start bootSector.size (data.length - start))
  else if volumeSize fixed = 0 then .ok none
  else
    (Chunk.within start (saturatingAdd (saturatingAdd start bootSector.size) (volumeSize fixed))
      data.length).map some

theorem number_cut_bootSector (fixed : List UInt8) :
    let record : Record :=
      ⟨bootSector.name, bootSector.size, Layout.cut .little bootSector.fields fixed⟩
    record.number "total_sectors" = .ok (numberAt .little fixed 40 8)
      ∧ record.number "bytes_per_sector" = .ok (numberAt .little fixed 11 2) :=
  ⟨number_cut (by decide : place? bootSector.fields _ = some (40, .u64)) (fun _ => rfl) _ _ _,
    number_cut (by decide : place? bootSector.fields _ = some (11, .u16)) (fun _ => rfl) _ _ _⟩

theorem answer_boundary {session : Session} {data : List UInt8} {position : Nat}
    (h : session.source.Serves data position) (start : Nat) :
    (boundary start).answer session = outcome data start := by
  unfold outcome
  change (Probe.ofReading (bootSector.parse .little) >>= _).answer (session.seekTo start) = _
  rcases (h.seekTo start).parse bootSector (by decide) .little with ⟨hl, s1, h1, hs1⟩ | ⟨hl, s1, h1⟩
  · rw [Probe.answer_bind (ofReading_of_ok h1), if_neg (by omega)]
    generalize (data.drop start).take bootSector.size = fixed
    obtain ⟨hsectors, hsize⟩ := number_cut_bootSector fixed
    rw [hsectors, hsize, Probe.answer_ofExcept_bind, Probe.answer_ofExcept_bind]
    change Probe.answer (if volumeSize fixed = 0 then _ else _) _ = _
    by_cases hv : volumeSize fixed = 0
    · rw [if_pos hv, if_pos hv]
      rfl
    · rw [if_neg hv, if_neg hv]
      exact (Probe.answer_length_bind hs1).trans (Probe.answer_ofExcept _)
  · rw [Probe.answer_of_error (ofReading_of_error h1), if_pos hl]

theorem boundaryIn_eq (content : Array UInt8) (start : Nat) :
    Format.ntfs.boundaryIn content start = outcome content.toList start :=
  (Format.boundaryIn_eq .ntfs content start).trans
    (answer_boundary (Source.serves_ofContent content) start)

theorem outcome_eq_some {data : List UInt8} {start : Nat} {c : Chunk} :
    outcome data start = .ok (some c) ↔ start + bootSector.size ≤ data.length
      ∧ volumeSize ((data.drop start).take bootSector.size) ≠ 0
      ∧ c.start = start
      ∧ c.stop = saturatingAdd (saturatingAdd start bootSector.size)
        (volumeSize ((data.drop start).take bootSector.size))
      ∧ c.stop ≤ data.length := by
  unfold outcome
  have hsize : 0 < bootSector.size := by decide
  dsimp only
  split
  · simp only [reduceCtorEq, false_iff]
    omega
  split
  · simp only [Except.ok.injEq, reduceCtorEq, false_iff]
    omega
  rw [map_within_eq_some]
  constructor
  · rintro ⟨h1, h2, h3⟩
    exact ⟨by omega, by assumption, h1, h2, h2 ▸ h3⟩
  · rintro ⟨-, -, h1, h2, h3⟩
    exact ⟨h1, h2, h2 ▸ h3⟩

end Ntfs

namespace Ubifs

/-- The size of the image that the bytes of a superblock declare. -/
def imageSize (order : Endian) (fixed : List UInt8) : Nat :=
  numberAt order fixed 36 4 * numberAt order fixed 40 4

/-- The product of two numbers of four bytes. -/
theorem imageSize_le (order : Endian) (fixed : List UInt8) :
    imageSize order fixed ≤ (capacity 4 - 1) * (capacity 4 - 1) :=
  Nat.mul_le_mul (Nat.le_sub_one_of_lt (numberAt_lt order fixed 36 4))
    (Nat.le_sub_one_of_lt (numberAt_lt order fixed 40 4))

/-- The answer on some data. -/
def outcome (data : List UInt8) (start : Nat) : Except Error (Option Chunk) :=
  if data.length - start < 4 then .ok none
  else
    match detectEndian ((data.drop start).take 4) with
    | none => .ok none
    | some order =>
      let fixed := (data.drop start).take superblock.size
      if data.length - start < superblock.size then
        .error (.truncated superblock.name start superblock.size (data.length - start))
      else if imageSize order fixed = 0 then .ok none
      else (Chunk.within start (start + imageSize order fixed) data.length).map some

/-- The magic number as it stands in an image that is written in a byte order. -/
def magicBytes : Endian → List UInt8
  | .big => [0x06, 0x10, 0x18, 0x31]
  | .little => [0x31, 0x18, 0x10, 0x06]

/-- Fewer than four bytes do not hold so great a number. -/
theorem value_eq_nodeMagic_iff {magic : List UInt8} (hl : magic.length ≤ 4) (e : Endian) :
    e.value magic = nodeMagic ↔ magic = magicBytes e := by
  have hencode : magicBytes e = e.encode 4 nodeMagic := by cases e <;> rfl
  rcases Nat.lt_or_eq_of_le hl with hshort | hfour
  · have hlt : e.value magic < capacity 3 :=
      Nat.lt_of_lt_of_le (e.value_lt magic) (capacity_le (by omega))
    have hgreat : capacity 3 ≤ nodeMagic := by decide
    refine iff_of_false (by omega) fun hm => ?_
    rw [hm, hencode, Endian.length_encode] at hshort
    omega
  · rw [hencode, Endian.value_eq_iff (by rw [hfour]; decide), hfour]

theorem detectEndian_eq_some_iff {magic : List UInt8} {order : Endian} (hl : magic.length ≤ 4) :
    detectEndian magic = some order ↔ magic = magicBytes order := by
  unfold detectEndian
  simp only [value_eq_nodeMagic_iff hl]
  cases order with
  | big => split <;> simp [*]
  | little =>
    split
    · simp [*, magicBytes]
    · split <;> simp [*]

theorem number_cut_superblock (order : Endian) (fixed : List UInt8) :
    let record : Record :=
      ⟨superblock.name, superblock.size, Layout.cut order superblock.fields fixed⟩
    record.number "leb_size" = .ok (numberAt order fixed 36 4)
      ∧ record.number "leb_cnt" = .ok (numberAt order fixed 40 4) :=
  ⟨number_cut (by decide : place? superblock.fields _ = some (36, .u32)) (fun _ => rfl) _ _ _,
    number_cut (by decide : place? superblock.fields _ = some (40, .u32)) (fun _ => rfl) _ _ _⟩

theorem answer_boundary {session : Session} {data : List UInt8} {position : Nat}
    (h : session.source.Serves data position) (start : Nat) :
    (boundary start).answer session = outcome data start := by
  unfold outcome
  change (Probe.ofReading (Source.fill 4) >>= _).answer (session.seekTo start) = _
  obtain ⟨s1, h1, hs1⟩ := (h.seekTo start).fill 4
  have hl : ((data.drop start).take 4).length = min 4 (data.length - start) := by simp
  rw [Probe.answer_bind (ofReading_of_ok h1), hl]
  by_cases hshort : data.length - start < 4
  · rw [if_pos hshort, if_pos (by omega)]
    rfl
  rw [if_neg hshort, if_neg (by omega)]
  rcases detectEndian ((data.drop start).take 4) with _ | order
  · rfl
  have hs2 : (Session.seekTo ⟨s1, (session.seekTo start).log⟩ start).source.Serves data start :=
    hs1.seek start
  change (Probe.ofReading (superblock.parse order) >>= _).answer
    (Session.seekTo ⟨s1, (session.seekTo start).log⟩ start) = _
  rcases hs2.parse superblock (by decide) order with ⟨hl, s2, h2, hs2⟩ | ⟨hl, s2, h2⟩
  · rw [Probe.answer_bind (ofReading_of_ok h2)]
    dsimp only
    rw [if_neg (by omega)]
    generalize (data.drop start).take superblock.size = fixed
    obtain ⟨hsize, hcount⟩ := number_cut_superblock order fixed
    rw [hsize, hcount, Probe.answer_ofExcept_bind, Probe.answer_ofExcept_bind, Arithmetic.mul_exact]
    change Probe.answer (if imageSize order fixed = 0 then _ else _) _ = _
    by_cases hv : imageSize order fixed = 0
    · rw [if_pos hv, if_pos hv]
      rfl
    · rw [if_neg hv, if_neg hv]
      rw [Arithmetic.add_exact, Probe.answer_ofExcept_bind]
      exact (Probe.answer_length_bind hs2).trans (Probe.answer_ofExcept _)
  · rw [Probe.answer_of_error (ofReading_of_error h2)]
    dsimp only
    rw [if_pos hl]

theorem boundaryIn_eq (content : Array UInt8) (start : Nat) :
    Format.ubifs.boundaryIn content start = outcome content.toList start :=
  (Format.boundaryIn_eq .ubifs content start).trans
    (answer_boundary (Source.serves_ofContent content) start)

theorem outcome_eq_some {data : List UInt8} {start : Nat} {c : Chunk} :
    outcome data start = .ok (some c) ↔ start + superblock.size ≤ data.length
      ∧ ∃ order, detectEndian ((data.drop start).take 4) = some order
        ∧ imageSize order ((data.drop start).take superblock.size) ≠ 0
        ∧ c.start = start
        ∧ c.stop = start + imageSize order ((data.drop start).take superblock.size)
        ∧ c.stop ≤ data.length := by
  unfold outcome
  have hsize : 4 < superblock.size := by decide
  split
  · simp only [Except.ok.injEq, reduceCtorEq, false_iff]
    omega
  rcases detectEndian ((data.drop start).take 4) with _ | order
  · simp
  dsimp only
  split
  · simp only [reduceCtorEq, false_iff]
    omega
  split
  · simp [*]
  rw [map_within_eq_some]
  constructor
  · rintro ⟨h1, h2, h3⟩
    exact ⟨by omega, order, rfl, by assumption, h1, h2, h2 ▸ h3⟩
  · rintro ⟨_, _, ho, -, h1, h2, h3⟩
    cases ho
    exact ⟨h1, h2, h2 ▸ h3⟩

end Ubifs

namespace Ubi

/-- The first of the offsets `offset`, `offset + stride`, … at which the data have no marker. -/
def walkIn (data : List UInt8) (stride offset : Nat) : Nat :=
  if (data.drop offset).take marker.length = marker ∧ stride ≠ 0 then
    walkIn data stride (offset + stride)
  else offset
termination_by data.length - offset
decreasing_by
  rename_i h
  have hl := congrArg List.length h.1
  have : marker.length = 4 := rfl
  rw [List.length_take, List.length_drop] at hl
  omega

/-- The answer on some data. -/
def outcome (data : List UInt8) (start : Nat) : Except Error (Option Chunk) :=
  match mode (gaps (occurrences marker data)) with
  | none => .ok none
  | some blockSize =>
    if min (walkIn data blockSize start) data.length ≤ start then .ok none
    else (Chunk.within start (min (walkIn data blockSize start) data.length) data.length).map some

section Walk

variable {s : Source} {data : List UInt8} {position : Nat}

theorem serves_walk (hs : s.Serves data position) (stride offset : Nat) :
    ∃ s' p, walk stride offset s = .ok (walkIn data stride offset) s' ∧ s'.Serves data p := by
  obtain ⟨s2, h1, h2⟩ := (hs.seek offset).fill marker.length
  fun_induction walk stride offset s generalizing position s2 with
  | case1 offset s e s1 hr =>
    cases hr.symm.trans h1
  | case2 offset s bytes s1 hr _ hc next hnext _ ih =>
    cases hr.symm.trans h1
    cases hnext
    obtain ⟨s3, h3, h4⟩ := (h2.seek (offset + stride)).fill marker.length
    rw [walkIn, if_pos hc]
    exact ih h2 s3 h3 h4
  | case3 offset s bytes s1 hr _ hc e hadd => cases hadd
  | case4 offset s bytes s1 hr _ hc =>
    cases hr.symm.trans h1
    rw [walkIn, if_neg hc]
    exact ⟨s1, _, rfl, h2⟩

theorem serves_guessBlockSize (hs : s.Serves data position) :
    ∃ s' p, guessBlockSize s = .ok (mode (gaps (occurrences marker data))) s'
      ∧ s'.Serves data p := by
  obtain ⟨s', p, hs', hinfer⟩ := hs.inferStride marker
  refine ⟨s', p, ?_, hs'⟩
  rw [guessBlockSize, hinfer]
  rcases mode (gaps (occurrences marker data)) with _ | stride <;> rfl

end Walk

theorem answer_boundary {session : Session} {data : List UInt8} {position : Nat}
    (h : session.source.Serves data position) (start : Nat) :
    (boundary start).answer session = outcome data start := by
  obtain ⟨s1, p, h1, hs1⟩ := serves_guessBlockSize h
  unfold outcome
  change (Probe.ofReading guessBlockSize >>= _).answer session = _
  rw [Probe.answer_bind (ofReading_of_ok h1)]
  rcases mode (gaps (occurrences marker data)) with _ | blockSize
  · rfl
  dsimp only
  obtain ⟨s2, q, h2, hs2⟩ := serves_walk hs1 blockSize start
  rw [Probe.answer_bind (show Probe.report (.blockSizeGuessed blockSize) _ = .ok () _ from rfl),
    Probe.answer_length_bind hs1]
  have h3 : walkBlocks start blockSize s1 = .ok (walkIn data blockSize start) s2 := h2
  change (Probe.ofReading (walkBlocks start blockSize) >>= _).answer _ = _
  rw [Probe.answer_bind (ofReading_of_ok h3)]
  split
  · rfl
  · exact Probe.answer_ofExcept _

theorem boundaryIn_eq (content : Array UInt8) (start : Nat) :
    Format.ubi.boundaryIn content start = outcome content.toList start :=
  (Format.boundaryIn_eq .ubi content start).trans
    (answer_boundary (Source.serves_ofContent content) start)

end Ubi

end Carving
