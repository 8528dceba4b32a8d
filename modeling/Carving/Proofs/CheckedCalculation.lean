import Carving.Proofs.CheckedSearch
import Carving.Proofs.InflatedSize
import Carving.Proofs.InMemory

/-!
# Calculations with sums of 64 bits

The calculations again, with sums and products that fail where they need more than 64 bits. On data
in memory of at most 8 GiB none does, and so they answer what the calculations do; and that is a
chunk within the data, nothing, or an error that speaks against the candidate
(`boundaryIn_total`).
-/

namespace Carving.Checked

open Arithmetic (word add_word mul_word add_exact mul_exact)

/-- The chunk of the object that begins at `start`, if one does, by sums and products of 64 bits. -/
def boundary (format : Format) (start : Nat) : Probe (Option Chunk) :=
  @Format.boundary word format start

/-- The size of the largest data, 8 GiB. -/
def largest : Nat := 2 * capacity 4

section Agreement

variable {ε σ α β : Type}

theorem bind_congr_left {act act' : EStateM ε σ α} {next : α → EStateM ε σ β} {s : σ}
    (h : act s = act' s) : (act >>= next) s = (act' >>= next) s := by
  change EStateM.bind act next s = EStateM.bind act' next s
  rw [EStateM.bind, EStateM.bind, h]

theorem ofReading_congr {act act' : Reading α} {session : Session}
    (h : act session.source = act' session.source) :
    Probe.ofReading act session = Probe.ofReading act' session := by
  rw [Probe.ofReading, Probe.ofReading, h]

theorem ofExcept_ok_bind {a : α} {next : α → Probe β} :
    Probe.ofExcept (.ok a) >>= next = next a := rfl

section Gzip

open Gzip (Member)
open Deflate (mostInflated)

variable {m : Member} {data : List UInt8} {start position : Nat}

/-- The size of all output is bounded by the data that have been decoded. -/
theorem decodeHeld_eq (hl : mostInflated data.length < capacity 8)
    (h : m.Reached data start position) : @Member.decodeHeld word m = m.decodeHeld := by
  rcases h.follows.decode with ⟨d, hd, -⟩ | ⟨p, d, hd, hfollows, hcall⟩
  · simp only [Member.decodeHeld, hd]
  · have hhanded := hfollows.length_handed_le
    rw [hcall.handed_eq, List.length_append, ← h.size_eq, List.length_drop] at hhanded
    have hdrop := Deflate.mostInflated_le (Nat.sub_le data.length start)
    simp only [Member.decodeHeld, hd, add_exact]
    rw [add_word (by omega)]

theorem decodeNext_eq (hl : mostInflated data.length < capacity 8)
    (h : m.Reached data start position) : @Member.decodeNext word m = m.decodeNext := by
  unfold Member.decodeNext
  rcases h.refill with ⟨m1, p, hr, h1, -⟩ | ⟨m1, hr, -⟩
  · simp only [hr]
    exact decodeHeld_eq hl h1
  · simp only [hr]

theorem readData_eq (hl : mostInflated data.length < capacity 8)
    (h : m.Reached data start position) : @Member.readData word m = m.readData := by
  fun_induction Member.readData m generalizing position with
  | case1 m e m1 hn =>
    rw [@Member.readData.eq_def word]
    split <;> rename_i hf _ <;> cases hn.symm.trans ((decodeNext_eq hl h).symm.trans hf)
    rfl
  | case2 m m1 hn =>
    rw [@Member.readData.eq_def word]
    split <;> rename_i hf _ <;> cases hn.symm.trans ((decodeNext_eq hl h).symm.trans hf)
    rfl
  | case3 m m1 hn _ ih =>
    rw [@Member.readData.eq_def word]
    split <;> rename_i hf _ <;> cases hn.symm.trans ((decodeNext_eq hl h).symm.trans hf)
    rcases h.decodeNext with ⟨m', h1, -⟩ | ⟨m', d, h1, -⟩ | ⟨ended, m', p, h1, h2, -⟩ <;>
      cases hn.symm.trans h1
    exact ih h2

theorem readMember_eq {session : Session} (h : session.source.Serves data start)
    (hl : mostInflated data.length < capacity 8) :
    @Gzip.readMember word (.ofSession session) = Gzip.readMember (.ofSession session) := by
  unfold Gzip.readMember
  rcases Gzip.skipHeader_cases h with
    ⟨s, h1, -⟩ | ⟨header, rest, s, h1, -, -, hs⟩ | ⟨d, s, h1, -⟩
  · rw [bind_of_ok (Gzip.readHeader_of_ok h1), bind_of_ok (Gzip.readHeader_of_ok h1)]
    rfl
  · rw [bind_of_ok (Gzip.readHeader_of_ok h1), bind_of_ok (Gzip.readHeader_of_ok h1)]
    have hs' : ({ session with source := s } : Session).source.Serves data
      (start + header.encode.length) := hs
    exact bind_congr_left (readData_eq hl (Gzip.Member.reached_ofSession hs'))
  · have h2 : Member.readHeader (.ofSession session) = .error _ _ :=
      Gzip.onSession_of_error (ofReading_of_error h1)
    rw [bind_of_error h2, bind_of_error h2]

theorem gzip_eq {session : Session} (h : session.source.Serves data position)
    (hl : mostInflated data.length < capacity 8) (hd : data.length < capacity 8) (start : Nat) :
    @Gzip.boundary word start session = Gzip.boundary start session := by
  have h0 : (session.seekTo start).source.Serves data start := h.seekTo start
  change (Gzip.withMember (@Gzip.readMember word) >>= _) (session.seekTo start)
    = (Gzip.withMember Gzip.readMember >>= _) (session.seekTo start)
  have hmember : Gzip.withMember (@Gzip.readMember word) (session.seekTo start)
      = Gzip.withMember Gzip.readMember (session.seekTo start) := by
    rw [Gzip.withMember, Gzip.withMember, readMember_eq h0 hl]
  rcases Gzip.readMember_cases h0 with ⟨m, h1, -⟩ | ⟨m, bytes, rest, h1, -, -, hs⟩ | ⟨d, m, h1, -⟩
  · have h2 := Gzip.withMember_of_ok h1
    rw [bind_of_ok h2, bind_of_ok (hmember.trans h2)]
    rfl
  · have h2 := Gzip.withMember_of_ok h1
    rw [bind_of_ok h2, bind_of_ok (hmember.trans h2)]
    have htell : Probe.ofReading Source.tell m.session = .ok _ m.session := rfl
    change (Probe.ofReading Source.tell >>= _) _ = (Probe.ofReading Source.tell >>= _) _
    rw [bind_of_ok htell, bind_of_ok htell]
    exact bind_congr_left (ofReading_congr (skipRun_eq 0 (hs.size_eq ▸ hd)))
  · have h2 := Gzip.withMember_of_error h1
    rw [bind_of_error h2, bind_of_error (hmember.trans h2)]

end Gzip

section Headers

open Layout (numberAt numberAt_lt)

variable {session : Session} {data : List UInt8} {position : Nat}

theorem headerSize_lt {first second : Nat} (hf : first < capacity 1) (hs : second < capacity 1)
    (level : Nat) :
    (if level = 2 then first + 256 * second else first + 2) < capacity 2 := by
  have hone : capacity 1 = 256 := rfl
  have htwo : capacity 2 = 256 * 256 := rfl
  split <;> omega

theorem headerSize_eq {first second level : Nat} (hf : first < capacity 1)
    (hs : second < capacity 1) : @Lzh.headerSize word first second level
      = .ok (if level = 2 then first + 256 * second else first + 2) := by
  have hcapacity : capacity 2 < capacity 8 := by decide
  have hlt := headerSize_lt hf hs level
  unfold Lzh.headerSize
  split at hlt <;> rename_i hlevel
  · rw [if_pos hlevel, if_pos hlevel, add_word (by omega)]
  · rw [if_neg hlevel, if_neg hlevel, add_word (by omega)]

/-- Data that stay so far below the greatest number that one more header fits. -/
theorem lzh_eq_of_le (h : session.source.Serves data position)
    (hd : data.length + capacity 2 + capacity 4 ≤ capacity 8) (start : Nat) :
    @Lzh.boundary word start session = Lzh.boundary start session := by
  change (Probe.ofReading (Lzh.header.parse .little) >>= _) (session.seekTo start)
    = (Probe.ofReading (Lzh.header.parse .little) >>= _) (session.seekTo start)
  rcases (h.seekTo start).parse Lzh.header (by decide) .little with ⟨hl, s1, h1, -⟩ | ⟨hl, s1, h1⟩
  · rw [bind_of_ok (ofReading_of_ok h1), bind_of_ok (ofReading_of_ok h1)]
    generalize (data.drop start).take Lzh.header.size = fixed
    obtain ⟨hlevel, hfirst, hsecond, hsize⟩ := Lzh.number_cut_header fixed
    have hfirst' := numberAt_lt .little fixed 0 1
    have hsecond' := numberAt_lt .little fixed 1 1
    have hheader := headerSize_lt hfirst' hsecond' (Lzh.level fixed)
    have hdata := numberAt_lt .little fixed 7 4
    have hpos : 0 < Lzh.header.size := by decide
    rw [hlevel, hfirst, hsecond, hsize]
    simp only [ofExcept_ok_bind, headerSize_eq hfirst' hsecond', Lzh.headerSize_eq, add_exact]
    generalize (if Lzh.level fixed = 2 then _ else _ : Nat) = size at hheader ⊢
    rw [add_word (show start + size < capacity 8 by omega), ofExcept_ok_bind,
      add_word (show start + size + numberAt .little fixed 7 4 < capacity 8 by omega),
      ofExcept_ok_bind]
  · rw [bind_of_error (ofReading_of_error h1), bind_of_error (ofReading_of_error h1)]

/-- An image that ends before the greatest number needs no more than 64 bits. -/
theorem ubifs_eq_of_lt (h : session.source.Serves data position) {start : Nat}
    (hsum : ∀ order, Ubifs.detectEndian ((data.drop start).take 4) = some order →
      start + Ubifs.superblock.size ≤ data.length →
      start + Ubifs.imageSize order ((data.drop start).take Ubifs.superblock.size) < capacity 8) :
    @Ubifs.boundary word start session = Ubifs.boundary start session := by
  change (Probe.ofReading (Source.fill 4) >>= _) (session.seekTo start)
    = (Probe.ofReading (Source.fill 4) >>= _) (session.seekTo start)
  obtain ⟨s1, h1, hs1⟩ := (h.seekTo start).fill 4
  rw [bind_of_ok (ofReading_of_ok h1), bind_of_ok (ofReading_of_ok h1)]
  split
  · rfl
  rcases hd : Ubifs.detectEndian ((data.drop start).take 4) with _ | order
  · rfl
  have hs2 : (Session.seekTo ⟨s1, (session.seekTo start).log⟩ start).source.Serves data start :=
    hs1.seek start
  change (Probe.ofReading (Ubifs.superblock.parse order) >>= _)
    (Session.seekTo ⟨s1, (session.seekTo start).log⟩ start)
      = (Probe.ofReading (Ubifs.superblock.parse order) >>= _)
        (Session.seekTo ⟨s1, (session.seekTo start).log⟩ start)
  rcases hs2.parse Ubifs.superblock (by decide) order with ⟨hl, s2, h2, -⟩ | ⟨hl, s2, h2⟩
  · rw [bind_of_ok (ofReading_of_ok h2), bind_of_ok (ofReading_of_ok h2)]
    have hpos : 0 < Ubifs.superblock.size := by decide
    have hsum := hsum order hd (by omega)
    generalize (data.drop start).take Ubifs.superblock.size = fixed at hsum ⊢
    obtain ⟨hsize, hcount⟩ := Ubifs.number_cut_superblock order fixed
    rw [Ubifs.imageSize] at hsum
    rw [hsize, hcount]
    simp only [ofExcept_ok_bind, add_exact, mul_exact, add_word hsum,
      mul_word (Nat.lt_of_le_of_lt (Nat.le_add_left _ _) hsum)]
  · rw [bind_of_error (ofReading_of_error h2), bind_of_error (ofReading_of_error h2)]

theorem ubifs_eq (h : session.source.Serves data position) (hd : data.length ≤ largest)
    (start : Nat) : @Ubifs.boundary word start session = Ubifs.boundary start session := by
  refine ubifs_eq_of_lt h fun order _ hl => ?_
  generalize (data.drop start).take Ubifs.superblock.size = fixed
  have hsize := Ubifs.imageSize_le order fixed
  -- The superblock lies within the data, so that the greatest image just fits.
  have hall : largest - Ubifs.superblock.size + (capacity 4 - 1) * (capacity 4 - 1)
      < capacity 8 := by decide
  omega

end Headers

theorem stride_le {data : List UInt8} {stride : Nat}
    (h : mode (gaps (occurrences Ubi.marker data)) = some stride) : stride ≤ data.length := by
  have := gap_le (isFirstMode_of_mode h).mem
  omega

theorem ubi_eq {session : Session} {data : List UInt8} {position : Nat}
    (h : session.source.Serves data position) (hd : data.length ≤ largest) (start : Nat) :
    @Ubi.boundary word start session = Ubi.boundary start session := by
  have hall : largest + largest < capacity 8 := by decide
  obtain ⟨s1, p, h1, hs1⟩ := Ubi.serves_guessBlockSize h
  change (Probe.ofReading (@Ubi.guessBlockSize word) >>= _) session
    = (Probe.ofReading Ubi.guessBlockSize >>= _) session
  rw [bind_of_ok (ofReading_of_ok h1),
    bind_of_ok (ofReading_of_ok ((guessBlockSize_eq h (by omega)).trans h1))]
  rcases hm : mode (gaps (occurrences Ubi.marker data)) with _ | stride
  · rfl
  dsimp only
  have hwalk : @Ubi.walkBlocks word start stride s1 = Ubi.walkBlocks start stride s1 := by
    have hstride := stride_le hm
    exact walkBlocks_eq (by rw [hs1.size_eq]; omega)
  have hreport : ∀ session', Probe.report (.blockSizeGuessed stride) session'
    = .ok () { session' with log := session'.log ++ [.blockSizeGuessed stride] } := fun _ => rfl
  have hlength : Source.length s1 = .ok s1.content.size s1 := rfl
  rw [bind_of_ok (hreport _), bind_of_ok (hreport _)]
  change (Probe.ofReading Source.length >>= _) _ = (Probe.ofReading Source.length >>= _) _
  rw [bind_of_ok (ofReading_of_ok hlength), bind_of_ok (ofReading_of_ok hlength)]
  exact bind_congr_left (ofReading_congr hwalk)

/-- No sum needs more than 64 bits on data that are not larger than 8 GiB. -/
theorem boundary_eq {session : Session} {data : List UInt8} {position : Nat} (format : Format)
    (h : session.source.Serves data position) (hd : data.length ≤ largest) (start : Nat) :
    boundary format start session = format.boundary start session := by
  have hall : largest < capacity 8 := by decide
  cases format with
  | gzip =>
    have hinflated := Deflate.mostInflated_le hd
    have hlargest : Deflate.mostInflated largest < capacity 8 := by decide
    exact gzip_eq h (by omega) (by omega) start
  | lzh =>
    have hlargest : largest + capacity 2 + capacity 4 ≤ capacity 8 := by decide
    exact lzh_eq_of_le h (by omega) start
  | ntfs => rfl
  | ubifs => exact ubifs_eq h hd start
  | ubi => exact ubi_eq h hd start

end Agreement

end Carving.Checked

namespace Carving

/-- On data in memory of at most 8 GiB, a calculation from any offset finds nothing, or a chunk from
there that ends within the data, or an error that speaks only against the candidate. No sum or
product on the way needs more than 64 bits. -/
theorem boundaryIn_total {content : Array UInt8} (h : content.size ≤ Checked.largest)
    (format : Format) (start : Nat) :
    (format.boundaryIn content start = .ok none
      ∨ (∃ c, format.boundaryIn content start = .ok (some c) ∧ c.start = start ∧ start < c.stop
        ∧ c.stop ≤ content.size)
      ∨ ∃ e, format.boundaryIn content start = .error e ∧ e.rejectsCandidate = true)
    ∧ Checked.boundary format start (.ofSource (.ofContent content))
      = format.boundary start (.ofSource (.ofContent content)) := by
  constructor
  · rcases ha : format.boundaryIn content start with e | _ | c
    · exact .inr (.inr ⟨e, rfl, Format.rejects_of_boundaryIn ha⟩)
    · exact .inl rfl
    · obtain ⟨hstart, hstop⟩ := Format.bounds_of_boundaryIn ha
      exact .inr (.inl ⟨c, rfl, hstart, hstart ▸ c.start_lt_stop, hstop⟩)
  · have hs : (Session.ofSource (.ofContent content)).source.Serves content.toList 0 :=
      Source.serves_ofContent content
    exact Checked.boundary_eq format hs (by rwa [Array.length_toList]) start

/-- A header that declares the greatest sizes. -/
theorem boundaryIn_total_greatest :
    let content : Array UInt8 := #[255, 255, 0x2D, 0x6C, 0x68, 0x35, 0x2D, 255, 255, 255, 255,
      0, 0, 0, 0, 0, 0, 0, 0, 0x20, 2]
    content.size ≤ Checked.largest
      ∧ Format.lzh.boundaryIn content 0 = .error (.invalidChunk 0 4295032830 21)
      ∧ Checked.boundary .lzh 0 (.ofSource (.ofContent content))
        = Format.lzh.boundary 0 (.ofSource (.ofContent content)) := by
  intro content
  have h : content.size ≤ Checked.largest := by decide
  have hlevel : ¬2 < Lzh.level ((content.toList.drop 0).take Lzh.header.size) := by decide +kernel
  have hsize : Lzh.declaredSize ((content.toList.drop 0).take Lzh.header.size) = 4295032830 := by
    decide +kernel
  have hlength : content.toList.length = 21 := rfl
  refine ⟨h, ?_, (boundaryIn_total h .lzh 0).2⟩
  rw [Lzh.boundaryIn_eq, Lzh.outcome, if_neg (by decide), if_neg hlevel, hsize, hlength]
  rfl

end Carving
