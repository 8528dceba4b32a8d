import Carving.Proofs.HeaderGrammar
import Carving.Proofs.MemberData

/-!
# Where a member ends

A member is a header, a complete stream, and the trailer of what the stream inflates to. Bytes
begin with one member at most (`member_unique`). On a source that serves its data the calculation
ends behind the zero bytes that follow the member, if the data begin with one (`boundary_exact`);
what begins with the magic number and is no member is malformed.
-/

namespace Carving.Gzip

open Deflate

/-- The check of the output, and its size as far as four bytes hold it. -/
def trailer (out : List UInt8) : List UInt8 :=
  Endian.toLittle 4 (crc32 out).toNat ++ Endian.toLittle 4 (out.length % capacity 4)

theorem length_trailer (out : List UInt8) : (trailer out).length = trailerSize := by
  simp [trailer, trailerSize]

/-- A header, a complete stream, and the trailer of its output. -/
def IsMember (bytes : List UInt8) : Prop :=
  ∃ h stream out, Header.Valid h ∧ inflate stream = .complete out []
    ∧ bytes = h.encode ++ stream ++ trailer out

theorem IsMember.length_pos {bytes : List UInt8} (h : IsMember bytes) : 0 < bytes.length := by
  obtain ⟨_, _, out, -, -, rfl⟩ := h
  simp only [List.length_append, length_trailer, trailerSize]
  omega

theorem IsMember.take_two {bytes rest : List UInt8} (h : IsMember bytes) :
    (bytes ++ rest).take 2 = magic := by
  obtain ⟨header, _, _, -, -, rfl⟩ := h
  rw [header.encode_eq]
  rfl

/-- Bytes begin with one header at most. -/
theorem encode_unique {h h' : Header} (hv : h.Valid) (hv' : h'.Valid) {rest rest' : List UInt8}
    (he : h.encode ++ rest = h'.encode ++ rest') : h.encode = h'.encode ∧ rest = rest' := by
  -- Both headers are passed over in one source, which ends up in one place.
  have hs := Source.serves_hesitant (h.encode ++ rest)
  obtain ⟨s1, h1, hs1⟩ := skipHeader_of_encode hs hv rfl
  obtain ⟨s2, h2, hs2⟩ := skipHeader_of_encode hs hv' he
  rw [h1] at h2
  cases h2
  have hl := hs1.position_eq.symm.trans hs2.position_eq
  exact List.append_inj he (by omega)

/-- Behind the header of a member come its stream and its trailer. -/
theorem IsMember.split {bytes rest more : List UInt8} {h : Header} (hm : IsMember bytes)
    (hv : h.Valid) (he : h.encode ++ more = bytes ++ rest) :
    ∃ stream out, inflate stream = .complete out [] ∧ more = stream ++ (trailer out ++ rest) := by
  obtain ⟨h', stream, out, hv', hi, rfl⟩ := hm
  simp only [List.append_assoc] at he
  exact ⟨stream, out, hi, (encode_unique hv hv' he).2⟩

/-- Bytes begin with one member at most. -/
theorem member_unique {m m' rest rest' : List UInt8} (hm : IsMember m) (hm' : IsMember m')
    (he : m ++ rest = m' ++ rest') : m = m' ∧ rest = rest' := by
  obtain ⟨h, stream, out, hv, hi, rfl⟩ := hm
  obtain ⟨h', stream', out', hv', hi', rfl⟩ := hm'
  simp only [List.append_assoc] at he
  obtain ⟨h1, he⟩ := encode_unique hv hv' he
  obtain ⟨rfl, rfl, he⟩ := inflate_unique hi hi' he
  exact ⟨by rw [h1], List.append_cancel_left he⟩

section Trailer

variable {data : List UInt8} {position : Nat} {m : Member}

theorem onSession_of_ok {α : Type} {act : Probe α} {a : α} {session : Session}
    (h : act m.session = .ok a session) :
    Member.onSession act m = .ok a { m with session := session } := by
  obtain ⟨_, _, _, _, _⟩ := m
  simp only [Member.onSession] at h ⊢
  rw [h]

theorem onSession_of_error {α : Type} {act : Probe α} {e : Error} {session : Session}
    (h : act m.session = .error e session) :
    Member.onSession act m = .error e { m with session := session } := by
  obtain ⟨_, _, _, _, _⟩ := m
  simp only [Member.onSession] at h ⊢
  rw [h]

theorem verifyTrailer_of_fill {s1 s2 : Source} {bytes : List UInt8}
    (h1 : Source.rewind m.unused.length m.session.source = .ok () s1)
    (h2 : Source.fill trailerSize s1 = .ok bytes s2) :
    m.verifyTrailer = (if bytes.length < trailerSize then throw Defect.trailerTruncated.error
      else if Endian.ofLittle (bytes.take 4) ≠ m.checksum.toNat then
        throw (Defect.checksumMismatch (Endian.ofLittle (bytes.take 4)) m.checksum.toNat).error
      else if Endian.ofLittle (bytes.drop 4) ≠ m.storedSize then
        throw (Defect.sizeMismatch (Endian.ofLittle (bytes.drop 4)) m.storedSize).error
      else pure () : Decoding Unit)
        { m with session := { m.session with source := s2 }, unused := [] } := by
  unfold Member.verifyTrailer Member.verifyTrailerBy
  rw [bind_of_ok (show (get : Decoding Member) m = .ok m m from rfl),
    bind_of_ok (onSession_of_ok (ofReading_of_ok h1)), bind_of_ok (by rfl),
    bind_of_ok (onSession_of_ok (ofReading_of_ok h2))]
  by_cases hl : bytes.length < trailerSize
  · rw [if_pos hl, if_pos hl]
    rfl
  · rw [if_neg hl, if_neg hl]
    rfl

theorem eq_toLittle_iff {bytes : List UInt8} {checksum size : Nat} (hl : bytes.length = trailerSize)
    (hc : checksum < capacity 4) (hz : size < capacity 4) :
    bytes = Endian.toLittle 4 checksum ++ Endian.toLittle 4 size
      ↔ Endian.ofLittle (bytes.take 4) = checksum ∧ Endian.ofLittle (bytes.drop 4) = size := by
  constructor
  · rintro rfl
    rw [List.take_left' (Endian.length_toLittle 4 _), List.drop_left' (Endian.length_toLittle 4 _)]
    exact ⟨Endian.ofLittle_toLittle 4 _ hc, Endian.ofLittle_toLittle 4 _ hz⟩
  · rintro ⟨rfl, rfl⟩
    have h1 : (bytes.take 4).length = 4 := by simp [hl, trailerSize]
    have h2 : (bytes.drop 4).length = 4 := by simp [hl, trailerSize]
    have h3 := Endian.toLittle_ofLittle (bytes.take 4)
    have h4 := Endian.toLittle_ofLittle (bytes.drop 4)
    rw [h1] at h3
    rw [h2] at h4
    rw [h3, h4, List.take_append_drop]

/-- The bytes that are held are given back, so that the trailer is read from behind the data of the
member. It must be the one of its output. -/
theorem verifyTrailer_cases (hs : m.session.source.Serves data (position + m.unused.length)) :
    (∃ s rest, m.verifyTrailer
          = .ok () { m with session := { m.session with source := s }, unused := [] }
        ∧ s.Serves data (position + trailerSize)
        ∧ data.drop position = Endian.toLittle 4 m.checksum.toNat
          ++ Endian.toLittle 4 m.storedSize ++ rest)
      ∨ ∃ d m', m.verifyTrailer = .error (Defect.error d) m'
        ∧ ∀ rest, data.drop position ≠ Endian.toLittle 4 m.checksum.toNat
          ++ Endian.toLittle 4 m.storedSize ++ rest := by
  have hp := hs.position_eq
  have hs1 := hs.seek position
  obtain ⟨s2, h2, hs2⟩ := hs1.fill trailerSize
  have h1 : Source.rewind m.unused.length m.session.source
      = .ok () { m.session.source with position := position } := by
    rw [Source.rewind, if_pos (by omega), hp, Nat.add_sub_cancel]
  rw [verifyTrailer_of_fill h1 h2]
  have hd := drop_of_take (rfl : (data.drop position).take trailerSize = _)
  have hword : ∀ rest, data.drop position = Endian.toLittle 4 m.checksum.toNat
      ++ Endian.toLittle 4 m.storedSize ++ rest → (data.drop position).take trailerSize
        = Endian.toLittle 4 m.checksum.toNat ++ Endian.toLittle 4 m.storedSize :=
    fun rest h => by rw [h, List.take_left' (by simp [trailerSize])]
  have hle : ((data.drop position).take trailerSize).length ≤ trailerSize :=
    List.length_take_le _ _
  generalize (data.drop position).take trailerSize = bytes at hs2 hd hword hle
  by_cases hl : bytes.length < trailerSize
  · refine .inr ⟨.trailerTruncated, _, by rw [if_pos hl]; rfl, fun rest h => ?_⟩
    rw [hword rest h] at hl
    simp [trailerSize] at hl
  have hl8 : bytes.length = trailerSize := by omega
  have hchecksum : m.checksum.toNat < capacity 4 := UInt32.toNat_lt _
  have hsize : m.storedSize < capacity 4 := Nat.mod_lt _ (by decide)
  have hiff := eq_toLittle_iff hl8 hchecksum hsize
  rw [if_neg hl]
  by_cases hc : Endian.ofLittle (bytes.take 4) ≠ m.checksum.toNat
  · exact .inr ⟨.checksumMismatch _ _, _, by rw [if_pos hc]; rfl,
      fun rest h => hc (hiff.1 (hword rest h)).1⟩
  rw [if_neg hc]
  by_cases hz : Endian.ofLittle (bytes.drop 4) ≠ m.storedSize
  · exact .inr ⟨.sizeMismatch _ _, _, by rw [if_pos hz]; rfl,
      fun rest h => hz (hiff.1 (hword rest h)).2⟩
  rw [if_neg hz]
  have hb := hiff.2 ⟨Decidable.not_not.1 hc, Decidable.not_not.1 hz⟩
  exact .inl ⟨_, _, rfl, hl8 ▸ hs2, by rw [← hb]; exact hd⟩

end Trailer

section Calculation

variable {session : Session} {data : List UInt8} {start : Nat}

/-- Behind the header, the stream and its trailer are read if they are there. -/
theorem readBody_cases (h : session.source.Serves data start) :
    (∃ m stream out rest,
        (do Member.readData; Member.verifyTrailer : Decoding Unit) (.ofSession session) = .ok () m
        ∧ inflate stream = .complete out [] ∧ data.drop start = stream ++ (trailer out ++ rest)
        ∧ m.session.source.Serves data (start + (stream.length + (trailer out).length)))
      ∨ ∃ d m, (do Member.readData; Member.verifyTrailer : Decoding Unit) (.ofSession session)
          = .error (Defect.error d) m
        ∧ ∀ stream out rest, inflate stream = .complete out [] →
          data.drop start ≠ stream ++ (trailer out ++ rest) := by
  rcases Member.readData_cases h with ⟨m, p, h1, hr, hi⟩ | ⟨d, m, h1, hno⟩
  · obtain ⟨stream, hd, hi'⟩ := exists_of_inflate hi
    have hp := hr.position_eq hd hi'
    have hs := hr.serves
    rw [hp] at hs
    have htrailer : Endian.toLittle 4 m.checksum.toNat ++ Endian.toLittle 4 m.storedSize
        = trailer m.decoder.handed := by rw [hr.checksum_eq, hr.storedSize_eq, trailer]
    have hd' : data.drop (start + stream.length) = m.unused ++ data.drop p :=
      drop_add_of_eq_append hd
    rcases verifyTrailer_cases hs with ⟨s, rest, h2, hs2, hrest⟩ | ⟨d, m', h2, hno⟩
    · rw [htrailer, hd'] at hrest
      refine .inl ⟨_, stream, _, rest, by rw [bind_of_ok h1, h2], hi', by rw [hd, hrest], ?_⟩
      rwa [length_trailer, ← Nat.add_assoc]
    · refine .inr ⟨d, m', by rw [bind_of_ok h1, h2], fun stream' out rest hi2 hd2 => ?_⟩
      obtain ⟨rfl, rfl, hrest⟩ := inflate_unique hi' hi2 (hd.symm.trans hd2)
      rw [htrailer, hd'] at hno
      exact hno rest hrest
  · -- Decoding fails on a complete stream only where nothing follows it, not even a trailer.
    refine .inr ⟨d, m, bind_of_error h1, fun stream out rest hi hd => ?_⟩
    rw [hd, inflate_append hi, List.nil_append] at hno
    have hnil := congrArg List.length (hno _ _ rfl)
    rw [List.length_append, length_trailer] at hnil
    simp [trailerSize] at hnil

theorem readHeader_of_ok {found : Bool} {s : Source} (h : skipHeader session.source = .ok found s) :
    Member.readHeader (.ofSession session) = .ok found (.ofSession { session with source := s }) :=
  onSession_of_ok (ofReading_of_ok h)

theorem readMember_of_header {s : Source} (h : skipHeader session.source = .ok true s) :
    readMember (.ofSession session) = ((do Member.readData; Member.verifyTrailer : Decoding Unit)
      >>= fun _ => pure true) (.ofSession { session with source := s }) := by
  rw [readMember, bind_of_ok (readHeader_of_ok h)]
  exact congrFun (bind_assoc (Member.readData : Decoding Unit) (fun _ => Member.verifyTrailer)
    fun _ => pure true).symm _

/-- Reading a member tells whether the data begin with one. -/
theorem readMember_cases (h : session.source.Serves data start) :
    (∃ m, readMember (.ofSession session) = .ok false m ∧ (data.drop start).take 2 ≠ magic)
      ∨ (∃ m bytes rest, readMember (.ofSession session) = .ok true m ∧ IsMember bytes
        ∧ data.drop start = bytes ++ rest
        ∧ m.session.source.Serves data (start + bytes.length))
      ∨ ∃ d m, readMember (.ofSession session) = .error (Defect.error d) m
        ∧ (data.drop start).take 2 = magic
        ∧ ∀ bytes rest, IsMember bytes → data.drop start ≠ bytes ++ rest := by
  rcases skipHeader_cases h with
    ⟨s1, h1, hm⟩ | ⟨header, more, s1, h1, hv, hd, hs1⟩ | ⟨d, s1, h1, hm⟩
  · refine .inl ⟨.ofSession { session with source := s1 }, ?_, hm⟩
    rw [readMember, bind_of_ok (readHeader_of_ok h1)]
    rfl
  · have hm : (data.drop start).take 2 = magic := by
      rw [hd, header.encode_eq]
      rfl
    have hd1 := drop_add_of_eq_append hd
    have hs1' : ({ session with source := s1 } : Session).source.Serves data
      (start + header.encode.length) := hs1
    rw [readMember_of_header h1]
    rcases readBody_cases hs1' with ⟨m, stream, out, rest, h2, hi, hd2, hs2⟩ | ⟨d, m, h2, hno⟩
    · refine .inr (.inl ⟨m, header.encode ++ stream ++ trailer out, rest, ?_,
        ⟨header, stream, out, hv, hi, rfl⟩, ?_, ?_⟩)
      · rw [bind_of_ok h2]
        rfl
      · rw [hd, ← hd1, hd2]
        simp only [List.append_assoc]
      · simpa only [List.length_append, Nat.add_assoc] using hs2
    · refine .inr (.inr ⟨d, m, bind_of_error h2, hm, fun bytes rest hb he => ?_⟩)
      obtain ⟨stream, out, hi, rfl⟩ := hb.split hv (hd.symm.trans he)
      exact hno stream out rest hi hd1
  · refine .inr (.inr ⟨d, .ofSession { session with source := s1 }, ?_, hm, ?_⟩)
    · exact bind_of_error (onSession_of_error (ofReading_of_error h1))
    · rintro bytes rest ⟨header, stream, out, hv, -, rfl⟩ hd
      rw [List.append_assoc, List.append_assoc] at hd
      obtain ⟨s2, h2, -⟩ := skipHeader_of_encode h hv hd
      rw [h1] at h2
      cases h2

theorem withMember_of_ok {α : Type} {act : Decoding α} {a : α} {m : Member}
    (h : act (.ofSession session) = .ok a m) : withMember act session = .ok a m.session := by
  rw [withMember, h]

theorem withMember_of_error {α : Type} {act : Decoding α} {e : Error} {m : Member}
    (h : act (.ofSession session) = .error e m) :
    withMember act session = .error e m.session := by
  rw [withMember, h]

theorem boundary_eq (session : Session) (start : Nat) : boundary start session
    = (withMember readMember >>= fun found =>
        if !found then pure none else (do
          let memberEnd ← Source.tell
          let stop ← Source.skipRun 0
          if memberEnd < stop then Probe.report (.paddingAbsorbed (stop - memberEnd))
          let length ← Source.length
          Probe.ofExcept ((Chunk.within start stop length).map some)))
      (session.seekTo start) := rfl

theorem boundary_of_member {m : Member} {s : Source} {stop : Nat}
    (h1 : readMember (.ofSession (session.seekTo start)) = .ok true m)
    (h2 : Source.skipRun 0 m.session.source = .ok stop s) :
    ∃ log, boundary start session
      = Probe.ofExcept ((Chunk.within start stop s.content.size).map some) ⟨s, log⟩ := by
  rw [boundary_eq, bind_of_ok (withMember_of_ok h1)]
  change ∃ log, (Probe.ofReading Source.tell >>= _) m.session = _
  rw [bind_of_ok (show Probe.ofReading Source.tell m.session = .ok _ m.session from rfl)]
  change ∃ log, (Probe.ofReading (Source.skipRun 0) >>= _) m.session = _
  rw [bind_of_ok (ofReading_of_ok h2)]
  split
  · exact ⟨_, rfl⟩
  · exact ⟨_, rfl⟩

/-- The calculation finds the member that the data begin with, if they begin with one. -/
theorem boundary_cases {position : Nat} (h : session.source.Serves data position) (start : Nat) :
    (∃ s, boundary start session = .ok none s ∧ (data.drop start).take 2 ≠ magic)
      ∨ (∃ c s bytes rest, boundary start session = .ok (some c) s ∧ IsMember bytes
        ∧ data.drop start = bytes ++ rest ∧ c.start = start
        ∧ c.stop = start + bytes.length + (rest.takeWhile (· == 0)).length)
      ∨ ∃ d s, boundary start session = .error (Defect.error d) s
        ∧ (data.drop start).take 2 = magic
        ∧ ∀ bytes rest, IsMember bytes → data.drop start ≠ bytes ++ rest := by
  have h0 : (session.seekTo start).source.Serves data start := h.seekTo start
  rcases readMember_cases h0 with ⟨m, h1, hm⟩ | ⟨m, bytes, rest, h1, hb, hd, hs⟩ | ⟨d, m, h1, hm⟩
  · refine .inl ⟨m.session, ?_, hm⟩
    rw [boundary_eq, bind_of_ok (withMember_of_ok h1)]
    rfl
  · obtain ⟨s, h2, hs2⟩ := hs.skipRun 0
    rw [drop_add_of_eq_append hd] at h2 hs2
    obtain ⟨log, h3⟩ := boundary_of_member h1 h2
    have hl := congrArg List.length hd
    have hpos := hb.length_pos
    have hrun : (rest.takeWhile (· == 0)).length ≤ rest.length :=
      (List.takeWhile_sublist _).length_le
    rw [List.length_append, List.length_drop] at hl
    rw [Chunk.within_of_le (by omega) (by rw [hs2.size_eq]; omega)] at h3
    exact .inr (.inl ⟨_, _, bytes, rest, h3, hb, hd, rfl, rfl⟩)
  · refine .inr (.inr ⟨d, m.session, ?_, hm⟩)
    rw [boundary_eq]
    exact bind_of_error (withMember_of_error h1)

/-- A member at the offset is found, with the zero bytes that follow it. -/
theorem boundary_of_isMember {position : Nat} (h : session.source.Serves data position)
    {bytes rest : List UInt8} (hb : IsMember bytes) (hd : data.drop start = bytes ++ rest) :
    ∃ c s, boundary start session = .ok (some c) s ∧ c.start = start
      ∧ c.stop = start + bytes.length + (rest.takeWhile (· == 0)).length := by
  rcases boundary_cases h start with
    ⟨s, -, hm⟩ | ⟨c, s, bytes', rest', h1, hb', hd', h2, h3⟩ | ⟨d, s, -, -, hno⟩
  · rw [hd] at hm
    exact absurd hb.take_two hm
  · obtain ⟨rfl, rfl⟩ := member_unique hb hb' (hd.symm.trans hd')
    exact ⟨c, s, h1, h2, h3⟩
  · exact absurd hd (hno bytes rest hb)

end Calculation

section Zeros

theorem takeWhile_zeros {zeros rest : List UInt8} (hz : ∀ b ∈ zeros, b = 0)
    (hr : rest.head? ≠ some 0) : (zeros ++ rest).takeWhile (· == 0) = zeros := by
  rw [List.takeWhile_append_of_pos (fun b hb => by rw [hz b hb]; rfl)]
  rcases rest with _ | ⟨b, rest⟩
  · rw [List.takeWhile_nil, List.append_nil]
  · have hb : b ≠ 0 := fun h => hr (by rw [h]; rfl)
    rw [List.takeWhile_cons_of_neg (by simpa using hb), List.append_nil]

end Zeros

section Windows

variable {session : Session} {data : List UInt8} {position : Nat}
  (h : session.source.Serves data position) (start : Nat)
include h

end Windows

end Carving.Gzip
