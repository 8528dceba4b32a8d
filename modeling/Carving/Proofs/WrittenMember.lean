import Carving.Proofs.MemberBoundary
import Carving.Proofs.StoredBlocks

/-!
# Members that are written are read back

A member reader that stands before a member passes over its header, decodes its stream and accepts
its trailer, whatever follows (`read_of_member`). So bytes that are written in stored blocks, cut in
any way, with any header before them, are read back with their check and their size, and the chunk
ends behind the padding (`written_member`).
-/

namespace Carving.Gzip

open Deflate

section Reader

variable {session : Session} {data : List UInt8} {start : Nat}

/-- Decoding ends behind the stream, with the check and the size of its output. -/
theorem readData_of_stream (h : session.source.Serves data start) {stream out rest : List UInt8}
    (hi : inflate stream = .complete out []) (hd : data.drop start = stream ++ rest)
    (hr : rest ≠ []) :
    ∃ m, Member.readData (.ofSession session) = .ok () m ∧ m.checksum = crc32 out
      ∧ m.storedSize = out.length % capacity 4
      ∧ m.session.source.Serves data (start + stream.length + m.unused.length) := by
  have hall := inflate_append hi rest
  rw [← hd, List.nil_append] at hall
  rcases Member.readData_cases h with ⟨m, p, h1, hreached, hi'⟩ | ⟨d, m, -, hno⟩
  · obtain ⟨rfl, hrest⟩ := Inflated.complete.inj (hall.symm.trans hi')
    have hp := hreached.position_eq (hrest ▸ hd) hi
    exact ⟨m, h1, hreached.checksum_eq, hreached.storedSize_eq, hp ▸ hreached.serves⟩
  · exact absurd (hno _ _ hall) hr

/-- A reader that stands before a member reads it, and then stands behind it. -/
theorem read_of_member (h : session.source.Serves data start) {header : Header} (hv : header.Valid)
    {stream out rest : List UInt8} (hi : inflate stream = .complete out [])
    (hd : data.drop start = header.encode ++ stream ++ trailer out ++ rest) :
    ∃ m1 m2 m3, Member.readHeader (.ofSession session) = .ok true m1
      ∧ Member.readData m1 = .ok () m2 ∧ Member.verifyTrailer m2 = .ok () m3
      ∧ m3.checksum = crc32 out ∧ m3.storedSize = out.length % capacity 4
      ∧ m3.session.source.Serves data
        (start + (header.encode ++ stream ++ trailer out).length) := by
  simp only [List.append_assoc] at hd
  obtain ⟨s1, h1, hs1⟩ := skipHeader_of_encode h hv hd
  have hd1 := drop_add_of_eq_append hd
  have hne : trailer out ++ rest ≠ [] := fun he => by
    have hl := congrArg List.length he
    simp [length_trailer, trailerSize] at hl
  have hs1' : ({ session with source := s1 } : Session).source.Serves data
    (start + header.encode.length) := hs1
  obtain ⟨m2, h2, hc, hz, hs2⟩ := readData_of_stream hs1' hi hd1 hne
  have hd2 := drop_add_of_eq_append hd1
  rw [trailer, ← hc, ← hz] at hd2
  rcases verifyTrailer_cases hs2 with ⟨s3, -, h3, hs3, -⟩ | ⟨-, -, -, hno⟩
  · refine ⟨_, m2, _, readHeader_of_ok h1, h2, h3, hc, hz, ?_⟩
    simpa only [List.length_append, length_trailer, Nat.add_assoc] using hs3
  · exact absurd hd2 (hno rest)

end Reader

/-- A member that holds its payload in stored blocks. -/
def storedMember (header : Header) (blocks : List StoredBlock) : List UInt8 :=
  header.encode ++ storedStream blocks ++ trailer (payload blocks)

/-- A payload that is written in stored blocks behind any header, with anything in front of the
member and zero bytes behind it, is found with these zero bytes. A reader of the member ends behind
its trailer, with the check and the size of the payload. -/
theorem written_member {session : Session} {header : Header} {blocks : List StoredBlock}
    {front rest : List UInt8} {zeros position : Nat} (hv : header.Valid) (hb : blocks ≠ [])
    (hr : rest.head? ≠ some 0)
    (h : session.source.Serves
      (front ++ storedMember header blocks ++ List.replicate zeros 0 ++ rest) position) :
    (∃ c session', boundary front.length session = .ok (some c) session'
      ∧ c.start = front.length
      ∧ c.stop = front.length + (storedMember header blocks).length + zeros)
    ∧ ∃ m1 m2 m3, Member.readHeader (.ofSession (session.seekTo front.length)) = .ok true m1
      ∧ Member.readData m1 = .ok () m2 ∧ Member.verifyTrailer m2 = .ok () m3
      ∧ m3.checksum = crc32 (payload blocks)
      ∧ m3.storedSize = (payload blocks).length % capacity 4
      ∧ m3.session.source.position = front.length + (storedMember header blocks).length := by
  have hi := inflate_storedStream hb
  have hd : (front ++ storedMember header blocks ++ List.replicate zeros 0 ++ rest).drop
      front.length = storedMember header blocks ++ (List.replicate zeros 0 ++ rest) := by
    simp only [List.append_assoc, List.drop_left]
  constructor
  · obtain ⟨c, s, h1, h2, h3⟩ := boundary_of_isMember h ⟨header, _, _, hv, hi, rfl⟩ hd
    rw [takeWhile_zeros (fun b hb => List.eq_of_mem_replicate hb) hr, List.length_replicate] at h3
    exact ⟨c, s, h1, h2, h3⟩
  · obtain ⟨m1, m2, m3, h1, h2, h3, hc, hz, hs⟩ := read_of_member (h.seekTo front.length) hv hi hd
    exact ⟨m1, m2, m3, h1, h2, h3, hc, hz, hs.position_eq⟩

/-- Two blocks of one byte each, the first with padding that is not zero, behind a header that has
all its fields. -/
theorem written_member_two_blocks :
    let header : Header :=
      ⟨true, [0, 0, 0, 0, 0, 3], some [7, 0], some [0x61], some [], some [1, 2]⟩
    let blocks : List StoredBlock := [⟨31, [0x68], by decide⟩, ⟨0, [0x69], by decide⟩]
    let data := [0x77] ++ storedMember header blocks ++ List.replicate 2 0 ++ [0xFF]
    header.Valid ∧ blocks ≠ [] ∧ [0xFF].head? ≠ some (0 : UInt8)
      ∧ (Session.ofSource (.hesitant data)).source.Serves data 0
      ∧ (∃ c session', boundary 1 (.ofSource (.hesitant data)) = .ok (some c) session'
        ∧ c.start = 1 ∧ c.stop = 42)
      ∧ ∃ m1 m2 m3, Member.readHeader (.ofSession ((Session.ofSource (.hesitant data)).seekTo 1))
          = .ok true m1
        ∧ Member.readData m1 = .ok () m2 ∧ Member.verifyTrailer m2 = .ok () m3
        ∧ m3.checksum = crc32 [0x68, 0x69] ∧ m3.storedSize = 2
        ∧ m3.session.source.position = 40 := by
  intro header blocks data
  have hv : header.Valid :=
    ⟨rfl, by simp [header, capacity], by simp [header], by simp [header], by simp [header]⟩
  have hs : (Session.ofSource (.hesitant data)).source.Serves data 0 := Source.serves_hesitant data
  have hl : (storedMember header blocks).length = 39 := by decide +kernel
  obtain ⟨hc, hm⟩ := written_member hv (by decide) (by decide) hs
  rw [hl] at hc hm
  exact ⟨hv, by decide, by decide, hs, hc, hm⟩

end Carving.Gzip
