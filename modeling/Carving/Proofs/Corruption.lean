import Carving.Proofs.CheckValue
import Carving.Proofs.Tails
import Carving.Proofs.WrittenMember

/-!
# Damage to a member is noticed

Behind a header and a complete stream only the trailer of the stream's output makes a member
(`malformed_of_trailer`). So a member whose trailer is replaced is malformed, and so is one in whose
stored blocks a byte is: the stream is still complete and ends where it did, but the check value of
its output has changed (`corruption_detected`).
-/

namespace Carving.Gzip

open Deflate

/-- Every source that serves the data leads to a format error. -/
def Malformed (data : List UInt8) (start : Nat) : Prop :=
  ∀ (session : Session) (position : Nat), session.source.Serves data position →
    ∃ reason, (boundary start).answer session = .error (.malformed "gzip" reason)

theorem crc32_eq_of_trailer {out out' : List UInt8} (h : trailer out = trailer out') :
    crc32 out = crc32 out' := by
  have hword := (List.append_inj h (by simp)).1
  have hvalue := congrArg Endian.ofLittle hword
  rw [Endian.ofLittle_toLittle 4 _ (UInt32.toNat_lt _),
    Endian.ofLittle_toLittle 4 _ (UInt32.toNat_lt _)] at hvalue
  exact UInt32.toNat_inj.1 hvalue

section Damage

variable {data : List UInt8} {start : Nat} {header : Header}

/-- A header and a complete stream with bytes behind them that are not its trailer. -/
theorem malformed_of_trailer (hv : header.Valid) {stream out bytes rest : List UInt8}
    (hi : inflate stream = .complete out []) (hl : bytes.length = trailerSize)
    (hne : bytes ≠ trailer out)
    (hd : data.drop start = header.encode ++ (stream ++ (bytes ++ rest))) :
    Malformed data start := by
  intro session position h
  rcases boundary_cases h start with
    ⟨s, -, hm⟩ | ⟨c, s, member, rest', -, hb, hd', -⟩ | ⟨d, s, h1, -⟩
  · rw [hd, header.encode_eq] at hm
    exact absurd rfl hm
  · obtain ⟨stream', out', hi', he⟩ := hb.split hv (hd.symm.trans hd')
    obtain ⟨rfl, rfl, he⟩ := inflate_unique hi hi' he
    exact absurd (List.append_inj_left he (by rw [hl, length_trailer])) hne
  · exact ⟨d.reason, by rw [Probe.answer, h1]; rfl⟩

/-- Other bytes in the place of the trailer of a member. -/
theorem malformed_replace (hv : header.Valid) {stream out bytes rest : List UInt8}
    (hi : inflate stream = .complete out []) (hl : bytes.length = trailerSize)
    (hne : bytes ≠ trailer out)
    (hd : data.drop start = header.encode ++ stream ++ (trailer out ++ rest)) :
    Malformed (data.take (start + (header.encode ++ stream).length) ++ bytes ++ rest) start := by
  have hstart : (data.take start).length = start := by
    have hlength := congrArg List.length hd
    simp only [List.length_append, List.length_drop, length_trailer, trailerSize] at hlength
    rw [List.length_take]
    omega
  refine malformed_of_trailer hv hi hl hne (?_ : _ = header.encode ++ (stream ++ (bytes ++ rest)))
  rw [List.take_add, hd, List.take_left, List.append_assoc, List.append_assoc,
    List.drop_left' hstart, List.append_assoc]

/-- Another byte in the content of the stored blocks of a member. -/
theorem malformed_set (hv : header.Valid) {blocks : List StoredBlock} {rest : List UInt8}
    (hd : data.drop start
      = header.encode ++ (storedStream blocks ++ (trailer (payload blocks) ++ rest)))
    {offset : Nat} {byte : UInt8} (ho : InContent blocks offset)
    (hne : (storedStream blocks)[offset]? ≠ some byte) :
    Malformed (data.set (start + header.encode.length + offset) byte) start := by
  -- The bytes are again a stream of stored blocks, as long as before, and only its output differs.
  obtain ⟨blocks', before, a, behind, hset, -, ha, hp, hp'⟩ := exists_set_storedStream ho hne
  have hb' : blocks' ≠ [] := by
    rintro rfl
    simp [payload] at hp'
  have hcrc : trailer (payload blocks) ≠ trailer (payload blocks') := fun h => by
    have := crc32_eq_of_trailer h
    rw [hp, hp'] at this
    exact crc32_ne_of_ne before behind ha this
  have hlt := lt_length_of_inContent ho
  have hd' : (data.set (start + header.encode.length + offset) byte).drop start
      = header.encode ++ (storedStream blocks' ++ (trailer (payload blocks) ++ rest)) := by
    rw [List.drop_set, if_neg (by omega), hd, Nat.add_assoc, Nat.add_sub_cancel_left,
      List.set_append_right _ _ (by omega), Nat.add_sub_cancel_left,
      List.set_append_left _ _ hlt, hset]
  exact malformed_of_trailer hv (inflate_storedStream hb') (length_trailer _) hcrc hd'

end Damage

/-- A member that is accepted is malformed once its trailer is replaced by other bytes. If it holds
its payload in stored blocks, it is malformed also once any byte of the payload is. -/
theorem corruption_detected {session : Session} {data : List UInt8} {position start : Nat}
    {c : Chunk} (h : session.source.Serves data position)
    (hc : (boundary start).answer session = .ok (some c)) :
    (∃ m, Format.gzip.EndsAt data c m ∧ ∀ bytes : List UInt8, bytes.length = trailerSize →
        bytes ≠ (data.drop (m - trailerSize)).take trailerSize →
        Malformed (data.take (m - trailerSize) ++ bytes ++ data.drop m) start)
    ∧ ∀ header blocks rest, Header.Valid header →
        data.drop start = header.encode ++ storedStream blocks ++ rest →
        ∀ offset byte, InContent blocks offset →
          data[start + header.encode.length + offset]? ≠ some byte →
          Malformed (data.set (start + header.encode.length + offset) byte) start := by
  obtain ⟨session', hok⟩ := Probe.answer_eq_ok.1 hc
  rcases boundary_cases h start with
    ⟨s, h1, -⟩ | ⟨c', s, member, rest, h1, hb, hd, hstart, hstop⟩ | ⟨d, s, h1, -⟩ <;>
    cases hok.symm.trans h1
  constructor
  · refine ⟨start + member.length, ⟨member, rest, hb, hstart ▸ hd, hstart ▸ rfl⟩, ?_⟩
    intro bytes hl hne
    obtain ⟨header, stream, out, hv, hi, rfl⟩ := hb
    have htrailer : data.drop start = header.encode ++ stream ++ (trailer out ++ rest) := by
      rw [hd, List.append_assoc (header.encode ++ stream)]
    have hm : start + (header.encode ++ stream ++ trailer out).length - trailerSize
        = start + (header.encode ++ stream).length := by
      rw [List.length_append, length_trailer, ← Nat.add_assoc, Nat.add_sub_cancel]
    rw [hm, drop_add_of_eq_append htrailer, List.take_left' (length_trailer out)] at hne
    rw [hm, drop_add_of_eq_append hd]
    exact malformed_replace hv hi hl hne htrailer
  · intro header blocks rest' hv hd' offset byte ho hne
    rw [List.append_assoc] at hd'
    have hblocks : blocks ≠ [] := by
      rintro rfl
      exact ho
    obtain ⟨stream, out, hi, he⟩ := hb.split hv (hd'.symm.trans hd)
    obtain ⟨rfl, rfl, rfl⟩ := inflate_unique (inflate_storedStream hblocks) hi he
    refine malformed_set hv hd' ho ?_
    rwa [← List.getElem?_drop, drop_add_of_eq_append hd',
      List.getElem?_append_left (lt_length_of_inContent ho)] at hne

/-- The first byte of a payload of two, from a device that delivers single bytes. -/
theorem corruption_detected_first_byte :
    let header : Header := ⟨false, [0, 0, 0, 0, 0, 3], none, none, none, none⟩
    let data := [0x77] ++ storedMember header [⟨0, [0x68, 0x69], by decide⟩] ++ [0, 0, 0xFF]
    (Session.ofSource (.hesitant data)).source.Serves data 0
      ∧ (∃ c, (boundary 1).answer (.ofSource (.hesitant data)) = .ok (some c))
      ∧ Malformed (data.set 16 0x48) 1 := by
  intro header data
  have hs : (Session.ofSource (.hesitant data)).source.Serves data 0 := Source.serves_hesitant data
  have hv : header.Valid := ⟨rfl, nofun, nofun, nofun, nofun⟩
  let blocks : List StoredBlock := [⟨0, [0x68, 0x69], by decide⟩]
  have hi : inflate (storedStream blocks) = .complete (payload blocks) [] :=
    inflate_storedStream (List.cons_ne_nil _ _)
  obtain ⟨c, s, h1, -⟩ := boundary_of_isMember hs ⟨header, _, _, hv, hi, rfl⟩
    (rfl : data.drop 1 = storedMember header blocks ++ [0, 0, 0xFF])
  have hc : (boundary 1).answer (.ofSource (.hesitant data)) = .ok (some c) :=
    Probe.answer_eq_ok.2 ⟨s, h1⟩
  refine ⟨hs, ⟨c, hc⟩, (corruption_detected hs hc).2 header blocks
    (trailer (payload blocks) ++ [0, 0, 0xFF]) hv rfl 5 0x48 (.inl ⟨0, rfl, by decide⟩) ?_⟩
  decide +kernel

end Carving.Gzip
