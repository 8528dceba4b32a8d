import Mathlib.Logic.Relation
import Carving.Proofs.MemberData
import Carving.Proofs.OutputWindows
import Carving.Proofs.SqueezedZeros

/-!
# Compressed data at the end of a source

A member reader reads on when it holds no byte, and fails if none is left. Its decoder may then have
taken the whole of a complete stream and not have handed over all of the output, since a call hands
over one window at most. Decoding fails there although nothing is missing from the stream
(`data_ended_iff`), but never before a whole window has been handed over.
-/

namespace Carving

namespace Gzip

open Deflate

namespace Member

/-- The reader comes to another one by calls of its decoder behind which the data go on. -/
def Passes : Member → Member → Prop :=
  Relation.ReflTransGen fun m m' => m.decodeNext = .ok false m'

variable {m m' : Member} {data : List UInt8} {start position : Nat} {e : Error}

theorem Passes.readData_eq (h : m.Passes m') : m.readData = m'.readData := by
  induction h with
  | refl => rfl
  | tail _ hnext ih => exact ih.trans (readData_of_next hnext)

/-- Decoding fails where a call does. -/
theorem exists_passes_of_error (h : m.readData = .error e m') :
    ∃ n, m.Passes n ∧ n.decodeNext = .error e m' := by
  fun_induction readData m with
  | case1 m e' m1 hn =>
    cases h
    exact ⟨m, .refl, hn⟩
  | case2 => cases h
  | case3 m m1 hn _ ih =>
    obtain ⟨n, hpasses, herror⟩ := ih h
    exact ⟨n, .head hn hpasses, herror⟩

theorem Reached.supply_eq (h : m.Reached data start position) :
    m.supply = data.length - position + m.unused.length := by
  rw [supply, Source.remaining, h.serves.size_eq, h.serves.position_eq]

/-- Bytes run out exactly where none is held and none is left. -/
theorem Reached.refill_of_supply (h : m.Reached data start position) (hs : m.supply = 0) :
    ∃ m', m.refill = .error Defect.dataEnded.error m' := by
  rcases h.refill with ⟨m1, p, hr, -, hne⟩ | ⟨m1, hr, -⟩
  · obtain ⟨hsupply, -, -⟩ := refill_ok hr
    have := List.length_pos_iff.2 hne
    simp only [supply] at hsupply hs
    omega
  · exact ⟨m1, hr⟩

theorem Reached.supply_of_refill (h : m.Reached data start position)
    (hr : m.refill = .error e m') : m.supply = 0 := by
  rw [h.supply_eq]
  obtain ⟨session, _ | ⟨b, held⟩, decoder, register, size⟩ := m
  · obtain ⟨s, hfill, -⟩ := h.serves.fill inputSize
    rcases hb : (data.drop position).take inputSize with _ | ⟨b, held⟩
    · have hend := drop_of_take_nil hb (by decide)
      rw [List.drop_eq_nil_iff] at hend
      simp only [List.length_nil]
      omega
    · rw [hb] at hfill
      simp only [Member.refill, ofReading_of_ok hfill] at hr
      cases hr
  · cases hr

theorem Reached.supply_of_next (h : m.Reached data start position)
    (hn : m.decodeNext = .error Defect.dataEnded.error m') : m.supply = 0 := by
  unfold Member.decodeNext at hn
  rcases h.refill with ⟨m1, p, hr, h1, hne⟩ | ⟨m1, hr, -⟩
  · rw [hr] at hn
    rcases h1.decodeHeld hne with ⟨m2, hd, -⟩ | ⟨ended, m2, hd, -⟩
    · simp only [hd, EStateM.Result.error.injEq] at hn
      exact absurd hn.1 (by decide)
    · simp only [hd] at hn
      cases hn
  · exact h.supply_of_refill hr

/-- A call behind which the data go on has been one of the decoder. -/
theorem exists_decode (h : m.decodeHeld = .ok false m') :
    ∃ p, m.decoder.decode m.unused = (some p, m'.decoder) ∧ p.ended = false := by
  obtain ⟨session, held, decoder, register, size⟩ := m
  unfold decodeHeld at h
  simp only [Arithmetic.add_exact] at h
  rcases hd : decoder.decode held with ⟨_ | p, decoder'⟩ <;> rw [hd] at h
  · cases h
  · dsimp only at h
    split at h
    · cases h
    · rename_i hended
      split at h
      · cases h
      · cases h
        exact ⟨p, rfl, by simpa using hended⟩

theorem underway_next (h : m.decoder.Underway) (hn : m.decodeNext = .ok false m') :
    m'.decoder.Underway := by
  unfold decodeNext at hn
  rcases hr : m.refill with ⟨⟨⟩, m1⟩ | ⟨e, m1⟩ <;> rw [hr] at hn
  · obtain ⟨-, -, hdecoder⟩ := refill_ok hr
    obtain ⟨p, hd, hended⟩ := exists_decode hn
    rw [hdecoder] at hd
    exact h.decode hd hended
  · cases hn

theorem Reached.next (h : m.Reached data start position) (hn : m.decodeNext = .ok false m') :
    ∃ p, m'.Reached data start p := by
  rcases h.decodeNext with ⟨m1, h1, -⟩ | ⟨m1, -, h1, -⟩ | ⟨ended, m1, p, h1, h2, -⟩ <;>
    rw [hn] at h1 <;> cases h1
  exact ⟨p, h2⟩

/-- What a reader passes it has reached, and its decoder is underway there. -/
theorem Passes.reached (hp : m.Passes m') (hm : m.Reached data start position)
    (hu : m.decoder.Underway) :
    (∃ position', m'.Reached data start position') ∧ m'.decoder.Underway := by
  induction hp with
  | refl => exact ⟨⟨position, hm⟩, hu⟩
  | tail _ hn ih =>
    obtain ⟨⟨position', hreached⟩, hunderway⟩ := ih
    exact ⟨hreached.next hn, underway_next hunderway hn⟩

theorem passes_ofSession {session : Session} (h : session.source.Serves data start)
    (hp : (ofSession session).Passes m) :
    (∃ position, m.Reached data start position) ∧ m.decoder.Underway :=
  hp.reached (reached_ofSession h) Decoder.underway_start

/-- A reader that has taken all bytes of a complete stream and is not at its end has handed over a
whole window, and not the whole output. -/
theorem Reached.size_lt (h : m.Reached data start position) (hu : m.decoder.Underway)
    (hs : m.supply = 0) {out unused : List UInt8}
    (hi : inflate (data.drop start) = .complete out unused) :
    m.checksum = crc32 (out.take m.size) ∧ windowSize ≤ m.size ∧ m.size < out.length := by
  rw [h.supply_eq] at hs
  have hleft : m.unused ++ data.drop position = [] := by
    rw [List.append_eq_nil_iff, ← List.length_eq_zero_iff, List.drop_eq_nil_iff]
    omega
  have hfollows := h.follows
  rw [hleft] at hfollows
  obtain ⟨hbegins, hwindow, hlt⟩ := hu.handed_lt hfollows hi
  rw [h.checksum_eq, h.size_eq, ← List.prefix_iff_eq_take.1 hbegins]
  exact ⟨rfl, hwindow, hlt⟩

theorem Reached.readData_of_supply (h : m.Reached data start position) (hs : m.supply = 0) :
    ∃ m', m.readData = .error Defect.dataEnded.error m' := by
  obtain ⟨m', hrefill⟩ := h.refill_of_supply hs
  have hnext : m.decodeNext = .error Defect.dataEnded.error m' := by
    simp only [Member.decodeNext, hrefill]
  exact ⟨m', readData_of_error hnext⟩

/-- Decoding fails for want of bytes exactly where a call comes to have none. -/
theorem readData_error_iff {session : Session} (h : session.source.Serves data start) :
    (∃ m, (ofSession session).readData = .error Defect.dataEnded.error m)
      ↔ ∃ m, (ofSession session).Passes m ∧ m.supply = 0 := by
  constructor
  · rintro ⟨m, herror⟩
    obtain ⟨n, hpasses, hnext⟩ := exists_passes_of_error herror
    obtain ⟨⟨position, hn⟩, -⟩ := passes_ofSession h hpasses
    exact ⟨n, hpasses, hn.supply_of_next hnext⟩
  · rintro ⟨n, hpasses, hsupply⟩
    obtain ⟨⟨position, hn⟩, -⟩ := passes_ofSession h hpasses
    rw [hpasses.readData_eq]
    exact hn.readData_of_supply hsupply

/-- A reader that leaves nothing of a complete stream unused stands where the data end. -/
theorem Reached.at_end (h : m.Reached data start position) {out : List UInt8}
    (hi : inflate (data.drop start) = .complete out [])
    (hleft : m.unused ++ data.drop position = []) :
    m.unused = [] ∧ m.session.source.position = data.length := by
  obtain ⟨hunused, hdrop⟩ := List.append_eq_nil_iff.1 hleft
  have hne : data.drop start ≠ [] := fun he => by
    rw [he, inflate_nil] at hi
    cases hi
  have hle := h.le_end
  rw [List.drop_eq_nil_iff] at hdrop
  rw [Ne, List.drop_eq_nil_iff] at hne
  rw [h.serves.position_eq]
  exact ⟨hunused, by omega⟩

section AtOnce

variable {m n : Member} {p : Progress} {d : Decoder}

theorem readData_congr (h : m.decodeNext = n.decodeNext) : m.readData = n.readData := by
  rcases hn : n.decodeNext with ⟨_ | _, m'⟩ | ⟨e, m'⟩
  · rw [readData_of_next (h.trans hn), readData_of_next hn]
  · rw [readData_of_ended (h.trans hn), readData_of_ended hn]
  · rw [readData_of_error (h.trans hn), readData_of_error hn]

theorem exists_next (hu : m.unused ≠ []) (hd : m.decoder.decode m.unused = (some p, d))
    (he : p.ended = false) (hp : p.produced ≠ []) :
    ∃ n, m.decodeNext = .ok false n ∧ n.session = m.session ∧ n.decoder = d
      ∧ n.unused = m.unused.drop p.consumed := by
  obtain ⟨session, _ | ⟨b, held⟩, decoder, register, size⟩ := m
  · exact absurd rfl hu
  · refine ⟨⟨session, (b :: held).drop p.consumed, d, Crc32.feedAll register p.produced,
      size + p.produced.length⟩, ?_, rfl, rfl, rfl⟩
    simp only at hd
    simp [decodeNext, refill, decodeHeld, hd, he, hp]

theorem exists_ended (hu : m.unused ≠ []) (hd : m.decoder.decode m.unused = (some p, d))
    (he : p.ended = true) : ∃ n, m.decodeNext = .ok true n := by
  obtain ⟨session, _ | ⟨b, held⟩, decoder, register, size⟩ := m
  · exact absurd rfl hu
  · simp only at hd
    simp [decodeNext, refill, decodeHeld, hd, he]

variable {stream out : List UInt8}

/-- The whole bytes that decoding leaves when the output has so many windows. -/
def leftAt (stream : List UInt8) (count : Nat) : List UInt8 :=
  (run (some (count * windowSize)) .start (.ofBytes stream)).2.2.bytes

theorem leftAt_suffix {j k : Nat} (h : j ≤ k) : leftAt stream k <:+ leftAt stream j := by
  have hle : j * windowSize ≤ k * windowSize := Nat.mul_le_mul_right _ h
  have hresume := run_resume (roomFor_mono hle) .start (.ofBytes stream) []
  rw [BitReader.append_nil, BitReader.append_nil] at hresume
  rw [leftAt, hresume]
  exact run_suffix _ _ _

/-- A reader that has read the whole stream comes to where the output has so many windows, or has no
byte left before. -/
theorem exists_window (hw : m.decoder.AtWindow stream m.unused 0) (hu : m.unused = stream)
    (hi : inflate stream = .complete out []) {k : Nat} (hk : k * windowSize < out.length) :
    ∃ j ≤ k, ∃ n, m.Passes n ∧ n.session = m.session
      ∧ n.decoder.AtWindow stream n.unused j ∧ (leftAt stream j).length ≤ n.unused.length + 1
      ∧ (j ≠ 0 → n.unused.length ≤ (leftAt stream j).length) ∧ (n.unused = [] ∨ j = k) := by
  induction k with
  | zero =>
    have hsuffix : leftAt stream 0 <:+ stream := run_suffix _ _ _
    have hle := hsuffix.length_le
    exact ⟨0, Nat.le_refl 0, m, .refl, rfl, hw, by rw [hu]; omega, by simp, .inr rfl⟩
  | succ k ih =>
    have hlt : k * windowSize < out.length := by
      rw [Nat.succ_mul] at hk
      omega
    obtain ⟨j, hj, n, hpasses, hsession, hwindow, hleft, hmost, hstop⟩ := ih hlt
    by_cases hn : n.unused = []
    · exact ⟨j, Nat.le_succ_of_le hj, n, hpasses, hsession, hwindow, hleft, hmost, .inl hn⟩
    have hjk : j = k := hstop.resolve_left hn
    subst hjk
    obtain ⟨stop, s, r, hr, hcases⟩ := run_of_inflate hi ((j + 1) * windowSize)
    rcases hcases with ⟨hle, -, -⟩ | ⟨-, rfl, hs⟩
    · omega
    obtain ⟨p, d, hd, hended, hproduced, hwindow', hbytes⟩ := hwindow.decode_full hr hs
    obtain ⟨n', hnext, hsession', rfl, hunused⟩ := exists_next hn hd hended hproduced
    rw [← hunused] at hwindow' hbytes
    have hlength : r.bytes.length ≤ n'.unused.length + 1
        ∧ n'.unused.length ≤ r.bytes.length := by
      rcases hbytes with heq | ⟨b, heq⟩ <;> simp [heq]
    have hat : leftAt stream (j + 1) = r.bytes := by rw [leftAt, hr]
    rw [← hat] at hlength
    exact ⟨j + 1, Nat.le_refl _, n', hpasses.tail hnext, hsession'.trans hsession, hwindow',
      hlength.1, fun _ => hlength.2, .inr rfl⟩

/-- What is left of the data is held after the first refill, if it is no more than a block. -/
theorem exists_read {session : Session} (h : session.source.Serves data start)
    (hl : (data.drop start).length ≤ inputSize) (hne : data.drop start ≠ []) :
    ∃ (m : Member) (position : Nat), m.Reached data start position ∧ m.unused = data.drop start
      ∧ m.decoder = .start ∧ m.session.source.remaining = 0
      ∧ (ofSession session).decodeNext = m.decodeNext := by
  obtain ⟨s, hfill, hs⟩ := h.fill inputSize
  rw [List.take_of_length_le hl] at hfill hs
  rcases hb : data.drop start with _ | ⟨b, bytes⟩
  · exact absurd hb hne
  rw [hb] at hfill
  have hrefill : (ofSession session).refill
      = .ok () ⟨{ session with source := s }, b :: bytes, .start, Crc32.start, 0⟩ := by
    simp only [ofSession, refill, ofReading_of_ok hfill]
  rcases (reached_ofSession h).refill with ⟨m, position, hr, hm, -⟩ | ⟨m, hr, -⟩ <;>
    cases hrefill.symm.trans hr
  refine ⟨_, position, hm, rfl, rfl, ?_, ?_⟩
  · have hposition := hs.position_eq
    rw [List.length_drop] at hposition
    simp only [Source.remaining, hs.size_eq]
    omega
  · simp only [decodeNext, hrefill]
    rfl

/-- A complete stream that is read at once and ends with the data is decoded if two bytes of it are
left when the last window that its output exceeds is full, and is not if none is. -/
theorem readData_at_once {session : Session} (h : session.source.Serves data start)
    (hl : (data.drop start).length ≤ inputSize)
    (hi : inflate (data.drop start) = .complete out []) {k : Nat} (hk : k ≠ 0)
    (hlt : k * windowSize < out.length) (hle : out.length ≤ (k + 1) * windowSize) :
    (leftAt (data.drop start) k = [] →
      ∃ m, readData (ofSession session) = .error Defect.dataEnded.error m)
    ∧ (2 ≤ (leftAt (data.drop start) k).length → ∃ m, readData (ofSession session) = .ok () m) := by
  have hne : data.drop start ≠ [] := fun he => by
    rw [he, inflate_nil] at hi
    cases hi
  obtain ⟨m, position, hm, hunused, hdecoder, hremaining, hnext⟩ := exists_read h hl hne
  have hwindow : m.decoder.AtWindow (data.drop start) m.unused 0 := by
    rw [hdecoder, hunused]
    exact Decoder.atWindow_start _
  obtain ⟨j, hj, n, hpasses, hsession, hw, hleft, hmost, hstop⟩ :=
    exists_window hwindow hunused hi hlt
  rw [readData_congr hnext, hpasses.readData_eq]
  refine ⟨fun hnone => ?_, fun htwo => ?_⟩
  · have hspent : n.unused = [] := by
      rcases hstop with hspent | rfl
      · exact hspent
      · have := hmost hk
        rw [hnone] at this
        exact List.length_eq_zero_iff.1 (Nat.le_zero.1 this)
    have hunderway : m.decoder.Underway := hdecoder ▸ Decoder.underway_start
    obtain ⟨⟨position', hn⟩, -⟩ := hpasses.reached hm hunderway
    refine hn.readData_of_supply ?_
    rw [supply, hsession, hremaining, hspent, List.length_nil]
  · have hle' := (@leftAt_suffix (data.drop start) _ _ hj).length_le
    have hmore : n.unused ≠ [] := fun he => by
      rw [he, List.length_nil] at hleft
      omega
    obtain rfl : j = k := hstop.resolve_left hmore
    obtain ⟨stop, s, r, hr, hcases⟩ := run_of_inflate hi ((j + 1) * windowSize)
    rcases hcases with ⟨-, rfl, hs⟩ | ⟨hlt', -, -⟩
    · obtain ⟨p, d, hd, hended⟩ := hw.decode_finished hr (by omega)
      obtain ⟨n', hn'⟩ := exists_ended hmore hd hended
      exact ⟨n', readData_of_ended hn'⟩
    · omega

end AtOnce

end Member

open Member

/-- Decoding fails for want of bytes exactly if the reader holds none and none is left before its
decoder has come to the end. That is so where the stream is unfinished. Where a complete stream ends
with the data, decoding succeeds, with the check and the size of the output, at the end of the data,
or it is so once a window of output or more, and not all of it, has been handed over. Which of these
it is for a stream that is read at once and exceeds a window depends on the last window that it
fills: decoding fails if no byte of the stream is left there, and succeeds if two are left. A single
byte that is left may have been taken ahead. -/
theorem data_ended_iff {session : Session} {data : List UInt8} {start : Nat}
    (h : session.source.Serves data start) :
    let m := ofSession session
    let stream := data.drop start
    ((∃ m', m.readData = .error Defect.dataEnded.error m')
        ↔ ∃ m', m.Passes m' ∧ m'.supply = 0)
    ∧ (inflate stream = .unfinished → ∃ m', m.readData = .error Defect.dataEnded.error m')
    ∧ ∀ out, inflate stream = .complete out [] →
      ((∃ m', m.readData = .ok () m' ∧ m'.checksum = crc32 out
          ∧ m'.storedSize = out.length % capacity 4 ∧ m'.unused = []
          ∧ m'.session.source.position = data.length)
        ∨ ∃ m', m.Passes m' ∧ m'.supply = 0 ∧ m'.checksum = crc32 (out.take m'.size)
          ∧ 32768 ≤ m'.size ∧ m'.size < out.length)
      ∧ ∀ k left, stream.length ≤ 8192 → k ≠ 0 → k * 32768 < out.length →
        out.length ≤ (k + 1) * 32768 →
        (run (some (k * 32768)) .start (.ofBytes stream)).2.2.bytes = left →
        (left = [] → ∃ m', m.readData = .error Defect.dataEnded.error m')
        ∧ (2 ≤ left.length → ∃ m', m.readData = .ok () m') := by
  intro m stream
  have hreached : m.Reached data start start := reached_ofSession h
  have hiff := readData_error_iff h
  refine ⟨hiff, fun hi => ?_, fun out hi => ⟨?_, ?_⟩⟩
  · rcases hreached.readData with ⟨m', -, hc⟩ | ⟨m', d, herror, -⟩ | ⟨m', p, -, hm', hstop, -⟩
    · cases hi.symm.trans hc
    · exact ⟨m', herror⟩
    · cases hi.symm.trans (hm'.follows.inflate_eq hstop)
  · rcases hreached.readData with ⟨m', -, hc⟩ | ⟨m', d, herror, -⟩ | ⟨m', p, hok, hm', hstop, hall⟩
    · cases hi.symm.trans hc
    · obtain ⟨n, hpasses, hsupply⟩ := hiff.1 ⟨m', herror⟩
      obtain ⟨⟨position, hn⟩, hunderway⟩ := passes_ofSession h hpasses
      exact .inr ⟨n, hpasses, hsupply, hn.size_lt hunderway hsupply hi⟩
    · have hi' := hm'.follows.inflate_eq hstop
      rw [← hall] at hi'
      obtain ⟨hout, hleft⟩ := Inflated.complete.inj (hi.symm.trans hi')
      obtain ⟨hunused, hposition⟩ := hm'.at_end hi hleft.symm
      exact .inl ⟨m', hok, by rw [hm'.checksum_eq, hout], by rw [hm'.storedSize_eq, hout],
        hunused, hposition⟩
  · rintro k left hl hk hlt hle rfl
    exact readData_at_once h hl hi hk hlt hle

/-- A stream of one stored block that ends with its source. -/
theorem data_ended_iff_stored :
    let data : List UInt8 := [1, 2, 0, 0xFD, 0xFF, 0x68, 0x69]
    (Session.ofSource (.hesitant data)).source.Serves data 0
      ∧ ∃ m, readData (.ofSession (.ofSource (.hesitant data))) = .ok () m
        ∧ m.checksum = crc32 [0x68, 0x69] ∧ m.storedSize = 2 ∧ m.session.source.position = 7 := by
  intro data
  have hs : (Session.ofSource (.hesitant data)).source.Serves data 0 := Source.serves_hesitant data
  have hi : inflate data = .complete [0x68, 0x69] [] := by cbv
  obtain ⟨-, -, hcomplete⟩ := data_ended_iff hs
  rcases (hcomplete _ hi).1 with ⟨m, hok, hc, hz, -, hp⟩ | ⟨m, -, -, -, hle, hlt⟩
  · exact ⟨hs, m, hok, hc, hz, hp⟩
  · simp only [List.length_cons, List.length_nil] at hlt
    omega

/-- A complete stream of 46 bytes for 32769 zeros, which ends with its source and is not decoded. -/
theorem data_ended_squeezed :
    let data := Squeezed.stream 31
    let session := Session.ofSource (.hesitant data)
    data.length = 46 ∧ session.source.Serves data 0
      ∧ inflate data = .complete (List.replicate 32769 0) []
      ∧ ∃ m, readData (.ofSession session) = .error Defect.dataEnded.error m := by
  intro data session
  have hs : session.source.Serves data 0 := Source.serves_hesitant data
  have hlength : data.length = 46 := rfl
  have hi : inflate data = .complete (List.replicate 32769 0) [] := Squeezed.inflate_stream 31
  obtain ⟨s, hr⟩ := Squeezed.run_stream_full (by decide : 519 + 1032 * 31 ≤ 32768) (by decide)
  have hnone : leftAt (data.drop 0) 1 = [] := congrArg (·.2.2.bytes) hr
  have hmany : 1 * windowSize < (List.replicate 32769 (0 : UInt8)).length := by
    rw [List.length_replicate]
    decide
  have hfew : (List.replicate 32769 (0 : UInt8)).length ≤ (1 + 1) * windowSize := by
    rw [List.length_replicate]
    decide
  have hshort : (data.drop 0).length ≤ inputSize := by
    rw [List.drop_zero, hlength]
    decide
  obtain ⟨hends, -⟩ := readData_at_once hs hshort hi Nat.one_ne_zero hmany hfew
  exact ⟨hlength, hs, hi, hends hnone⟩

end Gzip

end Carving
