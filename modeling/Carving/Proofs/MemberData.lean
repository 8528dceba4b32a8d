import Carving.Gzip.Boundary
import Carving.Proofs.Serving
import Carving.Proofs.StreamGrammar

/-!
# Decoding a member is inflating what follows its header

A member reader decodes from a buffer that it fills from its source, and hands over output in
pieces. `Reached` says where it stands between two calls of its decoder: the bytes that it holds are
those before the position, the decoder follows the stream, and the check and the size are those
of the output so far. Each call keeps it, so that the reader comes to the end of the compressed
data exactly where one inflation of all that follows does (`readData_refines`).
-/

namespace Carving.Gzip

open Deflate

namespace Member

/-- The reader has decoded the stream that begins at `start` up to the bytes that it holds. -/
structure Reached (m : Member) (data : List UInt8) (start position : Nat) : Prop where
  serves : m.session.source.Serves data position
  held_eq : data.drop (position - m.unused.length) = m.unused ++ data.drop position
  held_le : m.unused.length ≤ inputSize
  start_le : start + m.unused.length ≤ position
  le_end : position ≤ max start data.length
  follows : m.decoder.Follows (data.drop start) (m.unused ++ data.drop position)
  register_eq : m.register = Crc32.feedAll Crc32.start m.decoder.handed
  size_eq : m.size = m.decoder.handed.length

variable {m : Member} {data : List UInt8} {start position : Nat}

theorem reached_ofSession {session : Session} (h : session.source.Serves data start) :
    (ofSession session).Reached data start start where
  serves := h
  held_eq := rfl
  held_le := Nat.zero_le _
  start_le := Nat.le_refl _
  le_end := Nat.le_max_left _ _
  follows := Decoder.follows_start _
  register_eq := rfl
  size_eq := rfl

/-- Bytes are read only when none are held; they run out only where the data end. -/
theorem Reached.refill (h : m.Reached data start position) :
    (∃ m' p, m.refill = .ok () m' ∧ m'.Reached data start p ∧ m'.unused ≠ [])
      ∨ ∃ m', m.refill = .error Defect.dataEnded.error m'
        ∧ m.decoder.Follows (data.drop start) [] := by
  obtain ⟨session, _ | ⟨b, held⟩, decoder, register, size⟩ := m
  · obtain ⟨s, h1, h2⟩ := h.serves.fill inputSize
    rcases hb : (data.drop position).take inputSize with _ | ⟨b, held⟩
    · refine .inr ⟨⟨{ session with source := s }, [], decoder, register, size⟩, ?_, ?_⟩
      · rw [hb] at h1
        simp only [Member.refill, ofReading_of_ok h1]
      · simpa [drop_of_take_nil hb (by decide)] using h.follows
    · have hp := drop_of_take hb
      rw [hb] at h1 h2
      refine .inl ⟨⟨{ session with source := s }, b :: held, decoder, register, size⟩, _, ?_,
        ⟨h2, ?_, ?_, ?_, ?_, ?_, h.register_eq, h.size_eq⟩, by simp⟩
      · simp only [Member.refill, ofReading_of_ok h1]
      · rwa [Nat.add_sub_cancel]
      · rw [← hb]
        exact List.length_take_le _ _
      · have := h.start_le
        simp only [List.length_nil] at this
        simp only
        omega
      · have hl := congrArg List.length hp
        have := h.le_end
        simp only [List.length_append, List.length_drop] at hl ⊢
        omega
      · have hf := h.follows
        rwa [List.nil_append, hp] at hf
  · exact .inl ⟨_, _, rfl, h, by simp⟩

theorem Reached.drop_held (h : m.Reached data start position) (count : Nat) :
    data.drop (position - (m.unused.drop count).length)
      = m.unused.drop count ++ data.drop position := by
  have hle := h.start_le
  rcases Nat.le_total count m.unused.length with hc | hc
  · rw [List.length_drop, show position - (m.unused.length - count)
      = position - m.unused.length + count by omega, ← List.drop_drop, h.held_eq,
      List.drop_append_of_le_length hc]
  · rw [List.drop_eq_nil_of_le hc]
    rfl

/-- A call of the decoder fails on a corrupt stream, or leads on. -/
theorem Reached.decodeHeld (h : m.Reached data start position) (hu : m.unused ≠ []) :
    (∃ m', m.decodeHeld = .error Defect.dataCorrupt.error m'
        ∧ inflate (data.drop start) = .corrupt)
      ∨ ∃ ended m', m.decodeHeld = .ok ended m' ∧ m'.Reached data start position
        ∧ (ended = true → m'.decoder.stop = .finished
          ∧ m'.decoder.handed = m'.decoder.state.output.toList) := by
  obtain ⟨session, held, decoder, register, size⟩ := m
  rcases h.follows.decode with ⟨d', hd, hc⟩ | ⟨p, d', hd, hf, hcall⟩
  · refine .inl ⟨⟨session, held, d', register, size⟩, ?_, hc⟩
    simp only [Member.decodeHeld, hd]
  · have hreached : ∀ log, Reached ⟨{ session with log := log }, held.drop p.consumed, d',
        Crc32.feedAll register p.produced, size + p.produced.length⟩ data start position := by
      intro log
      refine ⟨h.serves, h.drop_held _, ?_, ?_, h.le_end, hf, ?_, ?_⟩
      · have := h.held_le
        simp only [List.length_drop] at this ⊢
        omega
      · have := h.start_le
        simp only [List.length_drop] at this ⊢
        omega
      · rw [hcall.handed_eq, Crc32.feedAll_append, ← h.register_eq]
      · rw [hcall.handed_eq, List.length_append, ← h.size_eq]
    by_cases he : p.ended = true
    · refine .inr ⟨true, _, ?_, hreached (session.log ++ [.memberInflated d'.taken
        (size + p.produced.length) (held.drop p.consumed).length]), fun _ => hcall.ended he⟩
      simp only [Member.decodeHeld, hd, Arithmetic.add_exact, he, if_true]
    · refine .inr ⟨false, _, ?_, hreached session.log, fun hf => absurd hf Bool.false_ne_true⟩
      have hn : ¬(p.consumed = 0 ∧ p.produced = []) := by
        rintro ⟨h0, h1⟩
        exact hcall.not_stuck hu (by simpa using he) h0 h1
      simp only [Member.decodeHeld, hd, Arithmetic.add_exact, if_neg he, if_neg hn]

theorem Reached.decodeNext (h : m.Reached data start position) :
    (∃ m', m.decodeNext = .error Defect.dataCorrupt.error m'
        ∧ inflate (data.drop start) = .corrupt)
      ∨ (∃ m' d, m.decodeNext = .error Defect.dataEnded.error m'
        ∧ Decoder.Follows d (data.drop start) [])
      ∨ ∃ ended m' p, m.decodeNext = .ok ended m' ∧ m'.Reached data start p
        ∧ (ended = true → m'.decoder.stop = .finished
          ∧ m'.decoder.handed = m'.decoder.state.output.toList) := by
  unfold Member.decodeNext
  rcases h.refill with ⟨m1, p, hr, h1, hu⟩ | ⟨m1, hr, hf⟩
  · simp only [hr]
    rcases h1.decodeHeld hu with ⟨m', hd, hc⟩ | ⟨ended, m', hd, hm⟩
    · exact .inl ⟨m', hd, hc⟩
    · exact .inr (.inr ⟨ended, m', p, hd, hm⟩)
  · simp only [hr]
    exact .inr (.inl ⟨m1, m.decoder, rfl, hf⟩)

section Calls

variable {m' : Member} {e : Error}

theorem readData_of_next (h : m.decodeNext = .ok false m') : m.readData = m'.readData := by
  rw [readData]
  split <;> simp_all

theorem readData_of_ended (h : m.decodeNext = .ok true m') : m.readData = .ok () m' := by
  rw [readData]
  split <;> simp_all

theorem readData_of_error (h : m.decodeNext = .error e m') : m.readData = .error e m' := by
  rw [readData]
  split <;> simp_all

end Calls

/-- Decoding comes to the end of the stream, or the stream is corrupt, or the data end first. -/
theorem Reached.readData (h : m.Reached data start position) :
    (∃ m', m.readData = .error Defect.dataCorrupt.error m'
        ∧ inflate (data.drop start) = .corrupt)
      ∨ (∃ m' d, m.readData = .error Defect.dataEnded.error m'
        ∧ Decoder.Follows d (data.drop start) [])
      ∨ ∃ m' p, m.readData = .ok () m' ∧ m'.Reached data start p ∧ m'.decoder.stop = .finished
        ∧ m'.decoder.handed = m'.decoder.state.output.toList := by
  fun_induction Member.readData m generalizing position with
  | case1 m e m1 hn =>
    rcases h.decodeNext with ⟨m', h1, hc⟩ | ⟨m', d, h1, hf⟩ | ⟨ended, m', p, h1, -⟩ <;>
      rw [hn] at h1 <;> cases h1
    · exact .inl ⟨m1, rfl, hc⟩
    · exact .inr (.inl ⟨m1, d, rfl, hf⟩)
  | case2 m m1 hn =>
    rcases h.decodeNext with ⟨m', h1, hc⟩ | ⟨m', d, h1, hf⟩ | ⟨ended, m', p, h1, h2, h3⟩ <;>
      rw [hn] at h1 <;> cases h1
    exact .inr (.inr ⟨m1, p, rfl, h2, h3 rfl⟩)
  | case3 m m1 hn _ ih =>
    rcases h.decodeNext with ⟨m', h1, hc⟩ | ⟨m', d, h1, hf⟩ | ⟨ended, m', p, h1, h2, h3⟩ <;>
      rw [hn] at h1 <;> cases h1
    exact ih h2

theorem Reached.checksum_eq (h : m.Reached data start position) :
    m.checksum = crc32 m.decoder.handed := by
  rw [checksum, h.register_eq, crc32]

theorem Reached.storedSize_eq (h : m.Reached data start position) :
    m.storedSize = m.decoder.handed.length % capacity 4 := by
  rw [storedSize, h.size_eq]

/-- A reader that comes to the end has read a complete stream; one that fails has read none that
anything follows. -/
theorem readData_cases {session : Session} (h : session.source.Serves data start) :
    (∃ m p, readData (.ofSession session) = .ok () m ∧ m.Reached data start p
        ∧ inflate (data.drop start) = .complete m.decoder.handed (m.unused ++ data.drop p))
      ∨ ∃ (d : Defect) (m : Member), readData (.ofSession session) = .error d.error m
        ∧ ∀ out unused, inflate (data.drop start) = .complete out unused → unused = [] := by
  rcases (reached_ofSession h).readData with ⟨m, h1, hc⟩ | ⟨m, d, h1, hf⟩ | ⟨m, p, h1, h2, h3, h4⟩
  · refine .inr ⟨_, m, h1, fun out unused hi => ?_⟩
    rw [hc] at hi
    cases hi
  · exact .inr ⟨_, m, h1, fun out unused hi => hf.unused_eq_nil hi⟩
  · refine .inl ⟨m, p, h1, h2, ?_⟩
    rw [h4]
    exact h2.follows.inflate_eq h3

/-- The end of a complete stream lies before the bytes that the reader still holds. -/
theorem Reached.position_eq (h : m.Reached data start position) {stream out : List UInt8}
    (hs : data.drop start = stream ++ (m.unused ++ data.drop position))
    (hi : inflate stream = .complete out []) :
    position = start + stream.length + m.unused.length := by
  have hne : stream ≠ [] := fun he => by
    rw [he, inflate_nil] at hi
    cases hi
  have hpos := List.length_pos_iff.2 hne
  have hl := congrArg List.length hs
  have h1 := h.start_le
  have h2 := h.le_end
  simp only [List.length_append, List.length_drop] at hl
  omega

end Member

section Windows

variable {session : Session} {data : List UInt8} {start : Nat}
  (h : session.source.Serves data start)
include h

end Windows

end Carving.Gzip
