import Carving.Proofs.Onward
import Carving.Proofs.WrittenMember

/-!
# The bytes that a member reader holds

A member reader is called for the header, the compressed data and the trailer of a member. Whatever
it is called for, however often, and whatever failures its source meets from call to call, the bytes
that it holds are those just before the position of its source, and the first of them never moves
back (`held_after_calls`). Once it has come to the end of the compressed data it stays there: to
decode again takes nothing, hands over nothing and succeeds.
-/

namespace Carving

namespace Deflate.Decoder

/-- A decoder that has found the end of its stream has nothing more to decode. -/
def Settled (d : Decoder) : Prop :=
  d.stop = .finished → d.state.phase = .finished ∧ d.state.pending = .nothing ∧ d.kept.bytes = []

/-- The decoder is at the end of its stream and has handed over all of the output. -/
structure Done (d : Decoder) : Prop where
  settled : d.Settled
  stop_eq : d.stop = .finished
  delivered_eq : d.delivered = d.state.output.size

theorem settled_start : start.Settled := nofun

theorem settled_advance (d : Decoder) (input : List UInt8) : (d.advance input).1.Settled := by
  intro hf
  have hstop := d.advance_stop input
  have hholds := runAhead_holds d.windowEnd d.state (d.lookahead input)
  rcases hr : runAhead d.windowEnd d.state (d.lookahead input) with ⟨stop, s, rest⟩
  rw [hr] at hstop hholds
  rw [hf] at hstop
  subst hstop
  rw [advance_of_ne_short hr (by simp)]
  exact ⟨hholds.1, hholds.2, rfl⟩

theorem settled_decode {d : Decoder} (h : d.Settled) (input : List UInt8) :
    (d.decode input).2.Settled := by
  have htwice : (d.advanceTwice input).1.Settled := by
    unfold advanceTwice
    dsimp only
    split
    · exact settled_advance _ _
    · exact settled_advance _ _
  unfold decode
  split
  · exact h
  · split
    · exact h
    · dsimp only
      split
      · exact htwice
      · exact htwice

/-- A call that comes to the end leaves the decoder there. -/
theorem done_of_ended {d d' : Decoder} {input : List UInt8} {p : Progress} (h : d.Settled)
    (hd : d.decode input = (some p, d')) (hp : p.ended = true) : d'.Done := by
  have hsettled := settled_decode h input
  rw [hd] at hsettled
  obtain ⟨b, consumed, hdeliver, -⟩ := exists_deliver hd
  simp only [deliver, Prod.mk.injEq] at hdeliver
  obtain ⟨rfl, rfl⟩ := hdeliver
  simp only [Bool.and_eq_true, decide_eq_true_eq] at hp
  exact ⟨hsettled, hp.1, hp.2⟩

/-- At the end a call takes nothing, hands over nothing, and changes nothing. -/
theorem Done.decode {d : Decoder} (h : d.Done) (input : List UInt8) :
    d.decode input = (some ⟨0, [], true⟩, d) := by
  obtain ⟨⟨phase, pending, output⟩, ⟨bits, bytes⟩, delivered, stop, taken⟩ := d
  obtain ⟨hsettled, hstop, hdelivered⟩ := h
  simp only at hstop hdelivered
  subst hstop hdelivered
  obtain ⟨rfl, rfl, rfl⟩ := hsettled rfl
  have hadvance : Decoder.advance ⟨⟨.finished, .nothing, output⟩, ⟨bits, []⟩, output.size,
      .finished, taken⟩ input = (⟨⟨.finished, .nothing, output⟩, ⟨bits, []⟩, output.size,
      .finished, taken⟩, input.length) := by
    have hahead : runAhead (Decoder.windowEnd ⟨⟨.finished, .nothing, output⟩, ⟨bits, []⟩,
        output.size, .finished, taken⟩) ⟨.finished, .nothing, output⟩ (Decoder.lookahead
        ⟨⟨.finished, .nothing, output⟩, ⟨bits, []⟩, output.size, .finished, taken⟩ input)
        = (.finished, ⟨.finished, .nothing, output⟩, ⟨bits, input⟩) := by
      simp [runAhead, run_finished, lookahead, Lookahead.reader, BitReader.append]
    rw [advance_of_ne_short hahead (by simp)]
    simp
  simp [Decoder.decode, waiting, advanceTwice, hadvance, deliver]

end Deflate.Decoder

namespace Gzip

open Deflate

/-- What a member reader is called for. -/
inductive Call
  | header
  | data
  | trailer
  deriving DecidableEq, Repr

/-- One call, and what the source meets meanwhile: the fault of its reads, and the text with which
it fails to go back. -/
structure Attempt where
  call : Call
  fault : Option Fault
  refusal : Option String
  deriving DecidableEq, Repr

/-- An attempt that meets no failure. -/
def Call.served (call : Call) : Attempt := ⟨call, none, none⟩

/-- Goes back, unless the source refuses to. -/
def rewindUnless (refusal : Option String) (count : Nat) : Reading Unit :=
  match refusal with
  | none => Source.rewind count
  | some text => throw (.io text)

namespace Member

/-- Where the first byte that is held stands, or the next one to read if none is. -/
def offset (m : Member) : Nat := m.session.source.position - m.unused.length

/-- The reader on a source that meets another fault from now on. -/
def meet (m : Member) (fault : Option Fault) : Member :=
  { m with session := { m.session with source := { m.session.source with fault := fault } } }

/-- The reader after a call, which may have failed. -/
def after (m : Member) (attempt : Attempt) : Member :=
  match attempt.call with
  | .header => final (readHeader (m.meet attempt.fault))
  | .data => final (readData (m.meet attempt.fault))
  | .trailer => final (verifyTrailerBy (rewindUnless attempt.refusal) (m.meet attempt.fault))

def afterAll (m : Member) (attempts : List Attempt) : Member := attempts.foldl after m

/-- The calls do not look for a header while bytes are held. -/
def Orderly : Member → List Attempt → Prop
  | _, [] => True
  | m, attempt :: attempts =>
    (attempt.call = .header → m.unused = []) ∧ (m.after attempt).Orderly attempts

theorem orderly_append {before behind : List Attempt} {m : Member} :
    m.Orderly (before ++ behind) ↔ m.Orderly before ∧ (m.afterAll before).Orderly behind := by
  induction before generalizing m with
  | nil => simp [Orderly, afterAll]
  | cons attempt before ih => simp [Orderly, afterAll, ih, and_assoc]

/-- The bytes that are held are those before the position, and all of them have been read. -/
structure InOrder (m : Member) (start : Nat) : Prop where
  held_eq : m.session.source.content.toList.extract m.offset m.session.source.position = m.unused
  held_le : m.unused.length ≤ inputSize
  start_le : start + m.unused.length ≤ m.session.source.position
  settled : m.decoder.Settled

/-- The source is the same, and what has been decoded of it is decoded still. -/
structure Onward (m m' : Member) : Prop where
  content_eq : m'.session.source.content = m.session.source.content
  pace_eq : m'.session.source.pace = m.session.source.pace
  offset_le : m.offset ≤ m'.offset

theorem Onward.refl (m : Member) : m.Onward m := ⟨rfl, rfl, Nat.le_refl _⟩

theorem Onward.trans {m n k : Member} (h : m.Onward n) (h' : n.Onward k) : m.Onward k :=
  ⟨h'.content_eq.trans h.content_eq, h'.pace_eq.trans h.pace_eq,
    Nat.le_trans h.offset_le h'.offset_le⟩

variable {m m' : Member} {start : Nat}

theorem inOrder_ofSession (session : Session) :
    (ofSession session).InOrder session.source.position where
  held_eq := by simp [ofSession, offset]
  held_le := Nat.zero_le _
  start_le := Nat.le_refl _
  settled := Decoder.settled_start

/-- A reader that holds nothing is in order wherever its source stands behind the start. -/
theorem inOrder_of_nil (hu : m.unused = []) (hs : start ≤ m.session.source.position)
    (hd : m.decoder.Settled) : m.InOrder start where
  held_eq := by simp [hu, offset]
  held_le := by simp [hu]
  start_le := by simpa [hu] using hs
  settled := hd

/-- A source that serves its data meets no fault. -/
theorem meet_none {data : List UInt8} {position : Nat}
    (hs : m.session.source.Serves data position) : m.meet none = m := by
  obtain ⟨⟨⟨_, _, _, _, _, fault⟩, _⟩, _, _, _, _⟩ := m
  have hfault : fault = none := hs.fault_eq_none
  rw [hfault]
  rfl

/-- The fault of the source is no part of the order. -/
theorem InOrder.meet (h : m.InOrder start) (fault : Option Fault) :
    (m.meet fault).InOrder start ∧ m.Onward (m.meet fault) :=
  ⟨⟨h.held_eq, h.held_le, h.start_le, h.settled⟩, rfl, rfl, Nat.le_refl _⟩

/-- The decoder takes bytes from the front of those that are held. -/
theorem InOrder.drop (h : m.InOrder start) (hsource : m'.session.source = m.session.source)
    {count : Nat} (hunused : m'.unused = m.unused.drop count) (hd : m'.decoder.Settled) :
    m'.InOrder start ∧ m.Onward m' := by
  have hle := h.start_le
  have hheld := h.held_eq
  have hlength : m'.unused.length = m.unused.length - count := by rw [hunused, List.length_drop]
  have hoffset : m.offset ≤ m'.offset := by
    simp only [offset, hsource, hlength]
    omega
  refine ⟨⟨?_, ?_, ?_, hd⟩, ⟨by rw [hsource], by rw [hsource], hoffset⟩⟩
  · rw [hsource, hunused]
    rcases Nat.le_total count m.unused.length with hc | hc
    · have hnext : m'.offset = m.offset + count := by
        simp only [offset, hsource, hlength]
        omega
      rw [← hheld, hnext]
      simp only [List.extract_eq_take_drop, List.drop_take, List.drop_drop]
      congr 1
      omega
    · have hend : m'.offset = m.session.source.position := by
        simp only [offset, hsource, hlength]
        omega
      simp [hend, List.drop_eq_nil_of_le hc]
  · have := h.held_le
    omega
  · rw [hsource]
    omega

theorem final_onSession {α : Type} (act : Probe α) (m : Member) :
    final (onSession act m) = { m with session := final (act m.session) } := by
  rcases h : act m.session with ⟨a, session⟩ | ⟨e, session⟩
  · rw [onSession_of_ok h]
    rfl
  · rw [onSession_of_error h]
    rfl

theorem InOrder.readHeader (h : m.InOrder start) (hu : m.unused = []) :
    (final m.readHeader).InOrder start ∧ m.Onward (final m.readHeader) := by
  obtain ⟨hcontent, hpace, -, hle⟩ := forward_skipHeader m.session.source
  have hstart := h.start_le
  have hoffset : m.offset ≤ (final (skipHeader m.session.source)).position :=
    Nat.le_trans (Nat.sub_le _ _) hle
  rw [Member.readHeader, final_onSession, final_ofReading]
  refine ⟨inOrder_of_nil hu ?_ h.settled, ⟨hcontent, hpace, ?_⟩⟩
  · simp only
    omega
  · simpa [offset, hu] using hle

/-- A block is read only if no byte is held, and then it is what is held. -/
theorem InOrder.refill (h : m.InOrder start) :
    (final m.refill).InOrder start ∧ m.Onward (final m.refill) := by
  obtain ⟨session, _ | ⟨b, held⟩, decoder, register, size⟩ := m
  · have hstart := h.start_le
    simp only [List.length_nil, Nat.add_zero] at hstart
    rcases hr : Source.fill inputSize session.source with ⟨_ | ⟨b, bytes⟩, s⟩ | ⟨e, s⟩
    · obtain ⟨hcontent, hpace, -, hle⟩ := (forward_fill inputSize).of_ok hr
      simp only [Member.refill, ofReading_of_ok hr]
      exact ⟨inOrder_of_nil rfl (Nat.le_trans hstart hle) h.settled, hcontent, hpace, hle⟩
    · obtain ⟨hcontent, hpace, -, hle⟩ := (forward_fill inputSize).of_ok hr
      simp only [Member.refill, ofReading_of_ok hr]
      obtain ⟨hbytes, hmost, -, hposition, -⟩ := Source.fill_ok hr
      have hoffset : s.position - (b :: bytes).length = session.source.position := by omega
      refine ⟨⟨?_, hmost, ?_, h.settled⟩, hcontent, hpace, Nat.le_of_eq hoffset.symm⟩
      · simp only [final, offset, hoffset]
        rw [hbytes, List.extract_eq_take_drop, hcontent, hposition, Nat.add_sub_cancel_left]
      · simp only [final]
        omega
    · obtain ⟨hcontent, hpace, -, hle⟩ := (forward_fill inputSize).of_error hr
      simp only [Member.refill, ofReading_of_error hr]
      exact ⟨inOrder_of_nil rfl (Nat.le_trans hstart hle) h.settled, hcontent, hpace, hle⟩
  · exact ⟨h, .refl _⟩

theorem InOrder.decodeHeld (h : m.InOrder start) :
    (final m.decodeHeld).InOrder start ∧ m.Onward (final m.decodeHeld) := by
  obtain ⟨session, held, decoder, register, size⟩ := m
  have hsettled := Decoder.settled_decode h.settled held
  simp only at hsettled
  unfold Member.decodeHeld
  simp only [Arithmetic.add_exact]
  rcases hd : decoder.decode held with ⟨_ | progress, decoder'⟩ <;> rw [hd] at hsettled
  · exact h.drop rfl (List.drop_zero).symm hsettled
  · dsimp only
    split
    · exact h.drop rfl rfl hsettled
    · split
      · exact h.drop rfl rfl hsettled
      · exact h.drop rfl rfl hsettled

theorem InOrder.decodeNext (h : m.InOrder start) :
    (final m.decodeNext).InOrder start ∧ m.Onward (final m.decodeNext) := by
  obtain ⟨horder, honward⟩ := h.refill
  unfold Member.decodeNext
  rcases hr : m.refill with ⟨⟨⟩, m1⟩ | ⟨e, m1⟩ <;> rw [hr] at horder honward
  · obtain ⟨horder', honward'⟩ := horder.decodeHeld
    exact ⟨horder', honward.trans honward'⟩
  · exact ⟨horder, honward⟩

theorem InOrder.readData (h : m.InOrder start) :
    (final m.readData).InOrder start ∧ m.Onward (final m.readData) := by
  fun_induction Member.readData m with
  | case1 m e m1 hn | case2 m m1 hn =>
    have hnext := h.decodeNext
    rwa [hn] at hnext
  | case3 m m1 hn _ ih =>
    obtain ⟨horder, honward⟩ := h.decodeNext
    rw [hn] at horder honward
    obtain ⟨horder', honward'⟩ := ih horder
    exact ⟨horder', honward.trans honward'⟩

/-- The held bytes can be given back, since they have been read. -/
theorem rewind_held (h : m.unused.length ≤ m.session.source.position) :
    Source.rewind m.unused.length m.session.source
      = .ok () { m.session.source with position := m.offset } := by
  rw [Source.rewind, if_pos h, offset]

theorem final_verifyTrailer (h : m.unused.length ≤ m.session.source.position) :
    final m.verifyTrailer = { m with
      session := { m.session with
        source := final (Source.fill trailerSize { m.session.source with position := m.offset }) }
      unused := [] } := by
  have hrewind := rewind_held h
  rcases hf : Source.fill trailerSize { m.session.source with position := m.offset }
    with ⟨bytes, s⟩ | ⟨e, s⟩
  · rw [verifyTrailer_of_fill hrewind hf]
    split
    · rfl
    · split
      · rfl
      · split
        · rfl
        · rfl
  · unfold Member.verifyTrailer Member.verifyTrailerBy
    rw [bind_of_ok (show (get : Decoding Member) m = .ok m m from rfl),
      bind_of_ok (onSession_of_ok (ofReading_of_ok hrewind)), bind_of_ok (by rfl),
      bind_of_error (onSession_of_error (ofReading_of_error hf))]
    rfl

theorem InOrder.verifyTrailer (h : m.InOrder start) :
    (final m.verifyTrailer).InOrder start ∧ m.Onward (final m.verifyTrailer) := by
  obtain ⟨hcontent, hpace, -, hle⟩ :=
    forward_fill trailerSize { m.session.source with position := m.offset }
  have hstart := h.start_le
  have hoffset : start ≤ m.offset := by
    rw [offset]
    omega
  rw [final_verifyTrailer (by omega)]
  exact ⟨inOrder_of_nil rfl (Nat.le_trans hoffset hle) h.settled, hcontent, hpace, hle⟩

/-- Each call keeps the reader in order, whether or not it fails. -/
theorem InOrder.after (h : m.InOrder start) {attempt : Attempt}
    (hc : attempt.call = .header → m.unused = []) :
    (m.after attempt).InOrder start ∧ m.Onward (m.after attempt) := by
  obtain ⟨call, fault, refusal⟩ := attempt
  obtain ⟨hmeet, honward⟩ := h.meet fault
  have hstep : ((m.after ⟨call, fault, refusal⟩).InOrder start
      ∧ (m.meet fault).Onward (m.after ⟨call, fault, refusal⟩)) := by
    cases call with
    | header => exact hmeet.readHeader (hc rfl)
    | data => exact hmeet.readData
    | trailer =>
      cases refusal with
      | none => exact hmeet.verifyTrailer
      | some text =>
        -- What cannot be given back is held on to.
        exact ⟨hmeet, .refl _⟩
  exact ⟨hstep.1, honward.trans hstep.2⟩

theorem InOrder.afterAll {attempts : List Attempt} (h : m.InOrder start)
    (ho : m.Orderly attempts) :
    (m.afterAll attempts).InOrder start ∧ m.Onward (m.afterAll attempts) := by
  induction attempts generalizing m with
  | nil => exact ⟨h, .refl _⟩
  | cons attempt attempts ih =>
    obtain ⟨horder, honward⟩ := h.after ho.1
    obtain ⟨horder', honward'⟩ := ih horder ho.2
    exact ⟨horder', honward.trans honward'⟩

section Done

/-- A reader whose decoder is at the end holds on to its check and size. -/
structure SameOutput (m m' : Member) : Prop where
  decoder_eq : m'.decoder = m.decoder
  register_eq : m'.register = m.register
  size_eq : m'.size = m.size

theorem SameOutput.trans {m n k : Member} (h : m.SameOutput n) (h' : n.SameOutput k) :
    m.SameOutput k :=
  ⟨h'.decoder_eq.trans h.decoder_eq, h'.register_eq.trans h.register_eq,
    h'.size_eq.trans h.size_eq⟩

theorem decodeHeld_of_done (h : m.decoder.Done) : ∃ log, m.decodeHeld
    = .ok true { m with session := { m.session with log := log } } := by
  obtain ⟨session, held, decoder, register, size⟩ := m
  exact ⟨_, by simp only [decodeHeld, h.decode]; rfl⟩

theorem sameOutput_refill (m : Member) : m.SameOutput (final m.refill) := by
  obtain ⟨session, _ | ⟨b, held⟩, decoder, register, size⟩ := m
  · rcases hr : Source.fill inputSize session.source with ⟨_ | ⟨b, bytes⟩, s⟩ | ⟨e, s⟩
    · simp only [refill, ofReading_of_ok hr]
      exact ⟨rfl, rfl, rfl⟩
    · simp only [refill, ofReading_of_ok hr]
      exact ⟨rfl, rfl, rfl⟩
    · simp only [refill, ofReading_of_error hr]
      exact ⟨rfl, rfl, rfl⟩
  · exact ⟨rfl, rfl, rfl⟩

/-- At the end of the data, to decode is to read a block if none is held. -/
theorem readData_of_done (h : m.decoder.Done) :
    (∃ e m1, m.refill = .error e m1 ∧ m.readData = .error e m1)
      ∨ ∃ m1 log, m.refill = .ok () m1
        ∧ m.readData = .ok () { m1 with session := { m1.session with log := log } } := by
  have hsame := m.sameOutput_refill
  rcases hr : m.refill with ⟨⟨⟩, m1⟩ | ⟨e, m1⟩ <;> rw [hr] at hsame
  · have hdone : m1.decoder.Done := hsame.decoder_eq ▸ h
    obtain ⟨log, hheld⟩ := decodeHeld_of_done hdone
    refine .inr ⟨m1, log, rfl, ?_⟩
    exact readData_of_ended (by simp only [decodeNext, hr, hheld])
  · refine .inl ⟨e, m1, rfl, ?_⟩
    exact readData_of_error (by simp only [decodeNext, hr])

/-- No call decodes beyond the end of the compressed data. -/
theorem sameOutput_after (h : m.decoder.Done) (attempt : Attempt) (hm : m.InOrder start) :
    m.SameOutput (m.after attempt) := by
  obtain ⟨call, fault, refusal⟩ := attempt
  have hle := (hm.meet fault).1.start_le
  have hdone : (m.meet fault).decoder.Done := h
  have hstep : (m.meet fault).SameOutput (m.after ⟨call, fault, refusal⟩) := by
    unfold after
    cases call with
    | header =>
      dsimp only
      rw [readHeader, final_onSession]
      exact ⟨rfl, rfl, rfl⟩
    | data =>
      have hsame := (m.meet fault).sameOutput_refill
      dsimp only
      rcases readData_of_done hdone with ⟨e, m1, hr, hdata⟩ | ⟨m1, log, hr, hdata⟩ <;>
        rw [hr] at hsame <;> rw [hdata]
      · exact hsame
      · exact ⟨hsame.decoder_eq, hsame.register_eq, hsame.size_eq⟩
    | trailer =>
      cases refusal with
      | none =>
        have htrailer := final_verifyTrailer (m := m.meet fault) (by omega)
        exact htrailer ▸ ⟨rfl, rfl, rfl⟩
      | some text => exact ⟨rfl, rfl, rfl⟩
  exact ⟨hstep.decoder_eq, hstep.register_eq, hstep.size_eq⟩

theorem sameOutput_afterAll {attempts : List Attempt} (h : m.decoder.Done) (hm : m.InOrder start)
    (ho : m.Orderly attempts) : m.SameOutput (m.afterAll attempts) := by
  induction attempts generalizing m with
  | nil => exact ⟨rfl, rfl, rfl⟩
  | cons attempt attempts ih =>
    have hsame := sameOutput_after h attempt hm
    exact hsame.trans (ih (hsame.decoder_eq ▸ h) (hm.after ho.1).1 ho.2)

theorem done_of_decodeHeld (h : m.decoder.Settled) (hd : m.decodeHeld = .ok true m') :
    m'.decoder.Done := by
  obtain ⟨session, held, decoder, register, size⟩ := m
  unfold Member.decodeHeld at hd
  simp only [Arithmetic.add_exact] at hd
  rcases hp : decoder.decode held with ⟨_ | progress, decoder'⟩ <;> rw [hp] at hd
  · simp at hd
  · dsimp only at hd
    split at hd
    · rename_i hended
      simp only [EStateM.Result.ok.injEq] at hd
      obtain ⟨-, rfl⟩ := hd
      exact Decoder.done_of_ended h hp hended
    · split at hd <;> simp at hd

/-- Decoding that succeeds has come to the end of the compressed data. -/
theorem done_of_readData (h : m.InOrder start) (hd : m.readData = .ok () m') :
    m'.decoder.Done := by
  fun_induction Member.readData m with
  | case1 m e m1 hn => simp at hd
  | case2 m m1 hn =>
    simp only [EStateM.Result.ok.injEq, true_and] at hd
    subst hd
    unfold Member.decodeNext at hn
    have horder := h.refill.1
    rcases hr : m.refill with ⟨⟨⟩, m2⟩ | ⟨e, m2⟩ <;> rw [hr] at hn horder
    · exact done_of_decodeHeld horder.settled hn
    · simp at hn
  | case3 m m1 hn _ ih =>
    have horder := h.decodeNext.1
    rw [hn] at horder
    exact ih horder hd

/-- Where a byte is left, a block is read without a fault or with it, and begins where the bytes
that were held before ended. -/
theorem refill_of_offers {data : List UInt8} {fault : Option Fault} (hm : m.InOrder start)
    (h : m.session.source.Offers data m.session.source.position fault)
    (hleft : m.offset < data.length) :
    (∃ f m', fault = some f ∧ m.refill = .error (.io f.text) m')
      ∨ ∃ m', m.refill = .ok () m' ∧ m'.offset = m.offset := by
  obtain ⟨session, _ | ⟨b, held⟩, decoder, register, size⟩ := m
  · rcases h.fill inputSize with ⟨f, s, hf, hr⟩ | ⟨s, hr, hs⟩
    · refine .inl ⟨f, ⟨{ session with source := s }, [], decoder, register, size⟩, hf, ?_⟩
      simp only [refill, ofReading_of_error hr]
    · simp only [offset, List.length_nil, Nat.sub_zero] at hleft
      rcases hb : (data.drop session.source.position).take inputSize with _ | ⟨b, bytes⟩
      · have hend := drop_of_take_nil hb (by decide)
        rw [List.drop_eq_nil_iff] at hend
        omega
      · simp only at hr hs
        rw [hb] at hr hs
        refine .inr ⟨⟨{ session with source := s }, b :: bytes, decoder, register, size⟩, ?_, ?_⟩
        · simp only [refill, ofReading_of_ok hr]
        · simp only [offset, hs.position_eq, List.length_nil]
          omega
  · exact .inr ⟨_, rfl, rfl⟩

/-- To decode again where a byte is left fails with the fault, or takes nothing and changes
nothing. -/
theorem again_of_done {data : List UInt8} {fault : Option Fault} (h : m.decoder.Done)
    (hm : m.InOrder start)
    (ho : m.session.source.Offers data m.session.source.position fault)
    (hleft : m.offset < data.length) :
    (∃ f m', fault = some f ∧ m.readData = .error (.io f.text) m')
      ∨ ∃ m', m.readData = .ok () m' ∧ m'.offset = m.offset ∧ m'.checksum = m.checksum
        ∧ m'.storedSize = m.storedSize := by
  have hsame := m.sameOutput_refill
  rcases refill_of_offers hm ho hleft with ⟨f, m1, hf, hr⟩ | ⟨m1, hr, hoffset⟩ <;>
    rcases readData_of_done h with ⟨e, m2, hr', hagain⟩ | ⟨m2, log, hr', hagain⟩ <;>
    cases hr.symm.trans hr'
  · exact .inl ⟨f, m1, hf, hagain⟩
  · rw [hr] at hsame
    obtain ⟨-, hregister, hsize⟩ := hsame
    exact .inr ⟨_, hagain, hoffset, congrArg Crc32.close hregister,
      congrArg (· % capacity 4) hsize⟩

/-- After decoding has come to the end, it stays there whatever calls follow. -/
theorem done_of_calls {session : Session} {before behind : List Attempt} {attempt : Attempt}
    (ho : (ofSession session).Orderly (before ++ attempt :: behind)) (hc : attempt.call = .data)
    (hd : readData (((ofSession session).afterAll before).meet attempt.fault) = .ok () m') :
    ((ofSession session).afterAll (before ++ attempt :: behind)).decoder.Done := by
  obtain ⟨ho1, hheader, ho2⟩ := orderly_append.1 ho
  have horder := ((inOrder_ofSession session).afterAll ho1).1
  have hafter : ((ofSession session).afterAll before).after attempt = m' := by
    rw [after, hc]
    dsimp only
    rw [hd]
    rfl
  have horder' := (horder.after hheader).1
  rw [hafter] at ho2 horder'
  have hdone := done_of_readData (horder.meet attempt.fault).1 hd
  have hsame := sameOutput_afterAll hdone horder' ho2
  have hall : (ofSession session).afterAll (before ++ attempt :: behind) = m'.afterAll behind := by
    rw [← hafter]
    exact List.foldl_append
  rw [hall, hsame.decoder_eq]
  exact hdone

end Done

end Member

section Calls

open Member

/-- After any calls of a new reader, in any order and whether or not they failed, that never look
for a header while bytes are held, the bytes that it holds are those of the source just before the
position, no more than were read and no more than a block. Each call may meet another fault, and
fail to go back. What is held can be given back, and the source is then where it was at first or
behind. The first of the bytes held, or the next byte to be read, is never one that stands before
the one it was. And after decoding has come to the end of the compressed data, whatever calls
follow, to decode again succeeds if a byte is left and no read fails, and neither takes a byte nor
changes the check or the size. -/
theorem held_after_calls {session : Session} {attempts : List Attempt}
    (ho : (ofSession session).Orderly attempts) :
    let data := session.source.content.toList
    let m := (ofSession session).afterAll attempts
    let position := m.session.source.position
    m.session.source.content.toList = data
    ∧ data.extract (position - m.unused.length) position = m.unused
    ∧ m.unused.length ≤ min position 8192
    ∧ (∃ s, Source.rewind m.unused.length m.session.source = .ok () s
      ∧ session.source.position ≤ s.position)
    ∧ (∀ before behind, attempts = before ++ behind →
      ((ofSession session).afterAll before).offset ≤ m.offset)
    ∧ ∀ before attempt behind m', attempts = before ++ attempt :: behind → attempt.call = .data →
      readData (((ofSession session).afterAll before).meet attempt.fault) = .ok () m' →
      (∀ turn, 0 < (session.source.pace turn).most) → m.offset < data.length → ∀ fault,
      (∃ f m'', fault = some f ∧ (m.meet fault).readData = .error (.io f.text) m'')
      ∨ ∃ m'', (m.meet fault).readData = .ok () m'' ∧ m''.offset = m.offset
        ∧ m''.checksum = m.checksum ∧ m''.storedSize = m.storedSize := by
  intro data m position
  obtain ⟨horder, honward⟩ := (inOrder_ofSession session).afterAll ho
  have hcontent : m.session.source.content = session.source.content := honward.content_eq
  have hstart : session.source.position + m.unused.length ≤ position := horder.start_le
  have hheld := horder.held_eq
  rw [hcontent] at hheld
  refine ⟨congrArg _ hcontent, hheld, ?_, ⟨_, rewind_held (by omega), ?_⟩, ?_, ?_⟩
  · have hmost : m.unused.length ≤ 8192 := horder.held_le
    omega
  · show session.source.position ≤ position - m.unused.length
    omega
  · rintro before behind rfl
    obtain ⟨ho1, ho2⟩ := orderly_append.1 ho
    have hbehind := (((inOrder_ofSession session).afterAll ho1).1.afterAll ho2).2
    rw [show m = _ from List.foldl_append]
    exact hbehind.offset_le
  · rintro before attempt behind m' rfl hcall hdata hmost hleft fault
    have hoffers : (m.meet fault).session.source.Offers data position fault :=
      ⟨congrArg _ hcontent, rfl, rfl, fun _ turn => by
        rw [show (m.meet fault).session.source.pace = _ from honward.pace_eq]
        exact hmost turn⟩
    exact again_of_done (done_of_calls ho hcall hdata) (horder.meet fault).1 hoffers hleft

/-- A header, a stored block, and nine bytes of which the first eight are not its trailer. At first
the source refuses to go back to them. To decode again takes the last one and leaves it unused. -/
theorem held_after_calls_misfit :
    let header : Header := ⟨false, [0, 0, 0, 0, 0, 3], none, none, none, none⟩
    let stream : List UInt8 := [1, 2, 0, 0xFD, 0xFF, 0x68, 0x69]
    let data := header.encode ++ stream ++ List.replicate 9 0x5A
    let attempts := [Call.header.served, Call.data.served, ⟨.trailer, none, some "device busy"⟩,
      Call.trailer.served]
    let m := (ofSession (.ofSource (.hesitant data))).afterAll attempts
    (ofSession (.ofSource (.hesitant data))).Orderly attempts
      ∧ m.offset = 25 ∧ data.length = 26
      ∧ ∃ m', m.readData = .ok () m' ∧ m'.offset = 25 ∧ m'.checksum = m.checksum := by
  intro header stream data attempts m
  have hv : header.Valid := ⟨rfl, by simp [header], by simp [header], by simp [header],
    by simp [header]⟩
  have hi : Deflate.inflate stream = .complete [0x68, 0x69] [] := by cbv
  have hd : data.drop 0 = header.encode ++ (stream ++ List.replicate 9 0x5A) :=
    List.append_assoc _ _ _
  have hdrop : data.drop 10 = stream ++ List.replicate 9 0x5A := rfl
  obtain ⟨s1, h1, hs1⟩ := skipHeader_of_encode (Source.serves_hesitant data) hv hd
  have hs1' : (Session.mk s1 []).source.Serves data 10 := hs1
  obtain ⟨m2, h2, -, -, hs2⟩ := readData_of_stream hs1' hi hdrop (by simp)
  have hm1 : (ofSession (.ofSource (.hesitant data))).after Call.header.served
      = ofSession ⟨s1, []⟩ := by
    have hheader : readHeader (ofSession (.ofSource (.hesitant data))) = .ok true _ :=
      readHeader_of_ok h1
    change final (readHeader (ofSession (.ofSource (.hesitant data)))) = _
    rw [hheader]
    rfl
  have hmeet1 : (ofSession ⟨s1, []⟩).meet none = ofSession ⟨s1, []⟩ := meet_none hs1'
  have hm2 : (ofSession ⟨s1, []⟩).after Call.data.served = m2 := by
    change final (readData ((ofSession ⟨s1, []⟩).meet none)) = _
    rw [hmeet1, h2]
    rfl
  have hoffset : m2.offset = 17 := by
    rw [offset, hs2.position_eq]
    exact Nat.add_sub_cancel _ _
  obtain ⟨s3, h3, hs3⟩ := (hs2.seek 17).fill trailerSize
  have hm : m = { m2 with session := { m2.session with source := s3 }, unused := [] } := by
    have htrailer : m = final (verifyTrailer ((m2.meet none).meet none)) := by
      simp only [m, attempts, afterAll, List.foldl_cons, List.foldl_nil, hm1, hm2]
      rfl
    rw [htrailer, meet_none hs2, meet_none hs2,
      final_verifyTrailer (by rw [hs2.position_eq]; omega), hoffset, h3]
    rfl
  have hserves : m.session.source.Serves data 25 := by
    rw [hm]
    exact hs3
  have hoffset' : m.offset = 25 := by
    rw [hm]
    exact hs3.position_eq
  have ho : (ofSession (.ofSource (.hesitant data))).Orderly attempts := by
    simp [attempts, Orderly, Call.served, ofSession]
  obtain ⟨-, -, -, -, -, hagain⟩ := held_after_calls ho
  have hdata : readData (((ofSession (.ofSource (.hesitant data))).afterAll
      [Call.header.served]).meet none) = .ok () m2 := by
    rw [← h2, ← hmeet1, ← hm1]
    rfl
  have hleft : m.offset < data.length := by
    rw [hoffset']
    decide
  have hend := hagain [Call.header.served] Call.data.served _ m2 rfl rfl hdata
    (fun _ => Nat.one_pos) hleft none
  rw [show ((ofSession (.ofSource (.hesitant data))).afterAll attempts).meet none = m from
    meet_none hserves] at hend
  rcases hend with ⟨_, _, hf, -⟩ | ⟨m', h4, h5, h6, -⟩
  · cases hf
  · exact ⟨ho, hoffset', rfl, m', h4, h5.trans hoffset', h6⟩

end Calls

end Gzip

end Carving
