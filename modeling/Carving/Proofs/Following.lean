import Carving.Proofs.Resumption

/-!
# A decoder follows a stream

A decoder that is given a stream in pieces follows it: the stream leads to where the decoder's state
leads on the bytes that it has not taken (`Follows`). Each call keeps this, whatever the pieces
are (`Follows.decode`), hands over the next part of the output, and fails only on a corrupt
stream.
-/

namespace Carving.Deflate

section Lookahead

variable (limit : Nat) (s : State) (l : Lookahead)

theorem runAhead_fst : (runAhead limit s l).1 = (run (some limit) s l.reader).1 := by
  rcases runAhead_eq limit s l with h | ⟨last, left, output, bits, byte, bytes, h, h'⟩
  · rw [h]
  · rw [h, h']

/-- A stored byte that is taken ahead of its time is the next byte of the stream. -/
theorem runAhead_append (more : List UInt8) :
    run none s (l.reader.append more)
      = run none (runAhead limit s l).2.1 ((runAhead limit s l).2.2.append more) := by
  have ha := run_append (some limit) s l.reader more
  rcases runAhead_eq limit s l with h | ⟨last, left, output, bits, byte, bytes, h, h'⟩
  · rw [h, ha]
  · rw [h', ha, h, run_literal]
    exact run_byte none output Nat.one_ne_zero rfl

theorem runAhead_suffix :
    (runAhead limit s l).2.2.bytes <:+ (run (some limit) s l.reader).2.2.bytes := by
  rcases runAhead_eq limit s l with h | ⟨last, left, output, bits, byte, bytes, h, h'⟩
  · simp only [h, List.suffix_refl]
  · rw [h, h']
    exact List.suffix_cons _ _

theorem runAhead_extends : s.output.toList <+: (runAhead limit s l).2.1.output.toList := by
  have hp := run_extends (some limit) s l.reader
  rcases runAhead_eq limit s l with h | ⟨last, left, output, bits, byte, bytes, h, h'⟩
  · rwa [h]
  · rw [h']
    rwa [h] at hp

theorem runAhead_holds : (runAhead limit s l).1.Holds (some limit) (runAhead limit s l).2.1
    (runAhead limit s l).2.2 := by
  have hh := run_holds (some limit) s l.reader
  rcases runAhead_eq limit s l with h | ⟨last, left, output, bits, byte, bytes, h, h'⟩
  · rwa [h]
  · rw [h']
    rw [h] at hh
    exact hh

end Lookahead

namespace Decoder

/-- The output that has been handed over. -/
def handed (d : Decoder) : List UInt8 := d.state.output.toList.take d.delivered

/-- The decoder has been given the stream up to the bytes that are left. -/
structure Follows (d : Decoder) (stream left : List UInt8) : Prop where
  run_eq : run none .start (.ofBytes stream) = run none d.state (d.kept.append left)
  stop_ne : d.stop ≠ .corrupt
  stalled : d.stop = .short → Stalled d.state d.kept
  kept_eq : d.stop ≠ .short → d.kept.bytes = []
  finished : d.stop = .finished → d.state.phase = .finished ∧ d.state.pending = .nothing
  delivered_le : d.delivered ≤ d.state.output.size

theorem follows_start (stream : List UInt8) : start.Follows stream stream where
  run_eq := rfl
  stop_ne := nofun
  stalled _ := .between rfl
  kept_eq h := absurd rfl h
  finished := nofun
  delivered_le := Nat.le_refl 0

/-- Where the window of a decoder ends. -/
def windowEnd (d : Decoder) : Nat := (d.state.output.size / windowSize + 1) * windowSize

theorem size_lt_windowEnd (d : Decoder) : d.state.output.size < d.windowEnd := by
  unfold windowEnd windowSize
  omega

theorem drop_of_suffix {xs ys : List UInt8} (h : xs <:+ ys) :
    ys.drop (ys.length - min xs.length ys.length) = xs := by
  obtain ⟨used, rfl⟩ := h
  rw [List.drop_left' (by rw [List.length_append]; omega)]

section Advance

variable {d : Decoder} {input : List UInt8} {stop : Stop} {s : State} {rest : BitReader}

theorem advance_of_short
    (h : runAhead d.windowEnd d.state (d.lookahead input) = (.short, s, rest)) :
    d.advance input = (⟨s, rest, d.delivered, .short, d.taken + input.length⟩, 0) := by
  unfold advance
  unfold windowEnd at h
  simp only [h]

theorem advance_of_ne_short
    (h : runAhead d.windowEnd d.state (d.lookahead input) = (stop, s, rest)) (hs : stop ≠ .short) :
    d.advance input = (⟨s, ⟨rest.bits, []⟩, d.delivered, stop,
      d.taken + (input.length - min rest.bytes.length input.length)⟩,
      min rest.bytes.length input.length) := by
  unfold advance
  unfold windowEnd at h
  simp only [h]

variable (d input) in
theorem advance_stop :
    (d.advance input).1.stop = (runAhead d.windowEnd d.state (d.lookahead input)).1 := by
  rcases hr : runAhead d.windowEnd d.state (d.lookahead input) with ⟨stop, s, rest⟩
  by_cases hs : stop = .short
  · subst hs
    rw [advance_of_short hr]
  · rw [advance_of_ne_short hr hs]

variable (d input) in
theorem advance_state :
    (d.advance input).1.state = (runAhead d.windowEnd d.state (d.lookahead input)).2.1 := by
  rcases hr : runAhead d.windowEnd d.state (d.lookahead input) with ⟨stop, s, rest⟩
  by_cases hs : stop = .short
  · subst hs
    rw [advance_of_short hr]
  · rw [advance_of_ne_short hr hs]

theorem advance_short (h : (d.advance input).1.stop = .short) : (d.advance input).2 = 0 := by
  rw [advance_stop] at h
  rw [advance_of_short (Prod.ext h rfl)]

/-- What is left of the input is its end. -/
theorem Follows.rest_suffix {stream left : List UInt8} (h : d.Follows stream left)
    (hr : runAhead d.windowEnd d.state (d.lookahead input) = (stop, s, rest))
    (h1 : stop ≠ .short) (h2 : stop ≠ .corrupt) : rest.bytes <:+ input := by
  have hf := runAhead_fst d.windowEnd d.state (d.lookahead input)
  have hs := runAhead_suffix d.windowEnd d.state (d.lookahead input)
  rw [hr] at hf hs
  refine hs.trans ?_
  by_cases hd : d.stop = .short
  · exact ((h.stalled hd).suffix (fun e => h1 (hf.trans e)) (fun e => h2 (hf.trans e))).1
  · refine (run_suffix _ _ _).trans ?_
    simp only [lookahead, Lookahead.reader, BitReader.append_bytes, h.kept_eq hd, List.nil_append,
      List.suffix_refl]

/-- What a decoder that follows a stream does when it advances. -/
theorem Follows.advance {stream more : List UInt8} (h : d.Follows stream (input ++ more)) :
    ((d.advance input).1.stop = .corrupt → inflate stream = .corrupt)
      ∧ ((d.advance input).1.stop ≠ .corrupt → (d.advance input).1.Follows stream
        (input.drop (input.length - (d.advance input).2) ++ more)) := by
  rcases hr : runAhead d.windowEnd d.state (d.lookahead input) with ⟨stop, s, rest⟩
  have ha := runAhead_append d.windowEnd d.state (d.lookahead input) more
  have hh := runAhead_holds d.windowEnd d.state (d.lookahead input)
  have hp := (runAhead_extends d.windowEnd d.state (d.lookahead input)).length_le
  rw [hr] at ha hh hp
  have hrun : run none .start (.ofBytes stream) = run none s (rest.append more) := by
    rw [h.run_eq, ← ha, ← BitReader.append_append]
    rfl
  have hle : d.delivered ≤ s.output.size := by
    have := h.delivered_le
    simp only [Array.length_toList] at hp
    omega
  by_cases hs : stop = .short
  · subst hs
    rw [advance_of_short hr]
    refine ⟨nofun, fun _ => ⟨?_, nofun, fun _ => hh, fun h => absurd rfl h, nofun, hle⟩⟩
    rw [Nat.sub_zero, List.drop_length, List.nil_append]
    exact hrun
  · rw [advance_of_ne_short hr hs]
    refine ⟨fun hc => ?_, fun hc => ?_⟩
    · subst hc
      rw [inflate_eq_corrupt, hrun]
      exact hh more
    · refine ⟨?_, hc, fun h => absurd h hs, fun _ => rfl, ?_, hle⟩
      · rw [hrun, drop_of_suffix (h.rest_suffix hr hs hc)]
        simp [BitReader.append]
      · rintro rfl
        exact hh

theorem advance_extends (d : Decoder) (input : List UInt8) :
    d.state.output.toList <+: (d.advance input).1.state.output.toList := by
  rw [advance_state]
  exact runAhead_extends _ _ _

/-- Where the window ends something has been written. -/
theorem advance_full (h : (d.advance input).1.stop = .full) :
    d.state.output.size < (d.advance input).1.state.output.size := by
  have hh := runAhead_holds d.windowEnd d.state (d.lookahead input)
  rw [advance_stop] at h
  rw [h] at hh
  obtain ⟨n, hn, hle⟩ := hh
  cases hn
  rw [advance_state]
  exact Nat.lt_of_lt_of_le d.size_lt_windowEnd hle

theorem Follows.advanceTwice {stream more : List UInt8} (h : d.Follows stream (input ++ more)) :
    ((d.advanceTwice input).1.stop = .corrupt → inflate stream = .corrupt)
      ∧ ((d.advanceTwice input).1.stop ≠ .corrupt → (d.advanceTwice input).1.Follows stream
        (input.drop (input.length - (d.advanceTwice input).2) ++ more)) := by
  have ha := h.advance
  unfold Decoder.advanceTwice
  dsimp only
  split
  · rename_i hc
    have hle := d.advance_left_le input
    have hle' := (d.advance input).1.advance_left_le
      (input.drop (input.length - (d.advance input).2))
    have hb := (ha.2 (by rw [hc.1]; nofun)).advance
    rw [List.length_drop] at hle'
    rw [List.drop_drop, List.length_drop] at hb
    rwa [show input.length - (d.advance input).2 + (input.length
      - (input.length - (d.advance input).2) - ((d.advance input).1.advance
        (input.drop (input.length - (d.advance input).2))).2)
      = input.length - ((d.advance input).1.advance
        (input.drop (input.length - (d.advance input).2))).2 by omega] at hb
  · exact ha

theorem advanceTwice_extends (d : Decoder) (input : List UInt8) :
    d.state.output.toList <+: (d.advanceTwice input).1.state.output.toList := by
  have ha := d.advance_extends input
  unfold Decoder.advanceTwice
  dsimp only
  split
  · exact ha.trans (advance_extends _ _)
  · exact ha

theorem advanceTwice_short (h : (d.advanceTwice input).1.stop = .short) :
    (d.advanceTwice input).2 = 0 := by
  unfold Decoder.advanceTwice at h ⊢
  dsimp only at h ⊢
  split
  · rename_i hc
    rw [if_pos hc] at h
    exact advance_short h
  · rename_i hc
    rw [if_neg hc] at h
    exact advance_short h

theorem advanceTwice_full (h : (d.advanceTwice input).1.stop = .full) :
    d.state.output.size < (d.advanceTwice input).1.state.output.size := by
  unfold Decoder.advanceTwice at h ⊢
  dsimp only at h ⊢
  split
  · rename_i hc
    have hp := ((d.advance input).1.advance_extends
      (input.drop (input.length - (d.advance input).2))).length_le
    exact Nat.lt_of_lt_of_le (advance_full hc.1) hp
  · rename_i hc
    rw [if_neg hc] at h
    exact advance_full h

end Advance

section Deliver

variable {d : Decoder} {stream left : List UInt8}

theorem Follows.deliver (h : d.Follows stream left) (consumed : Nat) :
    (d.deliver consumed).2.Follows stream left :=
  ⟨h.run_eq, h.stop_ne, h.stalled, h.kept_eq, h.finished, Nat.min_le_left _ _⟩

theorem handed_of_extends {d' : Decoder} (hd : d'.delivered = d.delivered)
    (hle : d.delivered ≤ d.state.output.size)
    (hp : d.state.output.toList <+: d'.state.output.toList) : d'.handed = d.handed := by
  obtain ⟨more, hm⟩ := hp
  rw [handed, handed, hd, ← hm, List.take_append_of_le_length (by rwa [Array.length_toList])]

theorem handed_deliver (h : d.delivered ≤ d.state.output.size) (consumed : Nat) :
    (d.deliver consumed).2.handed = d.handed ++ (d.deliver consumed).1.produced := by
  simp only [handed, Decoder.deliver, Array.toList_extract, List.extract_eq_take_drop]
  rw [← List.take_add]
  congr 1
  omega

theorem deliver_ended {consumed : Nat} (h : (d.deliver consumed).1.ended = true) :
    d.stop = .finished ∧ (d.deliver consumed).2.handed = d.state.output.toList := by
  simp only [Decoder.deliver, Bool.and_eq_true, decide_eq_true_eq] at h
  refine ⟨h.1, ?_⟩
  simp only [handed, Decoder.deliver, h.2]
  exact List.take_length

theorem deliver_finished {consumed : Nat} (h : d.stop = .finished)
    (h' : d.delivered = d.state.output.size) : (d.deliver consumed).1.ended = true := by
  simp only [Decoder.deliver, Bool.and_eq_true, decide_eq_true_eq]
  exact ⟨h, by omega⟩

theorem produced_ne_nil {consumed : Nat} (h : d.delivered < d.state.output.size) :
    (d.deliver consumed).1.produced ≠ [] := by
  intro he
  have hl := congrArg List.length he
  simp only [Decoder.deliver, Array.length_toList, Array.size_extract, List.length_nil,
    windowSize] at hl
  omega

/-- A call that does not fail ends with handing over, from where the decoder stood or from where it
has advanced to. -/
theorem exists_deliver {d' : Decoder} {input : List UInt8} {p : Progress}
    (h : d.decode input = (some p, d')) : ∃ b consumed, b.deliver consumed = (p, d')
      ∧ (b = d ∨ b = (d.advanceTwice input).1) := by
  unfold Decoder.decode at h
  split at h
  · simp at h
  · split at h
    · simp only [Prod.mk.injEq, Option.some.injEq] at h
      exact ⟨d, 0, Prod.ext h.1 h.2, .inl rfl⟩
    · dsimp only at h
      split at h
      · simp at h
      · simp only [Prod.mk.injEq, Option.some.injEq] at h
        exact ⟨_, _, Prod.ext h.1 h.2, .inr rfl⟩

end Deliver

/-- What a call does to a decoder that follows a stream. Its output is the next part of the whole
output, and it does something unless the stream has ended. -/
structure Called (d : Decoder) (input : List UInt8) (p : Progress) (d' : Decoder) : Prop where
  handed_eq : d'.handed = d.handed ++ p.produced
  ended : p.ended = true → d'.stop = .finished ∧ d'.handed = d'.state.output.toList
  not_stuck : input ≠ [] → p.ended = false → p.consumed = 0 → p.produced ≠ []

theorem Follows.decode {d : Decoder} {stream input more : List UInt8}
    (h : d.Follows stream (input ++ more)) :
    (∃ d', d.decode input = (none, d') ∧ inflate stream = .corrupt)
      ∨ ∃ p d', d.decode input = (some p, d') ∧ d'.Follows stream (input.drop p.consumed ++ more)
        ∧ Called d input p d' := by
  have hle := h.delivered_le
  unfold Decoder.decode
  rw [if_neg h.stop_ne]
  -- Output that waits is handed over before anything more is decoded.
  split
  · rename_i hw
    have hlt : d.delivered < d.state.output.size := by
      unfold waiting at hw
      omega
    refine .inr ⟨_, _, rfl, h.deliver 0, handed_deliver hle 0, deliver_ended, ?_⟩
    exact fun _ _ _ => produced_ne_nil hlt
  · rename_i hw
    obtain ⟨h1, h2⟩ := h.advanceTwice
    dsimp only
    split
    · rename_i hc
      exact .inl ⟨_, rfl, h1 hc⟩
    · rename_i hc
      have hf := h2 hc
      have hd := d.advanceTwice_delivered input
      refine .inr ⟨_, _, rfl, hf.deliver _, ?_, deliver_ended, fun hi he h0 => ?_⟩
      · rw [handed_deliver hf.delivered_le, handed_of_extends hd hle (d.advanceTwice_extends input)]
      · have hlen := (d.advanceTwice_extends input).length_le
        simp only [Array.length_toList] at hlen
        have hdl := hf.delivered_le
        unfold waiting at hw
        apply produced_ne_nil
        -- Nothing waited, so what there is to hand over was written by this call.
        cases hs : (d.advanceTwice input).1.stop with
        | corrupt => exact absurd hs hc
        | full =>
          have := advanceTwice_full hs
          omega
        | short =>
          rw [deliver_fst, advanceTwice_short hs] at h0
          exact absurd (List.length_eq_zero_iff.1 h0) hi
        | finished =>
          refine Nat.lt_of_le_of_ne hdl fun heq => ?_
          rw [deliver_finished hs heq] at he
          cases he

/-- What a decoder that has come to the end has handed over is the whole output. -/
theorem Follows.inflate_eq {d : Decoder} {stream left : List UInt8} (h : d.Follows stream left)
    (hs : d.stop = .finished) : inflate stream = .complete d.state.output.toList left := by
  have hrun := h.run_eq
  have hk := h.kept_eq (by rw [hs]; nofun)
  rcases hd : d.state with ⟨phase, pending, output⟩
  have hf := h.finished hs
  rw [hd] at hf hrun
  obtain ⟨rfl, rfl⟩ := hf
  rw [run_finished] at hrun
  exact inflate_eq_complete.2 ⟨_, _, hrun, rfl, by rw [BitReader.append_bytes, hk, List.nil_append]⟩

/-- A decoder that has been given the whole of a complete stream leaves nothing unused. -/
theorem Follows.unused_eq_nil {d : Decoder} {stream out unused : List UInt8}
    (h : d.Follows stream []) (hi : inflate stream = .complete out unused) : unused = [] := by
  obtain ⟨s, r, h1, -, rfl⟩ := inflate_eq_complete.1 hi
  rw [h.run_eq, BitReader.append_nil] at h1
  -- A decoder that is short would be short of the stream's end; any other keeps no bytes.
  by_cases hd : d.stop = .short
  · rw [run_of_stalled (h.stalled hd)] at h1
    cases h1
  · have hs := run_suffix none d.state d.kept
    rw [h1, h.kept_eq hd] at hs
    exact List.suffix_nil.1 hs

end Decoder

end Carving.Deflate
