import Carving.Proofs.Following

/-!
# Output in windows

A decoder stops where a window of output is full, before a byte that it could write (`Blocked`),
and hands over one window a call at most. So it may have been given the whole of a stream and have
more to hand over (`Decoder.Underway.handed_lt`). A decoder that is given the whole of a stream at
once fills one window in each call, up to the end (`Decoder.AtWindow`).
-/

namespace Carving.Deflate

/-- Decoding stands before a byte that there is no room for, and that needs none but the byte itself
of the stream. -/
inductive Blocked : State → Prop
  | literal {phase : Phase} {byte : UInt8} {output : Array UInt8} :
    Blocked ⟨phase, .literal byte, output⟩
  | copy {phase : Phase} {length distance : Nat} {output : Array UInt8} :
    Blocked ⟨phase, .copy (length + 1) distance, output⟩
  | stored {last : Bool} {left : Nat} {output : Array UInt8} :
    Blocked ⟨.stored last (left + 1), .nothing, output⟩

section Blocked

variable {s : State} {r : BitReader}

theorem run_blocked {limit : Option Nat} (h : (run limit s r).1 = .full) :
    Blocked (run limit s r).2.1 := by
  fun_induction run limit s r with
  | case1 => exact .literal
  | case2 r phase byte output hroom ih => exact ih h
  | case3 r phase length distance output count output' hlt =>
    obtain ⟨left, hleft⟩ : ∃ left, length - count = left + 1 := ⟨length - count - 1, by omega⟩
    rw [hleft]
    exact .copy
  | case4 r phase length distance output count output' hlt ih => exact ih h
  | case6 r output last block rest hread ih => exact ih h
  | case9 r last output ih => exact ih h
  | case10 => exact .stored
  | case11 r last output left hroom byte rest hread ih => exact ih h
  | case14 r last lc dc output rest hread ih => exact ih h
  | case15 r last lc dc output token rest hn hread ih => exact ih h
  | _ => cases h

theorem runAhead_blocked {limit : Nat} {l : Lookahead} (h : (runAhead limit s l).1 = .full) :
    Blocked (runAhead limit s l).2.1 := by
  rcases runAhead_eq limit s l with heq | ⟨last, left, output, bits, byte, bytes, -, heq⟩
  · rw [heq] at h ⊢
    exact run_blocked h
  · rw [heq]
    exact .literal

theorem size_le_run (limit : Option Nat) (s : State) (r : BitReader) :
    s.output.size ≤ (run limit s r).2.1.output.size :=
  (run_extends limit s r).length_le

/-- A stream that is finished from there has more output. -/
theorem Blocked.size_lt (h : Blocked s) (hr : (run none s r).1 = .finished) :
    s.output.size < (run none s r).2.1.output.size := by
  cases h with
  | @literal phase byte output =>
    have hle := size_le_run none ⟨phase, .nothing, output.push byte⟩ r
    rw [Array.size_push] at hle
    rwa [run_literal]
  | @copy phase length distance output =>
    have hle := size_le_run none ⟨phase, .nothing, copyBack (length + 1) distance output⟩ r
    rw [size_copyBack] at hle
    rw [run_copy]
    simp only
    omega
  | @stored last left output =>
    rcases hb : Parser.byte r with ⟨byte, rest⟩ | _ | _
    · have hle := size_le_run none ⟨.stored last left, .nothing, output.push byte⟩ rest
      rw [Array.size_push] at hle
      rwa [run_byte none _ Nat.one_ne_zero hb]
    · rw [run_byte_short none _ Nat.one_ne_zero hb] at hr
      cases hr
    · exact absurd hb (Parser.byte_ne_corrupt r)

end Blocked

theorem roomFor_mono {m n : Nat} (h : m ≤ n) (size count : Nat) :
    roomFor (some m) size count ≤ roomFor (some n) size count := by
  simp only [roomFor]
  omega

theorem size_run_le {n : Nat} {s : State} (r : BitReader) (h : s.output.size ≤ n) :
    (run (some n) s r).2.1.output.size ≤ n := by
  fun_induction run (some n) s r with
  | case2 r phase byte output hroom ih =>
    refine ih ?_
    simp only [roomFor, Array.size_push] at h hroom ⊢
    omega
  | case3 r phase length distance output count output' hlt =>
    simp only [output', size_copyBack, count, roomFor] at h ⊢
    omega
  | case4 r phase length distance output count output' hlt ih =>
    refine ih ?_
    simp only [output', size_copyBack, count, roomFor] at h ⊢
    omega
  | case6 r output last block rest hread ih => exact ih h
  | case9 r last output ih => exact ih h
  | case11 r last left output hroom byte rest hread ih =>
    refine ih ?_
    simp only [roomFor, Array.size_push] at h hroom ⊢
    omega
  | case14 r last lc dc output rest hread ih => exact ih h
  | case15 r last lc dc output token rest hn hread ih => exact ih h
  | _ => exact h

/-- A complete stream is decoded to its end where there is room for its output, and up to the limit
where there is not. -/
theorem run_of_inflate {stream out unused : List UInt8} (hi : inflate stream = .complete out unused)
    (n : Nat) : ∃ stop s r, run (some n) .start (.ofBytes stream) = (stop, s, r)
      ∧ (out.length ≤ n ∧ stop = .finished ∧ s.output.size = out.length
        ∨ n < out.length ∧ stop = .full ∧ s.output.size = n) := by
  obtain ⟨s', r', hrun, rfl, -⟩ := inflate_eq_complete.1 hi
  have happend := run_append (some n) .start (.ofBytes stream) []
  have hholds := run_holds (some n) .start (.ofBytes stream)
  have hsize := size_run_le (.ofBytes stream) (show State.start.output.size ≤ n from Nat.zero_le n)
  have hblocked := @run_blocked State.start (.ofBytes stream) (some n)
  rcases hr : run (some n) .start (.ofBytes stream) with ⟨stop, s, r⟩
  rw [hr] at happend hholds hsize hblocked
  rw [BitReader.append_nil, hrun, BitReader.append_nil] at happend
  refine ⟨stop, s, r, rfl, ?_⟩
  cases stop with
  | finished =>
    obtain ⟨phase, pending, output⟩ := s
    obtain ⟨rfl, rfl⟩ := hholds
    rw [run_finished] at happend
    cases happend
    exact .inl ⟨hsize, rfl, rfl⟩
  | short => cases happend.trans (run_of_stalled hholds)
  | full =>
    obtain ⟨m, hm, hle⟩ := hholds
    cases hm
    have hlt := (hblocked rfl).size_lt (r := r) (by rw [← happend])
    rw [← happend] at hlt
    exact .inr ⟨Nat.lt_of_le_of_lt hle hlt, rfl, Nat.le_antisymm hsize hle⟩
  | corrupt =>
    have hcorrupt := hholds []
    rw [BitReader.append_nil, ← happend] at hcorrupt
    cases hcorrupt

/-- Looking ahead takes one byte more at most, and decoding goes on the same. -/
theorem runAhead_full {limit : Nat} {s s1 : State} {l : Lookahead} {r1 : BitReader}
    (h : run (some limit) s l.reader = (.full, s1, r1)) :
    ∃ s2 r2, runAhead limit s l = (.full, s2, r2) ∧ s2.output = s1.output
      ∧ (r2.bytes = r1.bytes ∨ ∃ b, r1.bytes = b :: r2.bytes)
      ∧ ∀ n, s1.output.size < n → run (some n) s1 r1 = run (some n) s2 r2 := by
  rcases runAhead_eq limit s l with heq | ⟨last, left, output, bits, byte, bytes, heq, heq'⟩
  · exact ⟨s1, r1, heq.trans h, rfl, .inl rfl, fun _ _ => rfl⟩
  · cases h.symm.trans heq
    refine ⟨_, _, heq', rfl, .inr ⟨byte, rfl⟩, fun n hn => ?_⟩
    have hroom : roomFor (some n) output.size 1 ≠ 0 := by
      simp only at hn
      simp only [roomFor]
      omega
    rw [run_byte _ _ hroom rfl, run_literal_of_room _ _ _ hroom]

namespace Decoder

/-- The decoder has not come to the end of the output. Where it stops before that, or leaves some of
what it has decoded for the next call, it has handed over a whole window. -/
structure Underway (d : Decoder) : Prop where
  blocked : d.stop = .full → Blocked d.state ∧ windowSize ≤ d.state.output.size
  delivered_cases : d.delivered = d.state.output.size ∨ windowSize ≤ d.delivered
  waiting : d.stop = .finished → d.delivered < d.state.output.size

theorem underway_start : start.Underway where
  blocked h := by cases h
  delivered_cases := .inl rfl
  waiting h := by cases h

section Underway

variable {d d' : Decoder} {input stream out unused : List UInt8} {p : Progress}

theorem advance_blocked (h : (d.advance input).1.stop = .full) :
    Blocked (d.advance input).1.state ∧ windowSize ≤ (d.advance input).1.state.output.size := by
  have hholds := runAhead_holds d.windowEnd d.state (d.lookahead input)
  rw [advance_stop] at h
  rw [h] at hholds
  rw [advance_state]
  obtain ⟨n, hn, hle⟩ := hholds
  cases hn
  refine ⟨runAhead_blocked h, Nat.le_trans ?_ hle⟩
  exact Nat.le_mul_of_pos_left _ (Nat.succ_pos _)

theorem advanceTwice_blocked (h : (d.advanceTwice input).1.stop = .full) :
    Blocked (d.advanceTwice input).1.state
      ∧ windowSize ≤ (d.advanceTwice input).1.state.output.size := by
  unfold advanceTwice at h ⊢
  dsimp only at h ⊢
  split
  · rename_i hc
    rw [if_pos hc] at h
    exact advance_blocked h
  · rename_i hc
    rw [if_neg hc] at h
    exact advance_blocked h

theorem Underway.decode (h : d.Underway) (hd : d.decode input = (some p, d'))
    (he : p.ended = false) : d'.Underway := by
  obtain ⟨b, consumed, hdeliver, hb⟩ := exists_deliver hd
  have hblocked : b.stop = .full → Blocked b.state ∧ windowSize ≤ b.state.output.size := by
    rcases hb with rfl | rfl
    · exact h.blocked
    · exact advanceTwice_blocked
  simp only [deliver, Prod.mk.injEq] at hdeliver
  obtain ⟨rfl, rfl⟩ := hdeliver
  refine ⟨hblocked, ?_, fun hf => ?_⟩
  · simp only
    omega
  · have hlt : ¬min b.state.output.size (b.delivered + windowSize) = b.state.output.size := by
      simpa [show b.stop = .finished from hf] using he
    simp only
    omega

/-- A decoder that has been given a whole complete stream and is underway has handed over a window
and has more to hand over. -/
theorem Underway.handed_lt (h : d.Underway) (hf : d.Follows stream [])
    (hi : inflate stream = .complete out unused) :
    d.handed <+: out ∧ windowSize ≤ d.handed.length ∧ d.handed.length < out.length := by
  have hdelivered := h.delivered_cases
  have hle := hf.delivered_le
  have hlength : d.handed.length = d.delivered := by
    rw [handed, List.length_take, Array.length_toList, Nat.min_eq_left hle]
  have hbegins : d.handed <+: d.state.output.toList := List.take_prefix _ _
  cases hs : d.stop with
  | corrupt => exact absurd hs hf.stop_ne
  | finished =>
    obtain ⟨rfl, -⟩ := Inflated.complete.inj ((hf.inflate_eq hs).symm.trans hi)
    have hwaiting := h.waiting hs
    refine ⟨hbegins, ?_, ?_⟩
    · omega
    · rw [hlength, Array.length_toList]
      omega
  | short =>
    obtain ⟨s, r, hrun, -⟩ := inflate_eq_complete.1 hi
    rw [hf.run_eq, BitReader.append_nil, run_of_stalled (hf.stalled hs)] at hrun
    cases hrun
  | full =>
    obtain ⟨s, r, hrun, rfl, -⟩ := inflate_eq_complete.1 hi
    obtain ⟨hblocked, hsize⟩ := h.blocked hs
    rw [hf.run_eq] at hrun
    have hlt := hblocked.size_lt (r := d.kept.append []) (by rw [hrun])
    have hextends := run_extends none d.state (d.kept.append [])
    rw [hrun] at hlt hextends
    simp only at hlt
    refine ⟨hbegins.trans hextends, ?_, ?_⟩
    · omega
    · rw [hlength, Array.length_toList]
      omega

end Underway

/-- The decoder has written and handed over as many windows of the output of the stream, whose rest
begins with the bytes that are left. -/
structure AtWindow (d : Decoder) (stream left : List UInt8) (count : Nat) : Prop where
  run_eq : ∀ n, count * windowSize < n →
    run (some n) .start (.ofBytes stream) = run (some n) d.state (d.kept.append left)
  stop_ne : d.stop ≠ .corrupt
  kept_eq : d.kept.bytes = []
  size_eq : d.state.output.size = count * windowSize
  delivered_eq : d.delivered = count * windowSize

theorem atWindow_start (stream : List UInt8) : start.AtWindow stream stream 0 where
  run_eq _ _ := rfl
  stop_ne := by simp [start]
  kept_eq := rfl
  size_eq := (Nat.zero_mul _).symm
  delivered_eq := (Nat.zero_mul _).symm

section AtWindow

variable {d : Decoder} {stream left : List UInt8} {count : Nat} {s : State} {r : BitReader}

theorem AtWindow.windowEnd_eq (h : d.AtWindow stream left count) :
    d.windowEnd = (count + 1) * windowSize := by
  rw [windowEnd, h.size_eq, Nat.mul_div_cancel _ (by decide)]

theorem AtWindow.run_windowEnd (h : d.AtWindow stream left count) :
    run (some d.windowEnd) d.state (d.lookahead left).reader
      = run (some ((count + 1) * windowSize)) .start (.ofBytes stream) := by
  rw [h.windowEnd_eq]
  refine (h.run_eq _ ?_).symm
  rw [Nat.succ_mul]
  exact Nat.lt_add_of_pos_right (by decide)

/-- A call with nothing waiting is one step of decoding, if that hands over a window at least. -/
theorem AtWindow.decode_eq (h : d.AtWindow stream left count)
    (hstop : (d.advance left).1.stop ≠ .corrupt)
    (hfull : (d.advance left).1.stop = .full →
      windowSize ≤ (d.advance left).1.state.output.size - d.delivered) :
    d.decode left = (some ((d.advance left).1.deliver (left.length - (d.advance left).2)).1,
      ((d.advance left).1.deliver (left.length - (d.advance left).2)).2) := by
  have hwaiting : d.waiting = 0 := by rw [waiting, h.size_eq, h.delivered_eq, Nat.sub_self]
  have htwice : d.advanceTwice left = d.advance left := by
    unfold advanceTwice
    dsimp only
    rw [if_neg]
    rintro ⟨hf, -, hlt⟩
    have hle := hfull hf
    rw [waiting, advance_delivered] at hlt
    omega
  unfold Decoder.decode
  rw [if_neg h.stop_ne, if_neg (by simp [hwaiting]), htwice]
  dsimp only
  rw [if_neg hstop]

/-- The call that fills the next window. -/
theorem AtWindow.decode_full (h : d.AtWindow stream left count)
    (hr : run (some ((count + 1) * windowSize)) .start (.ofBytes stream) = (.full, s, r))
    (hs : s.output.size = (count + 1) * windowSize) :
    ∃ p d', d.decode left = (some p, d') ∧ p.ended = false ∧ p.produced ≠ []
      ∧ d'.AtWindow stream (left.drop p.consumed) (count + 1)
      ∧ (left.drop p.consumed = r.bytes ∨ ∃ b, r.bytes = b :: left.drop p.consumed) := by
  have hrun := h.run_windowEnd.trans hr
  obtain ⟨s2, r2, hahead, houtput, hbytes, hresume⟩ := runAhead_full hrun
  have hadvance := advance_of_ne_short hahead (by simp)
  have hsize : s2.output.size = count * windowSize + windowSize := by
    rw [houtput, hs, Nat.succ_mul]
  have hsuffix : r2.bytes <:+ left := by
    have hr1 := run_suffix (some d.windowEnd) d.state (d.lookahead left).reader
    rw [hrun] at hr1
    simp only [lookahead, Lookahead.reader, BitReader.append_bytes, h.kept_eq,
      List.nil_append] at hr1
    rcases hbytes with heq | ⟨b, heq⟩
    · rwa [heq]
    · exact (List.suffix_cons b _).trans (heq ▸ hr1)
  have hdrop := drop_of_suffix hsuffix
  have hdelivered := h.delivered_eq
  have hpos : 0 < windowSize := by decide
  have hdecode := h.decode_eq (by simp [hadvance]) fun _ => by
    simp only [hadvance]
    omega
  rw [hadvance] at hdecode
  refine ⟨_, _, hdecode, by simp [deliver], ?_, ?_, ?_⟩
  · refine produced_ne_nil ?_
    simp only
    omega
  · simp only [deliver, hdrop]
    refine ⟨fun n hn => ?_, by simp, rfl, ?_, ?_⟩
    · have hmore := run_resume (roomFor_mono (Nat.le_of_lt hn)) .start (.ofBytes stream) []
      rw [BitReader.append_nil, hr, BitReader.append_nil] at hmore
      rw [hmore, hresume n (by rw [hs]; exact hn)]
      simp [BitReader.append]
    · simp only [hsize, Nat.succ_mul]
    · simp only [hsize, Nat.succ_mul]
      omega
  · simp only [deliver, hdrop]
    exact hbytes

/-- The call that comes to the end of the stream. -/
theorem AtWindow.decode_finished (h : d.AtWindow stream left count)
    (hr : run (some ((count + 1) * windowSize)) .start (.ofBytes stream) = (.finished, s, r))
    (hs : s.output.size ≤ (count + 1) * windowSize) :
    ∃ p d', d.decode left = (some p, d') ∧ p.ended = true := by
  have hrun := h.run_windowEnd.trans hr
  have hahead : runAhead d.windowEnd d.state (d.lookahead left) = (.finished, s, r) := by
    rcases runAhead_eq d.windowEnd d.state (d.lookahead left) with heq | ⟨_, _, _, _, _, _, heq, -⟩
    · exact heq.trans hrun
    · cases hrun.symm.trans heq
  have hadvance := advance_of_ne_short hahead (by simp)
  have hdelivered := h.delivered_eq
  have hdecode := h.decode_eq (by simp [hadvance]) fun hfull => by simp [hadvance] at hfull
  rw [hadvance] at hdecode
  refine ⟨_, _, hdecode, ?_⟩
  rw [Nat.succ_mul] at hs
  simp only [deliver, decide_true, Bool.true_and, decide_eq_true_eq]
  omega

end AtWindow

end Decoder

end Carving.Deflate
