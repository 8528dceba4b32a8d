import Carving.Deflate.Progress
import Carving.Proofs.Extension

/-!
# Decoding that stops and is resumed

Decoding a stream in steps, each of which stops where its bits or its room end, is decoding it at
once: from where a step stops, more room and the rest of the stream lead to the same end
(`run_resume`). A step that stalled uses up the bytes it had before it stops anywhere else
(`Stalled.suffix`).
-/

namespace Carving.Deflate

theorem copyBack_add (m n distance : Nat) (output : Array UInt8) :
    copyBack (m + n) distance output = copyBack n distance (copyBack m distance output) := by
  induction m generalizing output with
  | zero => rw [Nat.zero_add, copyBack]
  | succ m ih => rw [Nat.succ_add, copyBack, copyBack, ih]

theorem size_copyBack (count distance : Nat) (output : Array UInt8) :
    (copyBack count distance output).size = output.size + count := by
  induction count generalizing output with
  | zero => rfl
  | succ count ih =>
    rw [copyBack, ih, Array.size_push]
    omega

theorem prefix_copyBack (count distance : Nat) (output : Array UInt8) :
    output.toList <+: (copyBack count distance output).toList := by
  induction count generalizing output with
  | zero => exact List.prefix_refl _
  | succ count ih =>
    rw [copyBack]
    refine List.IsPrefix.trans ?_ (ih _)
    rw [Array.toList_push]
    exact List.prefix_append _ _

section Room

variable {limit : Option Nat} {size count part : Nat}

variable (limit size count) in
theorem roomFor_le : roomFor limit size count ≤ count := by
  simp only [roomFor]
  split <;> omega

/-- What has been written takes up room. -/
theorem roomFor_behind (h : part ≤ roomFor limit size count) :
    roomFor limit (size + part) (count - part) = roomFor limit size count - part := by
  rcases limit with _ | n
  · rfl
  · simp only [roomFor] at h ⊢
    omega

theorem roomFor_of_le (h : ∀ n ∈ limit, size + count ≤ n) : roomFor limit size count = count := by
  rcases limit with _ | n
  · rfl
  · have := h n rfl
    simp only [roomFor]
    omega

variable {output : Array UInt8} (phase : Phase) (r : BitReader)

theorem run_literal_of_room (byte : UInt8) (h : roomFor limit output.size 1 ≠ 0) :
    run limit ⟨phase, .literal byte, output⟩ r
      = run limit ⟨phase, .nothing, output.push byte⟩ r := by
  rw [run, if_neg h]

theorem run_copy_of_room (distance : Nat) (h : roomFor limit output.size count = count) :
    run limit ⟨phase, .copy count distance, output⟩ r
      = run limit ⟨phase, .nothing, copyBack count distance output⟩ r := by
  rw [run]
  simp only [h, Nat.lt_irrefl, if_false]

/-- A part of a copy that there is room for may be written first. -/
theorem run_copy_part (distance : Nat) (h : part ≤ roomFor limit output.size count) :
    run limit ⟨phase, .copy count distance, output⟩ r
      = run limit ⟨phase, .copy (count - part) distance, copyBack part distance output⟩ r := by
  have hle := roomFor_le limit output.size count
  obtain ⟨rest, hrest⟩ : ∃ rest, roomFor limit output.size count = part + rest :=
    ⟨_, (Nat.add_sub_cancel' h).symm⟩
  have hroom : roomFor limit (copyBack part distance output).size (count - part) = rest := by
    rw [size_copyBack, roomFor_behind h, hrest, Nat.add_sub_cancel_left]
  rw [run, run]
  simp only [hroom, hrest, copyBack_add]
  by_cases hfull : part + rest < count
  · rw [if_pos hfull, if_pos (by omega), Nat.sub_sub]
  · rw [if_neg hfull, if_neg (by omega)]

end Room

section Steps

variable (limit : Option Nat) (phase : Phase) (output : Array UInt8) (r : BitReader)

theorem run_literal (byte : UInt8) :
    run none ⟨phase, .literal byte, output⟩ r = run none ⟨phase, .nothing, output.push byte⟩ r :=
  run_literal_of_room _ _ _ (by simp [roomFor])

theorem run_copy (length distance : Nat) :
    run none ⟨phase, .copy length distance, output⟩ r
      = run none ⟨phase, .nothing, copyBack length distance output⟩ r :=
  run_copy_of_room _ _ _ rfl

theorem run_finished :
    run limit ⟨.finished, .nothing, output⟩ r = (.finished, ⟨.finished, .nothing, output⟩, r) := by
  rw [run]

theorem run_stored_zero (last : Bool) :
    run limit ⟨.stored last 0, .nothing, output⟩ r
      = run limit ⟨.after last, .nothing, output⟩ r := by
  rw [run]

variable {r}

theorem run_block {last : Bool} {block : Block} {rest : BitReader}
    (h : Block.read r = .done (last, block) rest) :
    run limit ⟨.between, .nothing, output⟩ r
      = run limit ⟨.inside last block, .nothing, output⟩ rest := by
  rw [run]
  split <;> simp_all

theorem run_block_short (h : Block.read r = .short) :
    run limit ⟨.between, .nothing, output⟩ r = (.short, ⟨.between, .nothing, output⟩, r) := by
  rw [run]
  split <;> simp_all

theorem run_block_corrupt (h : Block.read r = .corrupt) :
    run limit ⟨.between, .nothing, output⟩ r = (.corrupt, ⟨.between, .nothing, output⟩, r) := by
  rw [run]
  split <;> simp_all

theorem run_full {last : Bool} {left : Nat} (hf : roomFor limit output.size 1 = 0) :
    run limit ⟨.stored last (left + 1), .nothing, output⟩ r
      = (.full, ⟨.stored last (left + 1), .nothing, output⟩, r) := by
  rw [run, if_pos hf]

theorem run_byte {last : Bool} {left : Nat} {byte : UInt8} {rest : BitReader}
    (hf : roomFor limit output.size 1 ≠ 0) (h : Parser.byte r = .done byte rest) :
    run limit ⟨.stored last (left + 1), .nothing, output⟩ r
      = run limit ⟨.stored last left, .nothing, output.push byte⟩ rest := by
  rw [run, if_neg hf]
  split <;> simp_all

theorem run_byte_short {last : Bool} {left : Nat} (hf : roomFor limit output.size 1 ≠ 0)
    (h : Parser.byte r = .short) :
    run limit ⟨.stored last (left + 1), .nothing, output⟩ r
      = (.short, ⟨.stored last (left + 1), .nothing, output⟩, r) := by
  rw [run, if_neg hf]
  split <;> simp_all

theorem run_endOfBlock {last : Bool} {lc dc : Code} {rest : BitReader}
    (h : Token.read lc dc r = .done .endOfBlock rest) :
    run limit ⟨.coded last lc dc, .nothing, output⟩ r
      = run limit ⟨.after last, .nothing, output⟩ rest := by
  rw [run]
  split <;> simp_all

theorem run_token {last : Bool} {lc dc : Code} {token : Token} {rest : BitReader}
    (h : Token.read lc dc r = .done token rest) (hn : token ≠ .endOfBlock) :
    run limit ⟨.coded last lc dc, .nothing, output⟩ r
      = run limit ⟨.coded last lc dc, .ofToken token, output⟩ rest := by
  rw [run]
  split <;> simp_all

theorem run_token_short {last : Bool} {lc dc : Code} (h : Token.read lc dc r = .short) :
    run limit ⟨.coded last lc dc, .nothing, output⟩ r
      = (.short, ⟨.coded last lc dc, .nothing, output⟩, r) := by
  rw [run]
  split <;> simp_all

theorem run_token_corrupt {last : Bool} {lc dc : Code} (h : Token.read lc dc r = .corrupt) :
    run limit ⟨.coded last lc dc, .nothing, output⟩ r
      = (.corrupt, ⟨.coded last lc dc, .nothing, output⟩, r) := by
  rw [run]
  split <;> simp_all

end Steps

/-- From where decoding stops, more room and the rest of the stream lead to the same end. -/
theorem run_resume {limit limit' : Option Nat}
    (hmore : ∀ size count, roomFor limit size count ≤ roomFor limit' size count) (s : State)
    (r : BitReader) (more : List UInt8) :
    run limit' s (r.append more)
      = run limit' (run limit s r).2.1 ((run limit s r).2.2.append more) := by
  have hbyte : ∀ size, roomFor limit size 1 ≠ 0 → roomFor limit' size 1 ≠ 0 := fun size h h' =>
    h (Nat.le_zero.1 (h' ▸ hmore size 1))
  -- Along the run with less room: each step that it takes is one of the other run as well, and
  -- where it stops the two sides are the same.
  fun_induction run limit s r with
  | case1 => rfl
  | case2 r phase byte output h ih => rw [run_literal_of_room _ _ _ (hbyte _ h), ih]
  | case3 r phase length distance output count output' h =>
    -- The part of the copy that had no room is what is still pending.
    exact run_copy_part _ _ _ (hmore _ _)
  | case4 r phase length distance output count output' h ih =>
    have hcount : count = length := Nat.le_antisymm (roomFor_le _ _ _) (Nat.le_of_not_lt h)
    have hroom : roomFor limit' output.size length = length := by
      have hle := roomFor_le limit' output.size length
      have := hmore output.size length
      omega
    rw [run_copy_of_room _ _ _ hroom, ← ih, ← hcount]
  | case5 => rfl
  | case6 r output last block rest h ih =>
    rw [run_block _ _ (Block.sequential_read.done_append h more), ih]
  | case7 => rfl
  | case8 => rfl
  | case9 r last output ih => rw [run_stored_zero, ih]
  | case10 => rfl
  | case11 r last output left hf byte rest h ih =>
    rw [run_byte _ _ (hbyte _ hf) (Parser.sequential_byte.done_append h more), ih]
  | case12 => rfl
  | case13 => rfl
  | case14 r last lc dc output rest h ih =>
    rw [run_endOfBlock _ _ ((Token.sequential_read lc dc).done_append h more), ih]
  | case15 r last lc dc output token rest hn h ih =>
    rw [run_token _ _ ((Token.sequential_read lc dc).done_append h more) hn, ih]
  | case16 => rfl
  | case17 => rfl

theorem run_append (limit : Option Nat) (s : State) (r : BitReader) (more : List UInt8) :
    run none s (r.append more)
      = run none (run limit s r).2.1 ((run limit s r).2.2.append more) :=
  run_resume (fun size count => roomFor_le limit size count) s r more

theorem run_suffix (limit : Option Nat) (s : State) (r : BitReader) :
    (run limit s r).2.2.bytes <:+ r.bytes := by
  fun_induction run limit s r with
  | case2 r phase byte output h ih => exact ih
  | case4 r phase length distance output count output' h ih => exact ih
  | case6 r output last block rest h ih =>
    exact ih.trans (Block.sequential_read.suffix_of_done h)
  | case9 r last output ih => exact ih
  | case11 r last output left hf byte rest h ih =>
    exact ih.trans (Parser.sequential_byte.suffix_of_done h)
  | case14 r last lc dc output rest h ih =>
    exact ih.trans ((Token.sequential_read lc dc).suffix_of_done h)
  | case15 r last lc dc output token rest hn h ih =>
    exact ih.trans ((Token.sequential_read lc dc).suffix_of_done h)
  | _ => exact List.suffix_refl _

/-- Output that has been written stays as it is. -/
theorem run_extends (limit : Option Nat) (s : State) (r : BitReader) :
    s.output.toList <+: (run limit s r).2.1.output.toList := by
  fun_induction run limit s r with
  | case2 r phase byte output h ih | case11 r last output left hf byte rest h ih =>
    refine List.IsPrefix.trans ?_ ih
    simp only [Array.toList_push]
    exact List.prefix_append _ _
  | case3 => exact prefix_copyBack _ _ _
  | case4 r phase length distance output count output' h ih =>
    exact (prefix_copyBack _ _ _).trans ih
  | case6 r output last block rest h ih => exact ih
  | case9 r last output ih => exact ih
  | case14 r last lc dc output rest h ih => exact ih
  | case15 r last lc dc output token rest hn h ih => exact ih
  | _ => exact List.prefix_refl _

/-- The bits run out before the next piece of the stream is complete. -/
inductive Stalled : State → BitReader → Prop
  | between {output : Array UInt8} {r : BitReader} (h : Block.read r = .short) :
    Stalled ⟨.between, .nothing, output⟩ r
  | stored {last : Bool} {left : Nat} {output : Array UInt8} {r : BitReader}
    (h : Parser.byte r = .short) : Stalled ⟨.stored last (left + 1), .nothing, output⟩ r
  | coded {last : Bool} {lc dc : Code} {output : Array UInt8} {r : BitReader}
    (h : Token.read lc dc r = .short) : Stalled ⟨.coded last lc dc, .nothing, output⟩ r

/-- What holds of the state and the reader where decoding stops. -/
def Stop.Holds (limit : Option Nat) (s : State) (r : BitReader) : Stop → Prop
  | .finished => s.phase = .finished ∧ s.pending = .nothing
  | .short => Stalled s r
  | .full => ∃ n, limit = some n ∧ n ≤ s.output.size
  | .corrupt => ∀ more, (run none s (r.append more)).1 = .corrupt

theorem roomFor_lt {limit : Option Nat} {size count : Nat} (h : roomFor limit size count < count) :
    ∃ n, limit = some n ∧ n ≤ size + roomFor limit size count := by
  rcases limit with _ | n
  · exact absurd h (Nat.lt_irrefl _)
  · refine ⟨n, rfl, ?_⟩
    simp only [roomFor] at h ⊢
    omega

theorem roomFor_eq_zero {limit : Option Nat} {size : Nat} (h : roomFor limit size 1 = 0) :
    ∃ n, limit = some n ∧ n ≤ size := by
  obtain ⟨n, hn, hle⟩ := roomFor_lt (show roomFor limit size 1 < 1 by omega)
  exact ⟨n, hn, by omega⟩

theorem run_holds (limit : Option Nat) (s : State) (r : BitReader) :
    (run limit s r).1.Holds limit (run limit s r).2.1 (run limit s r).2.2 := by
  fun_induction run limit s r with
  | case1 r phase byte output h => exact roomFor_eq_zero h
  | case2 r phase byte output h ih => exact ih
  | case3 r phase length distance output count output' h =>
    obtain ⟨n, hn, hle⟩ := roomFor_lt h
    exact ⟨n, hn, by rw [size_copyBack]; exact hle⟩
  | case4 r phase length distance output count output' h ih => exact ih
  | case5 => exact ⟨rfl, rfl⟩
  | case6 r output last block rest h ih => exact ih
  | case7 r output h => exact .between h
  | case8 r output h =>
    intro more
    rw [run_block_corrupt _ _ (Block.sequential_read.corrupt_append h more)]
  | case9 r last output ih => exact ih
  | case10 r last output left h => exact roomFor_eq_zero h
  | case11 r last output left hf byte rest h ih => exact ih
  | case12 r last output left hf h => exact .stored h
  | case13 r last output left hf h => exact absurd h (Parser.byte_ne_corrupt r)
  | case14 r last lc dc output rest h ih => exact ih
  | case15 r last lc dc output token rest hn h ih => exact ih
  | case16 r last lc dc output h => exact .coded h
  | case17 r last lc dc output h =>
    intro more
    rw [run_token_corrupt _ _ ((Token.sequential_read lc dc).corrupt_append h more)]

theorem run_of_stalled {s : State} {r : BitReader} (h : Stalled s r) :
    run none s r = (.short, s, r) := by
  cases h with
  | between h => exact run_block_short _ _ h
  | stored h => exact run_byte_short _ _ Nat.one_ne_zero h
  | coded h => exact run_token_short _ _ h

/-- Decoding that stalled and is resumed uses up the bytes it had, unless it stalls again or the
stream is corrupt, and one more if it comes to the end of the stream. -/
theorem Stalled.suffix {limit : Option Nat} {s : State} {r : BitReader} (h : Stalled s r)
    {more : List UInt8} (h1 : (run limit s (r.append more)).1 ≠ .short)
    (h2 : (run limit s (r.append more)).1 ≠ .corrupt) :
    (run limit s (r.append more)).2.2.bytes <:+ more
      ∧ ((run limit s (r.append more)).1 = .finished →
        (run limit s (r.append more)).2.2.bytes <:+ more.tail) := by
  have of_tail : ∀ {s' : State} {rest : BitReader}, rest.bytes <:+ more.tail →
      (run limit s' rest).2.2.bytes <:+ more ∧ ((run limit s' rest).1 = .finished →
        (run limit s' rest).2.2.bytes <:+ more.tail) := fun h =>
    have h' := (run_suffix _ _ _).trans h
    ⟨h'.trans (List.tail_suffix _), fun _ => h'⟩
  -- The piece that was short takes a byte of what follows, and decoding goes on behind it.
  cases h with
  | between h =>
    rcases hd : Block.read (r.append more) with ⟨⟨last, block⟩, rest⟩ | _ | _
    · rw [run_block _ _ hd]
      exact of_tail (Block.sequential_read.suffix_of_short h hd)
    · exact absurd (by rw [run_block_short _ _ hd]) h1
    · exact absurd (by rw [run_block_corrupt _ _ hd]) h2
  | @stored last left output _ h =>
    by_cases hf : roomFor limit output.size 1 = 0
    · rw [run_full _ _ hf]
      obtain ⟨bits, _ | ⟨byte, bytes⟩⟩ := r <;> cases h
      exact ⟨List.suffix_refl _, fun h => by cases h⟩
    · rcases hd : Parser.byte (r.append more) with ⟨byte, rest⟩ | _ | _
      · rw [run_byte _ _ hf hd]
        exact of_tail (Parser.sequential_byte.suffix_of_short h hd)
      · exact absurd (by rw [run_byte_short _ _ hf hd]) h1
      · exact absurd hd (Parser.byte_ne_corrupt _)
  | @coded last lc dc output _ h =>
    rcases hd : Token.read lc dc (r.append more) with ⟨token, rest⟩ | _ | _
    · have hs := (Token.sequential_read lc dc).suffix_of_short h hd
      by_cases ht : token = .endOfBlock
      · subst ht
        rw [run_endOfBlock _ _ hd]
        exact of_tail hs
      · rw [run_token _ _ hd ht]
        exact of_tail hs
    · exact absurd (by rw [run_token_short _ _ hd]) h1
    · exact absurd (by rw [run_token_corrupt _ _ hd]) h2

theorem inflate_eq_complete {bytes out unused : List UInt8} :
    inflate bytes = .complete out unused ↔ ∃ s r, run none .start (.ofBytes bytes)
      = (.finished, s, r) ∧ s.output.toList = out ∧ r.bytes = unused := by
  unfold inflate
  split
  · rename_i s r h
    rw [Inflated.complete.injEq]
    refine ⟨fun ho => ⟨s, r, h, ho⟩, ?_⟩
    rintro ⟨s', r', h', ho⟩
    rw [h] at h'
    cases h'
    exact ho
  · rename_i h
    simp [h]
  · rename_i h1 h2
    simp only [reduceCtorEq, false_iff]
    rintro ⟨s, r, h, -⟩
    exact h1 s r h

theorem inflate_eq_corrupt {bytes : List UInt8} :
    inflate bytes = .corrupt ↔ (run none .start (.ofBytes bytes)).1 = .corrupt := by
  unfold inflate
  rcases run none .start (.ofBytes bytes) with ⟨_ | _ | _ | _, s, r⟩ <;> simp

theorem inflate_nil : inflate [] = .unfinished := by
  have h : run none .start (.ofBytes []) = (.short, .start, .ofBytes []) :=
    run_of_stalled (.between rfl)
  rw [inflate, h]

/-- A complete stream is read the same whatever follows it. -/
theorem inflate_append {bytes out unused : List UInt8} (h : inflate bytes = .complete out unused)
    (more : List UInt8) : inflate (bytes ++ more) = .complete out (unused ++ more) := by
  obtain ⟨s, r, h1, rfl, rfl⟩ := inflate_eq_complete.1 h
  have ha := run_append none .start (.ofBytes bytes) more
  have hh := run_holds none .start (.ofBytes bytes)
  rw [h1] at ha hh
  obtain ⟨phase, pending, output⟩ := s
  obtain ⟨rfl, rfl⟩ := hh
  rw [run_finished] at ha
  exact inflate_eq_complete.2 ⟨_, _, ha, rfl, rfl⟩

/-- What precedes the unused bytes of a complete stream is the stream itself. -/
theorem exists_of_inflate {bytes out unused : List UInt8}
    (h : inflate bytes = .complete out unused) :
    ∃ stream, bytes = stream ++ unused ∧ inflate stream = .complete out [] := by
  obtain ⟨s, r, h1, rfl, rfl⟩ := inflate_eq_complete.1 h
  have hs := run_suffix none .start (.ofBytes bytes)
  rw [h1] at hs
  obtain ⟨stream, hb : stream ++ r.bytes = bytes⟩ := hs
  refine ⟨stream, hb.symm, ?_⟩
  -- Decoding the stream alone does not stall: to resume it would take up an unused byte.
  have ha := run_append none .start (.ofBytes stream) r.bytes
  have hh := run_holds none .start (.ofBytes stream)
  rw [BitReader.ofBytes_append, hb, h1] at ha
  rcases hr : run none .start (.ofBytes stream) with ⟨stop, ⟨phase, pending, output⟩, r'⟩
  rw [hr] at ha hh
  cases stop with
  | finished =>
    obtain ⟨rfl, rfl⟩ := hh
    rw [run_finished] at ha
    simp only [Prod.mk.injEq, true_and] at ha
    obtain ⟨rfl, ha⟩ := ha
    have hl := congrArg (fun x => x.bytes.length) ha
    simp only [BitReader.append_bytes, List.length_append] at hl
    exact inflate_eq_complete.2 ⟨_, _, hr, rfl, List.length_eq_zero_iff.1 (by omega)⟩
  | short =>
    rcases he : r.bytes with _ | ⟨b, tail⟩
    · rw [he, BitReader.append_nil, run_of_stalled hh] at ha
      cases ha
    · have hl := (hh.suffix (by rw [← ha]; nofun) (by rw [← ha]; nofun)).2 (by rw [← ha])
      rw [← ha, he] at hl
      have := hl.length_le
      simp only [List.tail_cons, List.length_cons] at this
      omega
  | full =>
    obtain ⟨n, hn, -⟩ := hh
    cases hn
  | corrupt =>
    have := hh r.bytes
    rw [← ha] at this
    cases this

/-- At most one complete stream is at the front of some bytes. -/
theorem inflate_unique {xs ys out out' rest rest' : List UInt8}
    (hx : inflate xs = .complete out []) (hy : inflate ys = .complete out' [])
    (h : xs ++ rest = ys ++ rest') : xs = ys ∧ out = out' ∧ rest = rest' := by
  have hx' := inflate_append hx rest
  rw [h, inflate_append hy rest'] at hx'
  obtain ⟨rfl, hr⟩ := Inflated.complete.inj hx'
  simp only [List.nil_append] at hr
  subst hr
  exact ⟨List.append_cancel_right h, rfl, rfl⟩

end Carving.Deflate
