import Carving.Proofs.Following
import Carving.Proofs.InflatedSize

/-!
# The streams of the standard

The standard says of a stream what it stands for, block by block and token by token (`Blocks`). A
copy repeats bytes of the output, so its distance must not lead before the first one. The decoder is
more lenient and takes zeros for the bytes that lie there: it inflates what the standard would
inflate behind a window of zeros (`inflate_eq_complete_iff`). So it inflates every stream of the
standard to what that stands for (`IsStream.behind`), and those besides whose copies lead before
their output.
-/

namespace Carving.Deflate

/-- The bytes behind the first ones repeat those that stand a distance before them. -/
structure Repeats (length distance : Nat) (before after : List UInt8) : Prop where
  distance_pos : 0 < distance
  distance_le : distance ≤ before.length
  begins : before <+: after
  length_eq : after.length = before.length + length
  repeated : ∀ i, before.length ≤ i → i < after.length → after[i]? = after[i - distance]?

/-- The tokens of a block up to its end, with the output before and behind them. -/
inductive Tokens (literalCode distanceCode : Code) :
    List UInt8 → BitReader → List UInt8 → BitReader → Prop
  | endOfBlock {out r rest}
    (htoken : Token.read literalCode distanceCode r = .done .endOfBlock rest) :
    Tokens literalCode distanceCode out r out rest
  | literal {out out' r mid rest byte}
    (htoken : Token.read literalCode distanceCode r = .done (.literal byte) mid)
    (hmore : Tokens literalCode distanceCode (out ++ [byte]) mid out' rest) :
    Tokens literalCode distanceCode out r out' rest
  | copy {out repeated out' r mid rest length distance}
    (htoken : Token.read literalCode distanceCode r = .done (.copy length distance) mid)
    (hcopy : Repeats length distance out repeated)
    (hmore : Tokens literalCode distanceCode repeated mid out' rest) :
    Tokens literalCode distanceCode out r out' rest

/-- What a block holds, with the output before and behind it. -/
inductive Content : Block → List UInt8 → BitReader → List UInt8 → BitReader → Prop
  | stored {count out r bytes rest} (hbytes : Parser.byte.times count r = .done bytes rest) :
    Content (.stored count) out r (out ++ bytes) rest
  | coded {literalCode distanceCode out r out' rest}
    (htokens : Tokens literalCode distanceCode out r out' rest) :
    Content (.coded literalCode distanceCode) out r out' rest

/-- The blocks up to the last one, with the output before and behind them. -/
inductive Blocks : List UInt8 → BitReader → List UInt8 → BitReader → Prop
  | last {block out r mid out' rest} (hblock : Block.read r = .done (true, block) mid)
    (hcontent : Content block out mid out' rest) : Blocks out r out' rest
  | more {block out r mid out₁ r₁ out' rest} (hblock : Block.read r = .done (false, block) mid)
    (hcontent : Content block out mid out₁ r₁) (hmore : Blocks out₁ r₁ out' rest) :
    Blocks out r out' rest

/-- A complete stream that stands for the output behind a window, from which it may copy. Without a
window it is a stream of the standard. The last byte holds the end of the last block. -/
def IsStream (window stream out : List UInt8) : Prop :=
  ∃ rest, Blocks window (.ofBytes stream) (window ++ out) rest ∧ rest.bytes = []

section Copies

variable {length distance : Nat} {before after after' window : List UInt8}

theorem Repeats.getElem?_before (h : Repeats length distance before after) {i : Nat}
    (hi : i < before.length) : after[i]? = before[i]? := by
  obtain ⟨added, rfl⟩ := h.begins
  exact List.getElem?_append_left hi

theorem Repeats.unique (h : Repeats length distance before after)
    (h' : Repeats length distance before after') : after = after' := by
  have hpos := h.distance_pos
  have hle := h.distance_le
  have hlen : after.length = after'.length := h.length_eq.trans h'.length_eq.symm
  refine List.ext_getElem? fun i => ?_
  -- A byte is a known one, or the one that stands the distance before it.
  induction i using Nat.strongRecOn with
  | ind i ih =>
    by_cases hbefore : i < before.length
    · rw [h.getElem?_before hbefore, h'.getElem?_before hbefore]
    by_cases hafter : i < after.length
    · rw [h.repeated i (by omega) hafter, h'.repeated i (by omega) (hlen ▸ hafter)]
      exact ih _ (by omega)
    · rw [List.getElem?_eq_none (by omega), List.getElem?_eq_none (by omega)]

/-- A copy is the same behind a window. -/
theorem Repeats.behind (h : Repeats length distance before after) (window : List UInt8) :
    Repeats length distance (window ++ before) (window ++ after) where
  distance_pos := h.distance_pos
  distance_le := by
    rw [List.length_append]
    exact Nat.le_trans h.distance_le (Nat.le_add_left _ _)
  begins := (List.prefix_append_right_inj window).2 h.begins
  length_eq := by
    rw [List.length_append, List.length_append, h.length_eq]
    omega
  repeated i hi hlt := by
    have hle := h.distance_le
    rw [List.length_append] at hi hlt
    rw [List.getElem?_append_right (by omega), List.getElem?_append_right (by omega),
      h.repeated (i - window.length) (by omega) (by omega)]
    congr 1
    omega

/-- One byte is repeated, and then the others. -/
theorem Repeats.cons {byte : UInt8} (hpos : 0 < distance) (hle : distance ≤ before.length)
    (hbyte : before[before.length - distance]? = some byte)
    (h : Repeats length distance (before ++ [byte]) after) :
    Repeats (length + 1) distance before after where
  distance_pos := hpos
  distance_le := hle
  begins := (List.prefix_append _ _).trans h.begins
  length_eq := by
    rw [h.length_eq, List.length_append, List.length_singleton]
    omega
  repeated i hi hlt := by
    have hlen : (before ++ [byte]).length = before.length + 1 := List.length_append
    by_cases hfirst : i = before.length
    · subst hfirst
      have hlast := h.getElem?_before (i := before.length) (by omega)
      have hback := h.getElem?_before (i := before.length - distance) (by omega)
      rw [hlast, hback, List.getElem?_concat_length, List.getElem?_append_left (by omega), hbyte]
    · exact h.repeated i (by omega) hlt

theorem repeats_zero (hpos : 0 < distance) (hle : distance ≤ before.length) :
    Repeats 0 distance before before where
  distance_pos := hpos
  distance_le := hle
  begins := List.prefix_rfl
  length_eq := rfl
  repeated _ hi hlt := absurd hlt (Nat.not_lt.2 hi)

end Copies

section Windows

variable {out out' window : List UInt8} {r rest : BitReader}

theorem Tokens.behind {literalCode distanceCode : Code}
    (h : Tokens literalCode distanceCode out r out' rest) (window : List UInt8) :
    Tokens literalCode distanceCode (window ++ out) r (window ++ out') rest := by
  induction h with
  | endOfBlock htoken => exact .endOfBlock htoken
  | literal htoken _ ih => exact .literal htoken (by rwa [List.append_assoc])
  | copy htoken hcopy _ ih => exact .copy htoken (hcopy.behind window) ih

theorem Content.behind {block : Block} (h : Content block out r out' rest) (window : List UInt8) :
    Content block (window ++ out) r (window ++ out') rest := by
  cases h with
  | stored hbytes =>
    rw [← List.append_assoc]
    exact .stored hbytes
  | coded htokens => exact .coded (htokens.behind window)

theorem Blocks.behind (h : Blocks out r out' rest) (window : List UInt8) :
    Blocks (window ++ out) r (window ++ out') rest := by
  induction h with
  | last hblock hcontent => exact .last hblock (hcontent.behind window)
  | more hblock hcontent _ ih => exact .more hblock (hcontent.behind window) ih

theorem Tokens.size_le {literalCode distanceCode : Code}
    (h : Tokens literalCode distanceCode out r out' rest) : rest.size ≤ r.size := by
  induction h with
  | endOfBlock htoken => exact Nat.le_of_lt (Token.eats_read _ _ _ _ _ htoken)
  | literal htoken _ ih =>
    exact Nat.le_trans ih (Nat.le_of_lt (Token.eats_read _ _ _ _ _ htoken))
  | copy htoken _ _ ih =>
    exact Nat.le_trans ih (Nat.le_of_lt (Token.eats_read _ _ _ _ _ htoken))

theorem Content.size_le {block : Block} (h : Content block out r out' rest) :
    rest.size ≤ r.size := by
  cases h with
  | stored hbytes => exact Parser.eats_byte.shrinks.times _ _ _ _ hbytes
  | coded htokens => exact htokens.size_le

/-- A stream of the standard stands for the same output behind any window. -/
theorem IsStream.behind {stream : List UInt8} (h : IsStream [] stream out) (window : List UInt8) :
    IsStream window stream out := by
  obtain ⟨rest, hblocks, hrest⟩ := h
  have hbehind := hblocks.behind window
  rw [List.append_nil] at hbehind
  exact ⟨rest, hbehind, hrest⟩

end Windows

/-- The zeros that the decoder takes for bytes before the output. -/
def zeroWindow : List UInt8 := List.replicate windowSize 0

section Decoder

variable {o o' : Array UInt8} {r mid rest : BitReader} {last : Bool}
  {literalCode distanceCode : Code}

namespace Token

/-- No distance leads beyond the window. -/
theorem distances_le : ∀ entry ∈ distances.toList,
    1 ≤ entry.1 ∧ entry.1 + 1 <<< entry.2 ≤ windowSize + 1 := by
  decide

theorem readExtra_ge {entry : Option (Nat × Nat)} {n least : Nat}
    (hleast : ∀ e ∈ entry, least ≤ e.1) (h : readExtra entry r = .done n rest) : least ≤ n := by
  rcases entry with _ | ⟨first, extra⟩
  · cases h
  · obtain ⟨more, mid, -, h⟩ := Parser.bind_eq_done h
    cases h
    exact Nat.le_trans (hleast _ rfl) (Nat.le_add_right _ _)

theorem distance_of_read {length distance : Nat}
    (h : read literalCode distanceCode r = .done (.copy length distance) rest) :
    0 < distance ∧ distance ≤ windowSize := by
  obtain ⟨symbol, mid, -, h⟩ := Parser.bind_eq_done h
  unfold ofSymbol at h
  split at h
  · cases h
  split at h
  · cases h
  obtain ⟨length, mid, -, h⟩ := Parser.bind_eq_done h
  obtain ⟨d, mid, -, h⟩ := Parser.bind_eq_done h
  obtain ⟨distance, mid, hdistance, h⟩ := Parser.bind_eq_done h
  cases h
  have hentry : ∀ e ∈ distances[d]?, e ∈ distances.toList := fun e he => by
    obtain ⟨hlt, rfl⟩ := Array.getElem?_eq_some_iff.1 he
    exact Array.getElem_mem_toList hlt
  exact ⟨readExtra_ge (fun e he => (distances_le e (hentry e he)).1) hdistance,
    readExtra_le (fun e he => (distances_le e (hentry e he)).2) hdistance⟩

end Token

/-- The byte that stands at a distance before the end, or a zero of the window. -/
theorem getElem?_behind_zeros {distance : Nat} (hpos : 0 < distance) (hle : distance ≤ windowSize) :
    (zeroWindow ++ o.toList)[(zeroWindow ++ o.toList).length - distance]?
      = some (if distance ≤ o.size then o.getD (o.size - distance) 0 else 0) := by
  have hwindow : zeroWindow.length = windowSize := List.length_replicate
  rw [List.length_append, hwindow, Array.length_toList]
  by_cases hnear : distance ≤ o.size
  · rw [if_pos hnear, List.getElem?_append_right (by omega), hwindow,
      show windowSize + o.size - distance - windowSize = o.size - distance by omega,
      Array.getElem?_toList, Array.getElem?_eq_getElem (by omega), Array.getD_eq_getD_getElem?,
      Array.getElem?_eq_getElem (by omega), Option.getD_some]
  · rw [if_neg hnear, List.getElem?_append_left (by omega), zeroWindow,
      List.getElem?_replicate_of_lt (by omega)]

theorem repeats_copyBack {length distance : Nat} (hpos : 0 < distance)
    (hle : distance ≤ windowSize) : Repeats length distance (zeroWindow ++ o.toList)
      (zeroWindow ++ (copyBack length distance o).toList) := by
  have hwindow : zeroWindow.length = windowSize := List.length_replicate
  have hreach : distance ≤ (zeroWindow ++ o.toList).length := by
    rw [List.length_append]
    omega
  induction length generalizing o with
  | zero => exact repeats_zero hpos hreach
  | succ length ih =>
    refine .cons hpos hreach (getElem?_behind_zeros hpos hle) ?_
    rw [List.append_assoc, ← Array.toList_push]
    refine ih ?_
    rw [List.length_append]
    omega

/-- Behind a window of zeros, a copy repeats what the decoder writes. -/
theorem Repeats.eq_copyBack {length distance : Nat} {after : List UInt8}
    (hle : distance ≤ windowSize) (h : Repeats length distance (zeroWindow ++ o.toList) after) :
    after = zeroWindow ++ (copyBack length distance o).toList :=
  h.unique (repeats_copyBack h.distance_pos hle)

section Inflating

/-! What the standard says of a stream behind the window is what the decoder does, and the other way
round. -/

variable {left after : List UInt8} {s : State}

theorem run_of_times {count : Nat} {bytes : List UInt8}
    (h : Parser.byte.times count r = .done bytes mid) :
    run none ⟨.stored last count, .nothing, o⟩ r
      = run none ⟨.after last, .nothing, o ++ bytes.toArray⟩ mid := by
  induction count generalizing o r bytes with
  | zero =>
    cases h
    rw [run_stored_zero, Array.append_empty]
  | succ count ih =>
    obtain ⟨byte, mid', hbyte, h⟩ := Parser.bind_eq_done h
    obtain ⟨bytes, mid'', hbytes, h⟩ := Parser.bind_eq_done h
    cases h
    rw [run_byte none _ Nat.one_ne_zero hbyte, ih hbytes]
    simp

theorem run_of_tokens (h : Tokens literalCode distanceCode (zeroWindow ++ o.toList) r after rest) :
    ∃ o' : Array UInt8, after = zeroWindow ++ o'.toList
      ∧ run none ⟨.coded last literalCode distanceCode, .nothing, o⟩ r
        = run none ⟨.after last, .nothing, o'⟩ rest := by
  generalize hbefore : zeroWindow ++ o.toList = before at h
  induction h generalizing o with
  | endOfBlock htoken => exact ⟨o, hbefore.symm, run_endOfBlock none o htoken⟩
  | @literal _ _ _ _ _ byte htoken _ ih =>
    obtain ⟨o', hafter, hrun⟩ := @ih (o.push byte) (by rw [← hbefore, Array.toList_push]; simp)
    exact ⟨o', hafter, by rw [run_token none o htoken nofun, Pending.ofToken, run_literal, hrun]⟩
  | @copy _ _ _ _ _ _ length distance htoken hcopy _ ih =>
    subst hbefore
    obtain ⟨o', hafter, hrun⟩ := ih (hcopy.eq_copyBack (Token.distance_of_read htoken).2).symm
    exact ⟨o', hafter, by rw [run_token none o htoken nofun, Pending.ofToken, run_copy, hrun]⟩

variable (last) in
theorem run_of_content {block : Block} (h : Content block (zeroWindow ++ o.toList) r after rest) :
    ∃ o' : Array UInt8, after = zeroWindow ++ o'.toList
      ∧ run none ⟨.inside last block, .nothing, o⟩ r
        = run none ⟨.after last, .nothing, o'⟩ rest := by
  cases h with
  | @stored _ _ _ bytes _ hbytes =>
    exact ⟨o ++ bytes.toArray, by simp, run_of_times hbytes⟩
  | coded htokens => exact run_of_tokens htokens

theorem run_of_blocks (h : Blocks (zeroWindow ++ o.toList) r after rest) :
    ∃ o' : Array UInt8, after = zeroWindow ++ o'.toList
      ∧ run none ⟨.between, .nothing, o⟩ r = (.finished, ⟨.finished, .nothing, o'⟩, rest) := by
  generalize hbefore : zeroWindow ++ o.toList = before at h
  induction h generalizing o with
  | last hblock hcontent =>
    subst hbefore
    obtain ⟨o', hafter, hrun⟩ := run_of_content true hcontent
    exact ⟨o', hafter, by rw [run_block none o hblock, hrun, Phase.after, if_pos rfl, run_finished]⟩
  | more hblock hcontent _ ih =>
    subst hbefore
    obtain ⟨o₁, hmid, hrun⟩ := run_of_content false hcontent
    obtain ⟨o', hafter, hrun'⟩ := ih hmid.symm
    exact ⟨o', hafter, by rw [run_block none o hblock, hrun]; exact hrun'⟩

theorem times_of_run {count : Nat}
    (h : run none ⟨.stored last count, .nothing, o⟩ r = (.finished, s, rest)) :
    ∃ bytes mid, Parser.byte.times count r = .done bytes mid
      ∧ run none ⟨.after last, .nothing, o ++ bytes.toArray⟩ mid = (.finished, s, rest) := by
  induction count generalizing o r with
  | zero => exact ⟨[], r, rfl, by rwa [Array.append_empty, ← run_stored_zero]⟩
  | succ count ih =>
    rcases hbyte : Parser.byte r with ⟨byte, mid⟩ | _ | _
    · rw [run_byte none _ Nat.one_ne_zero hbyte] at h
      obtain ⟨bytes, mid', hbytes, hrun⟩ := ih h
      refine ⟨byte :: bytes, mid', ?_, by simpa using hrun⟩
      rw [Parser.times, Parser.bind_of_done hbyte, Parser.bind_of_done hbytes]
      rfl
    · rw [run_byte_short none _ Nat.one_ne_zero hbyte] at h
      cases h
    · exact absurd hbyte (Parser.byte_ne_corrupt r)

theorem tokens_of_run
    (h : run none ⟨.coded last literalCode distanceCode, .nothing, o⟩ r = (.finished, s, rest)) :
    ∃ (o' : Array UInt8) (mid : BitReader),
      Tokens literalCode distanceCode (zeroWindow ++ o.toList) r (zeroWindow ++ o'.toList) mid
      ∧ run none ⟨.after last, .nothing, o'⟩ mid = (.finished, s, rest) := by
  generalize hsize : r.size = size
  induction size using Nat.strongRecOn generalizing o r with
  | ind size ih =>
    subst hsize
    rcases htoken : Token.read literalCode distanceCode r with ⟨token, mid⟩ | _ | _
    · have hlt := Token.eats_read _ _ _ _ _ htoken
      cases token with
      | endOfBlock =>
        rw [run_endOfBlock none o htoken] at h
        exact ⟨o, mid, .endOfBlock htoken, h⟩
      | literal byte =>
        rw [run_token none o htoken nofun, Pending.ofToken, run_literal] at h
        obtain ⟨o', mid', htokens, hrun⟩ := ih _ hlt h rfl
        rw [Array.toList_push, ← List.append_assoc] at htokens
        exact ⟨o', mid', .literal htoken htokens, hrun⟩
      | copy length distance =>
        rw [run_token none o htoken nofun, Pending.ofToken, run_copy] at h
        obtain ⟨o', mid', htokens, hrun⟩ := ih _ hlt h rfl
        obtain ⟨hpos, hle⟩ := Token.distance_of_read htoken
        exact ⟨o', mid', .copy htoken (repeats_copyBack hpos hle) htokens, hrun⟩
    · rw [run_token_short none o htoken] at h
      cases h
    · rw [run_token_corrupt none o htoken] at h
      cases h

theorem content_of_run {block : Block}
    (h : run none ⟨.inside last block, .nothing, o⟩ r = (.finished, s, rest)) :
    ∃ (o' : Array UInt8) (mid : BitReader),
      Content block (zeroWindow ++ o.toList) r (zeroWindow ++ o'.toList) mid
      ∧ run none ⟨.after last, .nothing, o'⟩ mid = (.finished, s, rest) := by
  cases block with
  | stored count =>
    obtain ⟨bytes, mid, hbytes, hrun⟩ := times_of_run h
    have hcontent : Content (.stored count) (zeroWindow ++ o.toList) r _ mid := .stored hbytes
    exact ⟨o ++ bytes.toArray, mid, by simpa using hcontent, hrun⟩
  | coded literalCode distanceCode =>
    obtain ⟨o', mid, htokens, hrun⟩ := tokens_of_run h
    exact ⟨o', mid, .coded htokens, hrun⟩

theorem blocks_of_run (h : run none ⟨.between, .nothing, o⟩ r = (.finished, s, rest)) :
    Blocks (zeroWindow ++ o.toList) r (zeroWindow ++ s.output.toList) rest := by
  generalize hsize : r.size = size
  induction size using Nat.strongRecOn generalizing o r with
  | ind size ih =>
    subst hsize
    rcases hblock : Block.read r with ⟨⟨last, block⟩, mid⟩ | _ | _
    · rw [run_block none o hblock] at h
      obtain ⟨o', mid', hcontent, hrun⟩ := content_of_run h
      cases last with
      | true =>
        rw [Phase.after, if_pos rfl, run_finished] at hrun
        cases hrun
        exact .last hblock hcontent
      | false =>
        have hlt := Nat.lt_of_le_of_lt hcontent.size_le (Block.eats_read _ _ _ hblock)
        exact .more hblock hcontent (ih _ hlt hrun rfl)
    · rw [run_block_short none o hblock] at h
      cases h
    · rw [run_block_corrupt none o hblock] at h
      cases h

end Inflating

end Decoder

/-- The decoder inflates a stream to what the standard says that it stands for behind a window of
zeros. -/
theorem inflate_eq_complete_iff {stream out : List UInt8} :
    inflate stream = .complete out [] ↔ IsStream zeroWindow stream out := by
  rw [inflate_eq_complete]
  constructor
  · rintro ⟨s, rest, hrun, rfl, hrest⟩
    have hblocks := blocks_of_run (o := #[]) hrun
    rw [List.append_nil] at hblocks
    exact ⟨rest, hblocks, hrest⟩
  · rintro ⟨rest, hblocks, hrest⟩
    obtain ⟨o', hout, hrun⟩ := run_of_blocks (o := #[]) (by rwa [List.append_nil])
    exact ⟨_, rest, hrun, (List.append_cancel_left hout).symm, hrest⟩

/-- A stream of the standard inflates to what it stands for. -/
theorem IsStream.inflate_eq {stream out : List UInt8} (h : IsStream [] stream out) :
    inflate stream = .complete out [] :=
  inflate_eq_complete_iff.2 (h.behind zeroWindow)

end Carving.Deflate
