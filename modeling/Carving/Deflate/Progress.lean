import Carving.Deflate.Decoder

/-!
# Decoding comes to an end

Decoding uses up bits, or writes what was pending. A call of a decoder therefore takes input, or
has less left to do, or neither takes nor hands over anything.
-/

namespace Carving.Deflate

/-- Decoding has led from one state and reader to another: it has used up bits, or else it has
written some of what was pending, or else it has done nothing. -/
def Advanced (s : State) (r : BitReader) (s' : State) (r' : BitReader) : Prop :=
  r'.size < r.size ∨ r'.size = r.size ∧ (s'.pending.weight < s.pending.weight
    ∨ s'.pending.weight = s.pending.weight ∧ s'.output = s.output)

theorem Advanced.refl (s : State) (r : BitReader) : Advanced s r s r :=
  .inr ⟨rfl, .inr ⟨rfl, rfl⟩⟩

theorem Advanced.trans {s s' s'' : State} {r r' r'' : BitReader} (h : Advanced s r s' r')
    (h' : Advanced s' r' s'' r'') : Advanced s r s'' r'' := by
  unfold Advanced at *
  rcases h with h | ⟨h, h1 | ⟨h1, h2⟩⟩ <;> rcases h' with h' | ⟨h', h3 | ⟨h3, h4⟩⟩
  · exact .inl (by omega)
  · exact .inl (by omega)
  · exact .inl (by omega)
  · exact .inl (by omega)
  · exact .inr ⟨by omega, .inl (by omega)⟩
  · exact .inr ⟨by omega, .inl (by omega)⟩
  · exact .inl (by omega)
  · exact .inr ⟨by omega, .inl (by omega)⟩
  · exact .inr ⟨by omega, .inr ⟨by omega, h4.trans h2⟩⟩

theorem run_advanced (limit : Option Nat) (s : State) (r : BitReader) :
    Advanced s r (run limit s r).2.1 (run limit s r).2.2 := by
  fun_induction run limit s r with
  | case1 => exact .refl _ _
  | case2 phase byte output r h ih =>
    exact .trans (.inr ⟨rfl, .inl (by simp [Pending.weight])⟩) ih
  | case3 phase length distance output r count output' h =>
    by_cases hc : count = 0
    · refine .inr ⟨rfl, .inr ⟨by simp [Pending.weight, hc], ?_⟩⟩
      simp only [output', hc, copyBack]
    · refine .inr ⟨rfl, .inl ?_⟩
      simp only [Pending.weight]
      omega
  | case4 phase length distance output r count output' h ih =>
    exact .trans (.inr ⟨rfl, .inl (by simp [Pending.weight])⟩) ih
  | case5 => exact .refl _ _
  | case6 output r last block rest h ih => exact .trans (.inl (Block.eats_read _ _ _ h)) ih
  | case7 => exact .refl _ _
  | case8 => exact .refl _ _
  | case9 last output r ih => exact .trans (.inr ⟨rfl, .inr ⟨rfl, rfl⟩⟩) ih
  | case10 => exact .refl _ _
  | case11 last left output r hf byte rest h ih =>
    exact .trans (.inl (Parser.eats_byte _ _ _ h)) ih
  | case12 => exact .refl _ _
  | case13 => exact .refl _ _
  | case14 last lc dc output r rest h ih =>
    exact .trans (.inl (Token.eats_read _ _ _ _ _ h)) ih
  | case15 last lc dc output r token rest hn h ih =>
    exact .trans (.inl (Token.eats_read _ _ _ _ _ h)) ih
  | case16 => exact .refl _ _
  | case17 => exact .refl _ _

theorem runAhead_advanced (limit : Nat) (s : State) (l : Lookahead) :
    Advanced s l.reader (runAhead limit s l).2.1 (runAhead limit s l).2.2 := by
  have ha := run_advanced (some limit) s l.reader
  rcases runAhead_eq limit s l with h | ⟨last, left, output, bits, byte, bytes, h, h'⟩
  · rwa [h]
  · rw [h] at ha
    rw [h']
    refine ha.trans (.inl ?_)
    simp only [BitReader.size, List.length_cons, List.length_nil]
    omega

namespace Decoder

/-- A decoder has less left to do without more input: fewer bits, or less that is pending, or less
output to hand over. -/
def effort (d : Decoder) : Nat × Nat × Nat := (d.kept.size, d.state.pending.weight, d.waiting)

def effortLt : Nat × Nat × Nat → Nat × Nat × Nat → Prop :=
  Prod.Lex (· < ·) (Prod.Lex (· < ·) (· < ·))

theorem advance_left_le (d : Decoder) (input : List UInt8) :
    (d.advance input).2 ≤ input.length := by
  unfold advance
  dsimp only
  split
  · exact Nat.zero_le _
  · exact Nat.min_le_right _ _

theorem advance_delivered (d : Decoder) (input : List UInt8) :
    (d.advance input).1.delivered = d.delivered := by
  unfold advance
  dsimp only
  split <;> rfl

/-- Advancing without taking any of the input uses up kept bits, or writes, or does nothing. -/
theorem advance_untouched {d : Decoder} {input : List UInt8}
    (h : (d.advance input).2 = input.length) (hi : input ≠ []) :
    Advanced d.state d.kept (d.advance input).1.state (d.advance input).1.kept := by
  have hl := List.length_pos_iff.2 hi
  unfold advance at h ⊢
  dsimp only at h ⊢
  split at h
  · dsimp only at h
    omega
  · rename_i stop s rest hs hr
    have ha := runAhead_advanced ((d.state.output.size / windowSize + 1) * windowSize) d.state
      (d.lookahead input)
    simp only [hr] at ha ⊢
    have hb : input.length ≤ rest.bytes.length := by omega
    have hrest : (⟨rest.bits, []⟩ : BitReader).size + 8 * rest.bytes.length = rest.size := by
      simp [BitReader.size]
    have hk : (d.lookahead input).reader.size = _ := d.kept.size_append input
    rcases ha with ha | ⟨ha, ha'⟩
    · exact .inl (by omega)
    · by_cases he : (⟨rest.bits, []⟩ : BitReader).size < d.kept.size
      · exact .inl he
      · exact .inr ⟨by omega, ha'⟩

theorem deliver_fst (d : Decoder) (n : Nat) : (d.deliver n).1.consumed = n := rfl

theorem deliver_produced {d : Decoder} {n : Nat} (h : (d.deliver n).1.produced ≠ []) :
    (d.deliver n).2.waiting < d.waiting := by
  have hl := List.length_pos_iff.2 h
  simp only [deliver, Array.length_toList, Array.size_extract] at hl
  simp only [waiting, deliver]
  omega

theorem advanceTwice_left_le (d : Decoder) (input : List UInt8) :
    (d.advanceTwice input).2 ≤ input.length := by
  have h := d.advance_left_le input
  unfold advanceTwice
  dsimp only
  split
  · have := (d.advance input).1.advance_left_le
      (input.drop (input.length - (d.advance input).2))
    rw [List.length_drop] at this
    omega
  · exact h

theorem advanceTwice_delivered (d : Decoder) (input : List UInt8) :
    (d.advanceTwice input).1.delivered = d.delivered := by
  unfold advanceTwice
  dsimp only
  split
  · rw [advance_delivered, advance_delivered]
  · exact advance_delivered d input

theorem advanceTwice_untouched {d : Decoder} {input : List UInt8}
    (h : (d.advanceTwice input).2 = input.length) (hi : input ≠ []) :
    Advanced d.state d.kept (d.advanceTwice input).1.state (d.advanceTwice input).1.kept := by
  have hl := d.advance_left_le input
  unfold advanceTwice at h ⊢
  dsimp only at h ⊢
  split at h
  · rename_i hc
    have hl' := (d.advance input).1.advance_left_le
      (input.drop (input.length - (d.advance input).2))
    rw [List.length_drop] at hl'
    have h1 : (d.advance input).2 = input.length := by omega
    rw [if_pos hc]
    simp only [h1, Nat.sub_self, List.drop_zero] at h ⊢
    exact (advance_untouched h1 hi).trans (advance_untouched h hi)
  · rename_i hc
    rw [if_neg hc]
    exact advance_untouched h hi

/-- A call takes some of its input, or leaves the decoder with less to do, or hands over nothing. -/
theorem decode_progress {d d' : Decoder} {input : List UInt8} {p : Progress}
    (h : d.decode input = (some p, d')) (hi : input ≠ []) :
    0 < p.consumed ∨ effortLt d'.effort d.effort ∨ p.produced = [] := by
  by_cases hp : p.produced = []
  · exact .inr (.inr hp)
  unfold decode at h
  split at h
  · cases h
  split at h
  · cases h
    exact .inr (.inl (.right _ (.right _ (deliver_produced hp))))
  · rename_i hstop hw
    dsimp only at h
    split at h
    · cases h
    · cases h
      by_cases hl : (d.advanceTwice input).2 = input.length
      · refine .inr (.inl ?_)
        rcases advanceTwice_untouched hl hi with ha | ⟨ha, ha' | ⟨-, ha'⟩⟩
        · exact .left _ _ ha
        · exact Prod.lex_def.2 (.inr ⟨ha, Prod.lex_def.2 (.inl ha')⟩)
        · have := deliver_produced hp
          have := d.advanceTwice_delivered input
          simp only [waiting, ha'] at *
          omega
      · have := d.advanceTwice_left_le input
        exact .inl (by rw [deliver_fst]; omega)

end Decoder

end Carving.Deflate
