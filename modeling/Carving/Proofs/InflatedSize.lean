import Carving.Proofs.Following

/-!
# How much a stream can inflate to

A token takes at least one bit and asks for 258 bytes at most (`Token.size_le`). What is written,
what is pending, and the longest token for every bit that is left never grow together
(`run_budget_le`), so the output of a decoder is bounded by the length of the stream that it follows
(`Decoder.Follows.length_handed_le`).
-/

namespace Carving.Deflate

theorem number_lt {count n : Nat} {r rest : BitReader}
    (h : Parser.number count r = .done n rest) : n < 1 <<< count := by
  induction count generalizing n r with
  | zero =>
    cases h
    exact Nat.one_pos
  | succ count ih =>
    obtain ⟨b, mid, -, h⟩ := Parser.bind_eq_done h
    obtain ⟨high, mid', hhigh, h⟩ := Parser.bind_eq_done h
    cases h
    have hhigh := ih hhigh
    have hbit : b.toNat < 2 := Bool.toNat_lt b
    rw [Nat.shiftLeft_succ]
    omega

namespace Token

/-- The length of the longest copy that a token can ask for. -/
def longest : Nat := 258

/-- No entry with all its extra bits set exceeds the longest length. -/
theorem lengths_le : ∀ entry ∈ lengths.toList, entry.1 + 1 <<< entry.2 ≤ longest + 1 := by
  decide

theorem readExtra_le {entry : Option (Nat × Nat)} {n most : Nat} {r rest : BitReader}
    (hmost : ∀ e ∈ entry, e.1 + 1 <<< e.2 ≤ most + 1)
    (h : readExtra entry r = .done n rest) : n ≤ most := by
  rcases entry with _ | ⟨least, extra⟩
  · cases h
  · obtain ⟨more, mid, hmore, h⟩ := Parser.bind_eq_done h
    cases h
    have hmore := number_lt hmore
    have := hmost (least, extra) rfl
    simp only at this
    omega

theorem size_le {literalCode distanceCode : Code} {token : Token} {r rest : BitReader}
    (h : read literalCode distanceCode r = .done token rest) : token.size ≤ longest := by
  obtain ⟨symbol, mid, -, h⟩ := Parser.bind_eq_done h
  unfold ofSymbol at h
  split at h
  · cases h
    exact (by decide : 1 ≤ longest)
  split at h
  · cases h
    exact Nat.zero_le _
  obtain ⟨length, mid, hlength, h⟩ := Parser.bind_eq_done h
  obtain ⟨d, mid, -, h⟩ := Parser.bind_eq_done h
  obtain ⟨distance, mid, -, h⟩ := Parser.bind_eq_done h
  cases h
  refine readExtra_le (fun e he => ?_) hlength
  obtain ⟨hlt, rfl⟩ := Array.getElem?_eq_some_iff.1 he
  exact lengths_le _ (Array.getElem_mem_toList hlt)

end Token

theorem size_ofToken (token : Token) : (Pending.ofToken token).size = token.size := by
  cases token <;> rfl

/-- What is written and pending, and the most that the bits which are left can ask for. -/
def budget (s : State) (r : BitReader) : Nat :=
  s.output.size + s.pending.size + Token.longest * r.size

/-- A bit that is taken pays for the longest token. -/
theorem longest_mul_size_le {r rest : BitReader} (h : rest.size < r.size) :
    Token.longest * rest.size + Token.longest ≤ Token.longest * r.size := by
  rw [← Nat.mul_succ]
  exact Nat.mul_le_mul_left _ h

/-- Decoding keeps within what its bits allow. -/
theorem run_budget_le (limit : Option Nat) (s : State) (r : BitReader) :
    budget (run limit s r).2.1 (run limit s r).2.2 ≤ budget s r := by
  -- Writing moves bytes from what is pending, and only tokens and stored bytes ask for more.
  unfold budget
  fun_induction run limit s r with
  | case2 r phase byte output h ih =>
    simp only [Array.size_push, Pending.size] at ih ⊢
    omega
  | case3 r phase length distance output count output' h =>
    simp only [output', size_copyBack, Pending.size]
    omega
  | case4 r phase length distance output count output' h ih =>
    have hle : count ≤ length := by
      simp only [count, roomFor]
      split <;> omega
    simp only [output', size_copyBack, Pending.size] at ih ⊢
    omega
  | case6 r output last block rest h ih =>
    have := longest_mul_size_le (Block.eats_read _ _ _ h)
    simp only [Pending.size] at ih ⊢
    omega
  | case9 r last output ih => exact ih
  | case11 r last output left hf byte rest h ih =>
    have := longest_mul_size_le (Parser.eats_byte _ _ _ h)
    have hone : 1 ≤ Token.longest := by decide
    simp only [Array.size_push, Pending.size] at ih ⊢
    omega
  | case14 r last lc dc output rest h ih =>
    have := longest_mul_size_le (Token.eats_read _ _ _ _ _ h)
    simp only [Pending.size] at ih ⊢
    omega
  | case15 r last lc dc output token rest hn h ih =>
    have := longest_mul_size_le (Token.eats_read _ _ _ _ _ h)
    have hsize := Token.size_le h
    simp only [size_ofToken] at ih
    change _ ≤ output.size + 0 + Token.longest * r.size
    omega
  | _ => exact Nat.le_refl _

/-- The most bytes that a stream of the given length can inflate to. -/
def mostInflated (length : Nat) : Nat := Token.longest * (8 * length)

theorem mostInflated_le {m n : Nat} (h : m ≤ n) : mostInflated m ≤ mostInflated n :=
  Nat.mul_le_mul_left _ (Nat.mul_le_mul_left _ h)

theorem Decoder.Follows.length_handed_le {d : Decoder} {stream left : List UInt8}
    (h : d.Follows stream left) : d.handed.length ≤ mostInflated stream.length := by
  have hbudget := run_budget_le none .start (.ofBytes stream)
  have hextends := (run_extends none d.state (d.kept.append left)).length_le
  rw [← h.run_eq, Array.length_toList, Array.length_toList] at hextends
  have hstart : budget .start (.ofBytes stream) = mostInflated stream.length := by
    simp [budget, mostInflated, State.start, Pending.size, BitReader.size, BitReader.ofBytes]
  rw [hstart, budget] at hbudget
  rw [Decoder.handed, List.length_take, Array.length_toList]
  omega

end Carving.Deflate
