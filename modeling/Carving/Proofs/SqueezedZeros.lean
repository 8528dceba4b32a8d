import Mathlib.Data.Fin.Tuple.Basic
import Carving.Proofs.Resumption

/-!
# Streams of many zeros in few bytes

With a code of three symbols a byte of a block is four copies of the greatest length. A stream that
consists of such bytes inflates to 1032 zeros for each of them (`Squeezed.inflate_stream`). Where an
output of limited size is full within the last copy of the stream, all its bytes have been taken
(`Squeezed.run_stream_full`).
-/

namespace Carving.Deflate

/-- A copy that there is no room for is written in part. -/
theorem run_copy_full {n count : Nat} {output : Array UInt8} (phase : Phase) (r : BitReader)
    (distance : Nat) (hle : output.size ≤ n) (hlt : n < output.size + count) :
    run (some n) ⟨phase, .copy count distance, output⟩ r
      = (.full, ⟨phase, .copy (count - (n - output.size)) distance,
        copyBack (n - output.size) distance output⟩, r) := by
  have hroom : roomFor (some n) output.size count = n - output.size := by
    simp only [roomFor]
    omega
  rw [run]
  simp only [hroom]
  rw [if_pos]
  omega

/-- Zeros are what is copied from zeros, and from before the first byte. -/
theorem copyBack_zeros (count n : Nat) :
    copyBack count 1 (Array.replicate n 0) = Array.replicate (n + count) 0 := by
  induction count generalizing n with
  | zero => rfl
  | succ count ih =>
    have hbyte : (Array.replicate n (0 : UInt8)).getD ((Array.replicate n (0 : UInt8)).size - 1) 0
        = 0 := by
      simp [Array.getD]
    rw [copyBack, hbyte, ite_self, ← Array.replicate_succ, ih]
    congr 1
    omega

namespace Squeezed

/-- The beginning of a block with two codes: 1 0 for a zero byte, 0 0 for a copy of 258 bytes that
stand one byte back, and 1 1 for the end. Three zero bytes are the last six bits. -/
def head : List UInt8 := [0xed, 0xe0, 0x81, 0, 0, 0, 0, 0x80, 0x20, 0xec, 0x4f, 0xbd, 0x48, 0x55]

def literalCode : Code := ⟨.leaf 285, .node (.leaf 0) (.leaf 256)⟩

def distanceCode : Code := ⟨.leaf 0, .gap⟩

/-- The block after a number of zeros. -/
def inside (zeros : Nat) : State :=
  ⟨.coded true literalCode distanceCode, .nothing, Array.replicate zeros 0⟩

/-- The block after a number of zeros, where a copy comes next. -/
def copying (zeros : Nat) : State :=
  ⟨.coded true literalCode distanceCode, .copy 258 1, Array.replicate zeros 0⟩

set_option maxRecDepth 100000 in
theorem read_head : Block.read (.ofBytes head) = .done (true, .coded literalCode distanceCode)
    ⟨[true, false, true, false, true, false], []⟩ := by
  cbv

section Steps

variable {limit : Option Nat} {zeros : Nat} {r rest : BitReader}

theorem run_literal_zero (hread : Token.read literalCode distanceCode r = .done (.literal 0) rest)
    (h : ∀ n ∈ limit, zeros + 1 ≤ n) :
    run limit (inside zeros) r = run limit (inside (zeros + 1)) rest := by
  rw [inside, run_token limit _ hread (by simp)]
  have hroom : roomFor limit (Array.replicate zeros (0 : UInt8)).size 1 = 1 :=
    roomFor_of_le (by simpa using h)
  refine (run_literal_of_room _ _ _ (by rw [hroom]; exact Nat.one_ne_zero)).trans ?_
  rw [← Array.replicate_succ]
  rfl

theorem run_copying (hread : Token.read literalCode distanceCode r = .done (.copy 258 1) rest) :
    run limit (inside zeros) r = run limit (copying zeros) rest :=
  run_token limit _ hread (by simp)

theorem run_copy_zeros (hread : Token.read literalCode distanceCode r = .done (.copy 258 1) rest)
    (h : ∀ n ∈ limit, zeros + 258 ≤ n) :
    run limit (inside zeros) r = run limit (inside (zeros + 258)) rest := by
  have hroom : roomFor limit (Array.replicate zeros (0 : UInt8)).size 258 = 258 :=
    roomFor_of_le (by simpa using h)
  rw [run_copying hread, copying, run_copy_of_room _ _ _ hroom, copyBack_zeros]
  rfl

/-- A byte of zero bits is four copies. -/
theorem run_zero_byte (bytes : List UInt8) (h : ∀ n ∈ limit, zeros + 1032 ≤ n) :
    run limit (inside zeros) (.ofBytes (0 :: bytes))
      = run limit (inside (zeros + 1032)) (.ofBytes bytes) := by
  have hcopy : ∀ size, size ≤ zeros + 1032 → ∀ n ∈ limit, size ≤ n :=
    fun size hle n hn => Nat.le_trans hle (h n hn)
  rw [run_copy_zeros rfl (hcopy _ (by omega)), run_copy_zeros rfl (hcopy _ (by omega)),
    run_copy_zeros rfl (hcopy _ (by omega)), run_copy_zeros rfl (hcopy _ (by omega))]
  rfl

theorem run_zero_bytes (count : Nat) (bytes : List UInt8)
    (h : ∀ n ∈ limit, zeros + 1032 * count ≤ n) :
    run limit (inside zeros) (.ofBytes (List.replicate count 0 ++ bytes))
      = run limit (inside (zeros + 1032 * count)) (.ofBytes bytes) := by
  induction count generalizing zeros with
  | zero => rfl
  | succ count ih =>
    have hle : ∀ n ∈ limit, zeros + 1032 + 1032 * count ≤ n := fun n hn => by
      have := h n hn
      omega
    rw [List.replicate_succ, List.cons_append, run_zero_byte _ fun n hn => by
      have := hle n hn
      omega, ih hle]
    congr 2
    omega

theorem run_end (hread : Token.read literalCode distanceCode r = .done .endOfBlock rest) :
    run limit (inside zeros) r
      = (.finished, ⟨.finished, .nothing, Array.replicate zeros 0⟩, rest) := by
  rw [inside, run_endOfBlock limit _ hread]
  exact run_finished _ _ _

end Steps

/-- A block of zeros, of which each byte behind its beginning but the last is four copies. -/
def stream (count : Nat) : List UInt8 := head ++ (List.replicate count 0 ++ [0xC0])

theorem run_stream {limit : Option Nat} {count : Nat} (h : ∀ n ∈ limit, 3 + 1032 * count ≤ n) :
    run limit .start (.ofBytes (stream count))
      = run limit (inside (3 + 1032 * count)) (.ofBytes [0xC0]) := by
  have hread := Block.sequential_read.done_append read_head (List.replicate count 0 ++ [0xC0])
  have hle : ∀ size, size ≤ 3 → ∀ n ∈ limit, size ≤ n := fun size hle n hn => by
    have := h n hn
    omega
  rw [stream, ← BitReader.ofBytes_append]
  refine (run_block limit _ hread).trans ?_
  refine Eq.trans ?_ (run_zero_bytes count [0xC0] h)
  change run limit (inside 0) _ = _
  rw [run_literal_zero rfl (hle _ (by decide)), run_literal_zero rfl (hle _ (by decide)),
    run_literal_zero rfl (hle _ (by decide))]
  rfl

/-- What the stream inflates to. -/
theorem inflate_stream (count : Nat) :
    inflate (stream count) = .complete (List.replicate (777 + 1032 * count) 0) [] := by
  have hrun : run none .start (.ofBytes (stream count)) = (.finished,
      ⟨.finished, .nothing, Array.replicate (777 + 1032 * count) 0⟩, .ofBytes []) := by
    have hsize : 3 + 1032 * count + 258 + 258 + 258 = 777 + 1032 * count := by omega
    rw [run_stream (by simp), run_copy_zeros rfl (by simp), run_copy_zeros rfl (by simp),
      run_copy_zeros rfl (by simp), run_end rfl, hsize]
    rfl
  exact inflate_eq_complete.2 ⟨_, _, hrun, by simp, rfl⟩

/-- Where the output ends within the last copy, every byte of the stream is taken. -/
theorem run_stream_full {count n : Nat} (hle : 519 + 1032 * count ≤ n)
    (hlt : n < 777 + 1032 * count) :
    ∃ s, run (some n) .start (.ofBytes (stream count)) = (.full, s, ⟨[true, true], []⟩) := by
  have hroom : ∀ size, size ≤ 519 + 1032 * count → ∀ m ∈ some n, size ≤ m := by
    intro size hsize m hm
    have := Option.mem_some_iff.1 hm
    omega
  have hrun : run (some n) .start (.ofBytes (stream count))
      = run (some n) (copying (519 + 1032 * count)) ⟨[true, true], []⟩ := by
    have hsize : 3 + 1032 * count + 258 + 258 = 519 + 1032 * count := by omega
    rw [run_stream (hroom _ (by omega)), run_copy_zeros rfl (hroom _ (by omega)),
      run_copy_zeros rfl (hroom _ (by omega)), run_copying rfl, hsize]
    rfl
  refine ⟨_, hrun.trans (run_copy_full _ _ _ ?_ ?_)⟩
  · rwa [Array.size_replicate]
  · rw [Array.size_replicate]
    omega

end Squeezed

end Carving.Deflate
