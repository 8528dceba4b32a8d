import Carving.Proofs.CheckValue
import Mathlib.Algebra.CharP.Two
import Mathlib.Algebra.Field.ZMod
import Mathlib.Algebra.Polynomial.Div
import Mathlib.Tactic.ComputeDegree
import Mathlib.Tactic.LinearCombination

/-!
# The check value as a remainder

Bits are the coefficients of a polynomial over the field of two elements, the bit that is sent first
that of the highest power. The register holds the remainder of what was fed into it, behind what it
held at first, by the generator polynomial (`ofRegister_feedAll`). So the check value of some bytes
is the one number that the standard says it is (`eq_crc32_iff`).
-/

namespace Carving

open Polynomial

namespace Crc32

/-- The polynomial of so many bits, of which the first stands for the highest power. -/
noncomputable def ofBits : Nat → (Nat → Bool) → (ZMod 2)[X]
  | 0, _ => 0
  | width + 1, bit => ofBits width bit * X + if bit width then 1 else 0

noncomputable def ofRegister (c : UInt32) : (ZMod 2)[X] := ofBits 32 c.toBitVec.getLsbD

noncomputable def ofByte (b : UInt8) : (ZMod 2)[X] := ofBits 8 b.toBitVec.getLsbD

/-- The polynomial of a message, whose first byte stands for the highest powers. -/
noncomputable def ofBytes (bytes : List UInt8) : (ZMod 2)[X] :=
  bytes.foldl (fun p b => p * X ^ 8 + ofByte b) 0

noncomputable def generator : (ZMod 2)[X] :=
  X ^ 32 + X ^ 26 + X ^ 23 + X ^ 22 + X ^ 16 + X ^ 12 + X ^ 11 + X ^ 10 + X ^ 8 + X ^ 7 + X ^ 5
    + X ^ 4 + X ^ 2 + X + 1

section Bits

variable {width : Nat} {bit bit' : Nat → Bool}

theorem ofBits_congr (h : ∀ i < width, bit i = bit' i) : ofBits width bit = ofBits width bit' := by
  induction width with
  | zero => rfl
  | succ width ih =>
    rw [ofBits, ofBits, ih fun i hi => h i (Nat.lt_succ_of_lt hi), h width (Nat.lt_succ_self _)]

theorem ofBits_xor (width : Nat) (bit bit' : Nat → Bool) :
    ofBits width (fun i => bit i ^^ bit' i) = ofBits width bit + ofBits width bit' := by
  induction width with
  | zero => simp [ofBits]
  | succ width ih =>
    have hbit : (if (bit width ^^ bit' width) then 1 else 0 : (ZMod 2)[X])
        = (if bit width then 1 else 0) + if bit' width then 1 else 0 := by
      cases bit width <;> cases bit' width <;> simp [CharTwo.add_self_eq_zero]
    rw [ofBits, ofBits, ofBits, ih, hbit]
    ring

theorem ofBits_and (width : Nat) (b : Bool) (bit : Nat → Bool) :
    ofBits width (fun i => b && bit i) = (if b then 1 else 0) * ofBits width bit := by
  cases b with
  | true => simp
  | false =>
    induction width with
    | zero => simp [ofBits]
    | succ width ih => simpa [ofBits] using ih

/-- The first bit stands for the highest power. -/
theorem ofBits_succ (width : Nat) (bit : Nat → Bool) : ofBits (width + 1) bit
    = (if bit 0 then 1 else 0) * X ^ width + ofBits width fun i => bit (1 + i) := by
  induction width with
  | zero => simp [ofBits]
  | succ width ih =>
    rw [ofBits, ih, ofBits, Nat.add_comm 1 width]
    ring

/-- Bits that are not set at the end stand for a factor. -/
theorem ofBits_add (more : Nat) (h : ∀ i, width ≤ i → bit i = false) :
    ofBits (width + more) bit = ofBits width bit * X ^ more := by
  induction more with
  | zero => simp
  | succ more ih =>
    rw [← Nat.add_assoc, ofBits, ih, h _ (Nat.le_add_right _ _), pow_succ]
    simp [mul_assoc]

theorem degree_ofBits_lt (width : Nat) (bit : Nat → Bool) :
    (ofBits width bit).degree < width := by
  induction width generalizing bit with
  | zero => simp [ofBits]
  | succ width ih =>
    have hfirst : ((if bit 0 then 1 else 0) * X ^ width : (ZMod 2)[X]).degree ≤ width := by
      split <;> simp
    have hlt : (width : WithBot Nat) < (width + 1 : Nat) := by exact_mod_cast Nat.lt_succ_self width
    rw [ofBits_succ]
    exact (degree_add_le _ _).trans_lt (max_lt (hfirst.trans_lt hlt) ((ih _).trans hlt))

theorem coeff_ofBits {i : Nat} (h : i < width) :
    (ofBits width bit).coeff (width - 1 - i) = if bit i then 1 else 0 := by
  induction width with
  | zero => omega
  | succ width ih =>
    rw [ofBits, coeff_add]
    rcases Nat.lt_succ_iff_lt_or_eq.1 h with hlt | rfl
    · obtain ⟨k, hk⟩ : ∃ k, width + 1 - 1 - i = k + 1 := ⟨width - 1 - i, by omega⟩
      have hbefore : width - 1 - i = k := by omega
      rw [hk, coeff_mul_X, ← hbefore, ih hlt]
      split <;> split <;> simp [coeff_one]
    · rw [show i + 1 - 1 - i = 0 by omega, mul_coeff_zero, coeff_X_zero, mul_zero, zero_add]
      split <;> simp

end Bits

/-- A register is known by its polynomial. -/
theorem ofRegister_injective {c d : UInt32} (h : ofRegister c = ofRegister d) : c = d := by
  refine UInt32.toBitVec_inj.1 (BitVec.eq_of_getLsbD_eq fun i hi => ?_)
  have hbit := congrArg (coeff · (32 - 1 - i)) h
  simp only [ofRegister, coeff_ofBits hi] at hbit
  by_cases hc : c.toBitVec.getLsbD i <;> by_cases hd : d.toBitVec.getLsbD i <;> simp_all

theorem ofRegister_xor (c d : UInt32) :
    ofRegister (c ^^^ d) = ofRegister c + ofRegister d := by
  rw [ofRegister, ofRegister, ofRegister, ← ofBits_xor]
  exact ofBits_congr fun i _ => by rw [UInt32.toBitVec_xor, BitVec.getLsbD_xor]

theorem ofRegister_byte (b : UInt8) : ofRegister b.toUInt32 = ofByte b * X ^ 24 := by
  have hbits : ∀ i, b.toUInt32.toBitVec.getLsbD i = b.toBitVec.getLsbD i := fun i => by
    rw [UInt8.toBitVec_toUInt32, BitVec.getLsbD_setWidth]
    by_cases hi : i < 32
    · simp [hi]
    · simp [BitVec.getLsbD_of_ge _ i (show 8 ≤ i by omega)]
  rw [ofRegister, ofByte, ← ofBits_add 24 fun i hi => BitVec.getLsbD_of_ge _ i hi]
  exact ofBits_congr fun i _ => hbits i

/-- The register holds the generator without its highest power. -/
theorem generator_eq : generator = X ^ 32 + ofRegister polynomial := by
  have hbits : ∀ i < 32, polynomial.toBitVec.getLsbD i
      = decide (31 - i ∈ [26, 23, 22, 16, 12, 11, 10, 8, 7, 5, 4, 2, 1, 0]) := by
    decide
  rw [ofRegister, ofBits_congr hbits, generator]
  simp [ofBits]
  ring

theorem monic_generator : generator.Monic := by
  rw [generator_eq]
  exact monic_X_pow_add (degree_ofBits_lt 32 _)

theorem degree_ofRegister_lt (c : UInt32) : (ofRegister c).degree < generator.degree := by
  have hdegree : generator.degree = 32 := by
    rw [generator_eq, degree_add_eq_left_of_degree_lt, degree_X_pow]
    · rfl
    · rw [degree_X_pow]
      exact degree_ofBits_lt 32 _
  rw [hdegree]
  exact degree_ofBits_lt 32 _

/-- A shift multiplies by the unknown, and takes the generator away where its highest power comes
up. -/
theorem ofRegister_shift (c : UInt32) : ofRegister (shift c)
    = ofRegister c * X + generator * if c.toBitVec.getLsbD 0 then 1 else 0 := by
  have hnone : c.toBitVec.getLsbD 32 = false := BitVec.getLsbD_of_ge _ _ (Nat.le_refl 32)
  have hshift : ofRegister (shift c) = ofBits 32 (fun i => c.toBitVec.getLsbD (1 + i))
      + (if c.toBitVec.getLsbD 0 then 1 else 0) * ofRegister polynomial := by
    rw [ofRegister, ofRegister, ← ofBits_and, ← ofBits_xor]
    exact ofBits_congr fun i _ => getLsbD_shift c i
  have hrest : ofBits 32 (fun i => c.toBitVec.getLsbD (1 + i))
      = ofBits 31 (fun i => c.toBitVec.getLsbD (1 + i)) * X := by
    rw [ofBits, hnone]
    simp
  have hfirst : ofRegister c = (if c.toBitVec.getLsbD 0 then 1 else 0) * X ^ 31
      + ofBits 31 fun i => c.toBitVec.getLsbD (1 + i) := ofBits_succ 31 _
  rw [hshift, hrest, hfirst, generator_eq]
  generalize (if c.toBitVec.getLsbD 0 then 1 else 0 : (ZMod 2)[X]) = b
  have htwice : b * X ^ 32 + b * X ^ 32 = 0 := CharTwo.add_self_eq_zero _
  linear_combination -htwice

theorem ofRegister_shifts (c : UInt32) (count : Nat) : ∃ q, ofRegister (shift^[count] c)
    = ofRegister c * X ^ count + generator * q := by
  induction count with
  | zero => exact ⟨0, by simp⟩
  | succ count ih =>
    obtain ⟨q, hq⟩ := ih
    rw [Function.iterate_succ_apply', ofRegister_shift, hq]
    exact ⟨q * X + if (shift^[count] c).toBitVec.getLsbD 0 then 1 else 0, by ring⟩

/-- What is fed into the register comes behind what it holds. -/
theorem ofRegister_feed (c : UInt32) (b : UInt8) : ∃ q, ofRegister (feed c b)
    = ofRegister c * X ^ 8 + ofByte b * X ^ 32 + generator * q := by
  obtain ⟨q, hq⟩ := ofRegister_shifts (c ^^^ b.toUInt32) 8
  refine ⟨q, ?_⟩
  change ofRegister (shift^[8] (c ^^^ b.toUInt32)) = _
  rw [hq, ofRegister_xor, ofRegister_byte]
  ring

theorem ofBytes_concat (bytes : List UInt8) (b : UInt8) :
    ofBytes (bytes ++ [b]) = ofBytes bytes * X ^ 8 + ofByte b := List.foldl_concat ..

/-- The register holds the remainder of what it held at first, followed by the message. -/
theorem ofRegister_feedAll (c : UInt32) (bytes : List UInt8) : ofRegister (feedAll c bytes)
    = (ofRegister c * X ^ (8 * bytes.length) + ofBytes bytes * X ^ 32) %ₘ generator := by
  have hfed : ∃ q, ofRegister (feedAll c bytes)
      = ofRegister c * X ^ (8 * bytes.length) + ofBytes bytes * X ^ 32 + generator * q := by
    induction bytes using List.reverseRecOn with
    | nil => exact ⟨0, by simp [feedAll, ofBytes]⟩
    | append_singleton bytes b ih =>
      obtain ⟨q, hq⟩ := ih
      obtain ⟨q', hq'⟩ := ofRegister_feed (feedAll c bytes) b
      refine ⟨q * X ^ 8 + q', ?_⟩
      rw [feedAll_append, ofBytes_concat, List.length_append, List.length_singleton]
      change ofRegister (feed (feedAll c bytes) b) = _
      rw [hq', hq]
      ring
  obtain ⟨q, hq⟩ := hfed
  have hsum : ofRegister (feedAll c bytes) + generator * -q
      = ofRegister c * X ^ (8 * bytes.length) + ofBytes bytes * X ^ 32 := by
    rw [hq]
    ring
  exact ((div_modByMonic_unique _ _ monic_generator ⟨hsum, degree_ofRegister_lt _⟩).2).symm

end Crc32

/-- The check value of some bytes is the number whose complement is the remainder, by the generator
polynomial, of the message behind 32 set bits and in front of 32 more places. -/
theorem eq_crc32_iff (bytes : List UInt8) (value : UInt32) : value = crc32 bytes
    ↔ Crc32.ofRegister (Crc32.close value) = (Crc32.ofRegister Crc32.start
      * X ^ (8 * bytes.length) + Crc32.ofBytes bytes * X ^ 32) %ₘ Crc32.generator := by
  have hclose : ∀ c, Crc32.close (Crc32.close c) = c := fun c => by
    rw [Crc32.close, Crc32.close, UInt32.xor_assoc, UInt32.xor_self, UInt32.xor_zero]
  rw [← Crc32.ofRegister_feedAll, crc32]
  constructor
  · rintro rfl
    rw [hclose]
  · intro h
    rw [← Crc32.ofRegister_injective h, hclose]

end Carving
