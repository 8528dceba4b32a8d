import Carving.Checksum.Crc32

/-!
# What the check value tells apart

The bit that leaves the register comes back as its highest bit, since the generator polynomial has
that bit. So no two registers are shifted to one (`shift_injective`), and bytes that differ in a
single place have different check values, however many bytes stand before and behind it
(`crc32_ne_of_ne`).
-/

namespace Carving.Crc32

theorem and_one_eq (c : UInt32) : (c &&& 1 == 1) = c.toBitVec.getLsbD 0 := by
  have hmod : (c &&& 1).toNat = c.toNat % 2 := (UInt32.toNat_and _ _).trans (Nat.and_one_is_mod _)
  have hbit : c.toBitVec.getLsbD 0 = decide (c.toNat % 2 = 1) := Nat.testBit_zero _
  rw [hbit, Bool.eq_iff_iff, beq_iff_eq, ← UInt32.toNat_inj, hmod, decide_eq_true_eq]
  exact Iff.rfl

theorem getLsbD_shift (c : UInt32) (i : Nat) : (shift c).toBitVec.getLsbD i
    = (c.toBitVec.getLsbD (1 + i) ^^ (c.toBitVec.getLsbD 0 && polynomial.toBitVec.getLsbD i)) := by
  unfold shift
  rw [and_one_eq]
  cases c.toBitVec.getLsbD 0 <;> simp [BitVec.getLsbD_xor, BitVec.getLsbD_ushiftRight]

/-- The bit that leaves is the highest bit behind the shift. -/
theorem getLsbD_shift_last (c : UInt32) :
    (shift c).toBitVec.getLsbD 31 = c.toBitVec.getLsbD 0 := by
  have htop : polynomial.toBitVec.getLsbD 31 = true := by decide
  rw [getLsbD_shift, BitVec.getLsbD_of_ge _ _ (Nat.le_refl 32), htop, Bool.and_true,
    Bool.false_xor]

theorem shift_injective {c d : UInt32} (h : shift c = shift d) : c = d := by
  have hlow : c.toBitVec.getLsbD 0 = d.toBitVec.getLsbD 0 := by
    rw [← getLsbD_shift_last, h, getLsbD_shift_last]
  refine UInt32.toBitVec_inj.1 (BitVec.eq_of_getLsbD_eq fun i hi => ?_)
  rcases i with _ | i
  · exact hlow
  · have hi := congrArg (fun x => x.toBitVec.getLsbD i) h
    simp only [getLsbD_shift, hlow] at hi
    rw [Nat.add_comm]
    exact Bool.xor_left_inj.1 hi

theorem feed_injective {c d : UInt32} {a b : UInt8} (h : feed c a = feed d b) :
    c ^^^ a.toUInt32 = d ^^^ b.toUInt32 := by
  unfold feed at h
  iterate 8 replace h := shift_injective h
  exact h

/-- Feeding the same bytes keeps registers apart. -/
theorem feedAll_injective {c d : UInt32} {bytes : List UInt8}
    (h : feedAll c bytes = feedAll d bytes) : c = d := by
  induction bytes generalizing c d with
  | nil => exact h
  | cons b bytes ih => exact (UInt32.xor_left_inj _).1 (feed_injective (ih h))

end Carving.Crc32

namespace Carving

/-- Bytes that differ in one place only have different check values. -/
theorem crc32_ne_of_ne (before behind : List UInt8) {a b : UInt8} (h : a ≠ b) :
    crc32 (before ++ a :: behind) ≠ crc32 (before ++ b :: behind) := by
  intro he
  have hfed := (UInt32.xor_left_inj _).1 he
  rw [Crc32.feedAll_append, Crc32.feedAll_append] at hfed
  have hbyte := Crc32.feed_injective (Crc32.feedAll_injective hfed)
  have htoNat := congrArg UInt32.toNat ((UInt32.xor_right_inj _).1 hbyte)
  exact h (UInt8.toNat_inj.1 (by simpa using htoNat))

end Carving
