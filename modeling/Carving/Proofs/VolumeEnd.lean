import Carving.Proofs.Outcome

/-!
# Where the boot sector of a volume says that it ends

The size of a volume and its end are computed with sums and a product that stay at the greatest
number of 64 bits where they would exceed it. On data that end before that number this decides the
same as the numbers themselves (`volume_exact`): what stays there lies behind the data, and is no
more zero than the product that it stands for.
-/

namespace Carving.Ntfs

open Layout (numberAt)

theorem saturatingMul_eq_zero {a b : Nat} : saturatingMul a b = 0 ↔ a * b = 0 := by
  have hgreatest : 0 < greatest := by decide
  simp only [saturatingMul]
  omega

/-- To stay at the greatest number on the way is to stay there at the end. -/
theorem saturatingAdd_saturatingMul (a b m n : Nat) :
    saturatingAdd (saturatingAdd a b) (saturatingMul m n) = min (a + b + m * n) greatest := by
  simp only [saturatingAdd, saturatingMul]
  omega

section Outcome

variable {data : List UInt8} {start : Nat}

theorem volumeSize_take_drop (data : List UInt8) (start : Nat) :
    volumeSize ((data.drop start).take bootSector.size)
      = saturatingMul (numberAt .little data (start + 40) 8)
        (numberAt .little data (start + 11) 2) := by
  rw [volumeSize, Layout.numberAt_take_drop _ _ _ (by decide),
    Layout.numberAt_take_drop _ _ _ (by decide)]

theorem outcome_of_short (h : data.length < start + 512) : outcome data start
    = .error (.truncated "ntfs_boot" start 512 (data.length - start)) := by
  have hsize : bootSector.size = 512 := by decide
  simp only [outcome, hsize]
  rw [if_pos (by omega)]
  rfl

theorem outcome_of_bootSector (h : start + 512 ≤ data.length) :
    let size := numberAt .little data (start + 40) 8 * numberAt .little data (start + 11) 2
    outcome data start = if size = 0 then .ok none
      else (Chunk.within start (min (start + 512 + size) greatest) data.length).map some := by
  have hsize : bootSector.size = 512 := by decide
  unfold outcome
  dsimp only
  rw [volumeSize_take_drop, saturatingAdd_saturatingMul, hsize, if_neg (by omega)]
  simp only [saturatingMul_eq_zero]

end Outcome

/-- On any source that serves its data, the boot sector is truncated if it does not lie within the
data. Otherwise nothing is found exactly if the product of its two numbers is zero, and a chunk
exactly if the product is not zero and the data reach to the end that it tells, which is where the
chunk ends. Everything else is no chunk, and named with that end or with the greatest number if the
end is greater. -/
theorem volume_exact {session : Session} {data : List UInt8} {position : Nat}
    (h : session.source.Serves data position) (hd : data.length < capacity 8 - 1) (start : Nat) :
    let answer := (boundary start).answer session
    let size := numberAt .little data (start + 40) 8 * numberAt .little data (start + 11) 2
    (data.length < start + 512 →
      answer = .error (.truncated "ntfs_boot" start 512 (data.length - start)))
    ∧ (start + 512 ≤ data.length →
      (answer = .ok none ↔ size = 0)
      ∧ ((∃ c, answer = .ok (some c)) ↔ 0 < size ∧ start + 512 + size ≤ data.length)
      ∧ (∀ c, answer = .ok (some c) → c.start = start ∧ c.stop = start + 512 + size)
      ∧ (0 < size → data.length < start + 512 + size →
        answer = .error (.invalidChunk start (min (start + 512 + size) (capacity 8 - 1))
          data.length))) := by
  intro answer size
  have hanswer : answer = outcome data start := answer_boundary h start
  rw [hanswer]
  refine ⟨outcome_of_short, fun hlong => ?_⟩
  have houtcome : outcome data start = if size = 0 then .ok none
      else (Chunk.within start (min (start + 512 + size) (capacity 8 - 1)) data.length).map some :=
    outcome_of_bootSector hlong
  rcases Nat.eq_zero_or_pos size with hempty | hpos
  · simp [houtcome, hempty]
  rw [if_neg (Nat.ne_of_gt hpos)] at houtcome
  generalize capacity 8 - 1 = most at hd houtcome ⊢
  -- The end stays at the greatest number only if it lies behind the data as well.
  rcases Nat.lt_or_ge data.length (start + 512 + size) with hbehind | hwithin
  · rw [map_within_of_out (by omega)] at houtcome
    rw [houtcome]
    exact ⟨by simp; omega, by simp; omega, by simp, fun _ _ => rfl⟩
  · rw [Nat.min_eq_left (by omega), map_within_of_le (by omega) hwithin] at houtcome
    rw [houtcome]
    refine ⟨by simp; omega, by simp [hpos, hwithin], fun c hc => ?_, by omega⟩
    cases hc
    exact ⟨rfl, rfl⟩

/-- The product of the two numbers needs 80 bits, so that the end stays at the greatest number. -/
theorem volume_exact_greatest :
    let data : List UInt8 := [0x77] ++ List.replicate 11 0 ++ [0xFF, 0xFF] ++ List.replicate 27 0
      ++ List.replicate 8 0xFF ++ List.replicate 464 0
    (Session.ofSource (.hesitant data)).source.Serves data 0 ∧ data.length < capacity 8 - 1
      ∧ (boundary 1).answer (.ofSource (.hesitant data))
        = .error (.invalidChunk 1 (capacity 8 - 1) 513) := by
  intro data
  have hs : (Session.ofSource (.hesitant data)).source.Serves data 0 := Source.serves_hesitant data
  have hl : data.length = 513 := by decide +kernel
  have hshort : data.length < capacity 8 - 1 := by rw [hl]; decide
  have hsectors : numberAt .little data 41 8 = capacity 8 - 1 := by decide +kernel
  have hsize : numberAt .little data 12 2 = capacity 2 - 1 := by decide +kernel
  obtain ⟨-, hfound⟩ := volume_exact hs hshort 1
  obtain ⟨-, -, -, hinvalid⟩ := hfound (Nat.le_of_eq hl.symm)
  simp only [hsectors, hsize, hl] at hinvalid
  exact ⟨hs, hshort, hinvalid (by decide) (by decide)⟩

end Carving.Ntfs
