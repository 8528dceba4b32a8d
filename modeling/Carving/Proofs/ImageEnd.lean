import Carving.Proofs.FirstMode
import Carving.Proofs.Outcome

/-!
# Where the blocks of an image end

The size of a block is the most frequent distance between markers, and never zero, so that the walk
along the blocks comes to an offset without a marker (`walkIn_spec`). On a source that serves its
data the chunk of an image ends there, or at the end of the data (`image_exact`).
-/

namespace Carving.Ubi

section Walk

variable {data : List UInt8} {offset : Nat}

theorem occursAt_marker_iff :
    OccursAt marker data offset ↔ (data.drop offset).take marker.length = marker := by
  rw [OccursAt, List.prefix_iff_eq_take, eq_comm (a := marker)]
  exact and_iff_right (by decide)

/-- The walk leaves the markers at the first of its offsets that has none. -/
theorem walkIn_spec (data : List UInt8) {stride : Nat} (hs : stride ≠ 0) (offset : Nat) :
    ∃ count, walkIn data stride offset = offset + count * stride
      ∧ ¬OccursAt marker data (offset + count * stride)
      ∧ ∀ k < count, OccursAt marker data (offset + k * stride) := by
  fun_induction walkIn data stride offset with
  | case1 offset h ih =>
    obtain ⟨count, h1, h2, h3⟩ := ih
    have hnext : ∀ k, offset + stride + k * stride = offset + (k + 1) * stride := fun k => by
      rw [Nat.succ_mul]
      omega
    simp only [hnext] at h1 h2 h3
    refine ⟨count + 1, h1, h2, fun k hk => ?_⟩
    rcases k with _ | k
    · rw [Nat.zero_mul, Nat.add_zero]
      exact occursAt_marker_iff.2 h.1
    · exact h3 k (by omega)
  | case2 offset h =>
    refine ⟨0, by rw [Nat.zero_mul, Nat.add_zero], ?_, nofun⟩
    rw [Nat.zero_mul, Nat.add_zero]
    exact fun ho => h ⟨occursAt_marker_iff.1 ho, hs⟩

end Walk

section Image

variable {data : List UInt8} {start : Nat}

theorem stride_pos {stride : Nat} (h : IsFirstMode (gaps (occurrences marker data)) stride) :
    0 < stride :=
  pos_of_mem_gaps (pairwise_occurrences _ _) h.mem

/-- Nothing is found where no two markers tell a stride, or where no marker stands. -/
theorem outcome_eq_none
    (h : (occurrences marker data).length < 2 ∨ ¬OccursAt marker data start) :
    outcome data start = .ok none := by
  unfold outcome
  rcases hm : mode (gaps (occurrences marker data)) with _ | stride
  · rfl
  have hmode := isFirstMode_of_mode hm
  have hno : ¬OccursAt marker data start := h.resolve_left fun hlt => by
    rw [mode_gaps_eq_none_iff.2 hlt] at hm
    cases hm
  obtain ⟨count, h1, -, h3⟩ := walkIn_spec data (Nat.ne_of_gt (stride_pos hmode)) start
  have hcount : count = 0 := by
    refine Nat.eq_zero_of_not_pos fun hpos => hno ?_
    have := h3 0 hpos
    rwa [Nat.zero_mul, Nat.add_zero] at this
  rw [hcount, Nat.zero_mul, Nat.add_zero] at h1
  dsimp only
  rw [h1, if_pos (Nat.min_le_left _ _)]

/-- From a marker on, the image takes up one block for every marker of the walk. -/
theorem outcome_eq_some (hl : 2 ≤ (occurrences marker data).length)
    (ho : OccursAt marker data start) :
    ∃ stride count c, IsFirstMode (gaps (occurrences marker data)) stride ∧ 1 ≤ stride
      ∧ 1 ≤ count ∧ ¬OccursAt marker data (start + count * stride)
      ∧ (∀ k < count, OccursAt marker data (start + k * stride))
      ∧ outcome data start = .ok (some c) ∧ c.start = start
      ∧ c.stop = min data.length (start + count * stride) := by
  unfold outcome
  rcases hm : mode (gaps (occurrences marker data)) with _ | stride
  · have := mode_gaps_eq_none_iff.1 hm
    omega
  have hmode := isFirstMode_of_mode hm
  have hpos := stride_pos hmode
  obtain ⟨count, h1, h2, h3⟩ := walkIn_spec data (Nat.ne_of_gt hpos) start
  have hcount : 1 ≤ count := by
    refine Nat.one_le_iff_ne_zero.2 fun h0 => h2 ?_
    rwa [h0, Nat.zero_mul, Nat.add_zero]
  have hstart := ho.lt_length
  have hsize : stride ≤ count * stride := Nat.le_mul_of_pos_left stride hcount
  have hlt : start < min (start + count * stride) data.length := by omega
  dsimp only
  rw [h1, if_neg (by omega)]
  refine ⟨stride, count, ⟨start, _, hlt⟩, hmode, hpos, hcount, h2, h3, ?_, rfl, Nat.min_comm _ _⟩
  rw [Chunk.within_of_le hlt (Nat.min_le_right _ _)]
  rfl

end Image

/-- On any source that serves its data, the calculation answers without an error. It finds nothing
if the marker occurs less than twice or not at `start`. Otherwise the block size is the most
frequent distance between markers that follow each other, the first of several, which is not zero,
and the chunk ends before the first block from `start` on that has no marker, or where the data
end. -/
theorem image_exact {session : Session} {data : List UInt8} {position : Nat}
    (h : session.source.Serves data position) (start : Nat) :
    let offsets := occurrences marker data
    (offsets.Pairwise (· < ·) ∧ ∀ i, i ∈ offsets ↔ OccursAt marker data i)
    ∧ (offsets.length < 2 ∨ ¬OccursAt marker data start →
        (boundary start).answer session = .ok none)
    ∧ (2 ≤ offsets.length → OccursAt marker data start →
        ∃ stride count c, IsFirstMode (gaps offsets) stride ∧ 1 ≤ stride
          ∧ 1 ≤ count ∧ ¬OccursAt marker data (start + count * stride)
          ∧ (∀ k < count, OccursAt marker data (start + k * stride))
          ∧ (boundary start).answer session = .ok (some c) ∧ c.start = start
          ∧ c.stop = min data.length (start + count * stride)) := by
  intro offsets
  rw [answer_boundary h]
  exact ⟨⟨pairwise_occurrences _ _, fun _ => mem_occurrences⟩, outcome_eq_none, outcome_eq_some⟩

/-- Three blocks of five bytes, the last of which the data cut off. -/
theorem image_exact_truncated :
    let data : List UInt8 := 0x77 :: marker ++ 1 :: marker ++ 1 :: marker
    (Session.ofSource (.hesitant data)).source.Serves data 0
      ∧ occurrences marker data = [1, 6, 11] ∧ OccursAt marker data 1
      ∧ ∃ c, (boundary 1).answer (.ofSource (.hesitant data)) = .ok (some c)
        ∧ c.start = 1 ∧ c.stop = 15 := by
  intro data
  have hs : (Session.ofSource (.hesitant data)).source.Serves data 0 := Source.serves_hesitant data
  have hoffsets : occurrences marker data = [1, 6, 11] := by decide +kernel
  obtain ⟨⟨-, hmem⟩, -, hfound⟩ := image_exact hs 1
  simp only [hoffsets] at hmem hfound
  have ho : OccursAt marker data 1 := (hmem 1).1 (by decide)
  obtain ⟨stride, count, c, hmode, -, -, hend, hwalk, hc, hstart, hstop⟩ := hfound (by decide) ho
  have hstride : stride = 5 := by simpa [gaps] using hmode.mem
  subst hstride
  simp only [← hmem, List.mem_cons, List.not_mem_nil, or_false] at hend hwalk
  have hcount : count = 3 := by
    have hle : count ≤ 3 := Nat.le_of_not_lt fun hlt => by simpa using hwalk 3 hlt
    omega
  subst hcount
  exact ⟨hs, hoffsets, ho, c, hc, hstart, hstop⟩

end Carving.Ubi
