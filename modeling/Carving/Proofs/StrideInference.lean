import Carving.Proofs.FirstMode
import Carving.Proofs.MarkerSearch

/-!
# Inferring the stride

Two occurrences follow each other if there is none between them. The gaps between the occurrences
that a search lists are the distances of those that do (`exists_follows`), so that a stride is never
zero and fits into the data. On a source that serves its data the stride is the most frequent of
them, unless there are too few occurrences for any (`inferStride_exact`).
-/

namespace Carving

section Gap

variable {pattern data : List UInt8} {gap i j : Nat}

theorem OccursAt.add_length_le (h : OccursAt pattern data i) :
    i + pattern.length ≤ data.length := by
  have hstart := h.lt_length
  have hlength := h.2.length_le
  rw [List.length_drop] at hlength
  omega

/-- Two occurrences with none between them. -/
structure Follows (pattern data : List UInt8) (i j : Nat) : Prop where
  first : OccursAt pattern data i
  second : OccursAt pattern data j
  lt : i < j
  between : ∀ k, i < k → k < j → ¬OccursAt pattern data k

theorem Follows.sub_le (h : Follows pattern data i j) : j - i ≤ data.length - pattern.length := by
  have := h.second.add_length_le
  omega

/-- Each gap is the distance of two occurrences that follow each other. -/
theorem exists_follows (h : gap ∈ gaps (occurrences pattern data)) :
    ∃ i j, Follows pattern data i j ∧ gap = j - i := by
  obtain ⟨before, i, j, behind, hlist, rfl⟩ := exists_of_mem_gaps h
  have hmem (k : Nat) : OccursAt pattern data k ↔ k ∈ before ++ i :: j :: behind :=
    hlist ▸ mem_occurrences.symm
  have hascend := pairwise_occurrences pattern data
  rw [hlist, List.pairwise_append, List.pairwise_cons, List.pairwise_cons] at hascend
  obtain ⟨-, ⟨hi, hj, -⟩, hbefore⟩ := hascend
  refine ⟨i, j, ⟨(hmem i).2 (by simp), (hmem j).2 (by simp), hi j (by simp), ?_⟩, rfl⟩
  -- What is listed besides these two comes before the first or behind the second.
  intro k hik hkj hk
  rcases List.mem_append.1 ((hmem k).1 hk) with hk | hk
  · have := hbefore k hk i (by simp)
    omega
  · simp only [List.mem_cons] at hk
    obtain rfl | rfl | hk := hk
    · omega
    · omega
    · have := hj k hk
      omega

theorem gap_le (h : gap ∈ gaps (occurrences pattern data)) :
    gap ≤ data.length - pattern.length := by
  obtain ⟨i, j, hfollows, rfl⟩ := exists_follows h
  exact hfollows.sub_le

end Gap

section Stride

variable {s : Source} {data : List UInt8} {position : Nat}

/-- A stride is inferred from the occurrences in the data alone. -/
theorem Source.Serves.inferStride (hs : s.Serves data position) (marker : List UInt8) :
    ∃ s' p, s'.Serves data p ∧ inferStride marker s
      = match mode (gaps (occurrences marker data)) with
        | some stride => .ok stride s'
        | none => .error .strideNotFound s' := by
  obtain ⟨s', p, hfound, hs'⟩ := hs.findAll marker
  refine ⟨s', p, hs', ?_⟩
  have htally : tally (Arithmetic.add · 1) (gaps (occurrences marker data))
      = .ok (tally (m := Id) (· + 1) (gaps (occurrences marker data))) := tally_eq fun _ _ => rfl
  rw [Carving.inferStride, bind_of_ok hfound, htally, mode]
  dsimp only
  rcases mostFrequent _ with _ | ⟨stride, count⟩ <;> rfl

/-- A list has a mode unless it is empty, and that is the one of its most frequent values that
occurs first. On any source that serves its data, there is no stride exactly if the marker occurs
less than twice. Otherwise the stride is the mode of the distances between occurrences that follow
each other: it is one of these distances, at least one, and leaves room for a marker in the data. -/
theorem inferStride_exact (hs : s.Serves data position) (marker : List UInt8) :
    let offsets := occurrences marker data
    (∀ values, (mode values = none ↔ values = [])
      ∧ ∀ value, mode values = some value ↔ IsFirstMode values value)
    ∧ (offsets.Pairwise (· < ·) ∧ ∀ i, i ∈ offsets ↔ OccursAt marker data i)
    ∧ ((∃ s', inferStride marker s = .error .strideNotFound s') ↔ offsets.length < 2)
    ∧ (2 ≤ offsets.length →
      ∃ stride s', inferStride marker s = .ok stride s' ∧ mode (gaps offsets) = some stride
        ∧ 1 ≤ stride ∧ (∃ i j, Follows marker data i j ∧ stride = j - i)
        ∧ stride ≤ data.length - marker.length) := by
  intro offsets
  refine ⟨fun values => ⟨mode_eq_none_iff, fun value => mode_eq_some_iff⟩,
    ⟨pairwise_occurrences _ _, fun _ => mem_occurrences⟩, ?_⟩
  obtain ⟨s', -, -, hinfer⟩ := hs.inferStride marker
  rcases hm : mode (gaps offsets) with _ | stride
  · have hfew : offsets.length < 2 := mode_gaps_eq_none_iff.1 hm
    rw [show mode (gaps (occurrences marker data)) = none from hm] at hinfer
    exact ⟨⟨fun _ => hfew, fun _ => ⟨s', hinfer⟩⟩, fun hmany => absurd hfew (Nat.not_lt.2 hmany)⟩
  · have hmany : ¬offsets.length < 2 := fun hfew => by
      rw [mode_gaps_eq_none_iff.2 hfew] at hm
      cases hm
    rw [show mode (gaps (occurrences marker data)) = some stride from hm] at hinfer
    have hmem : stride ∈ gaps offsets := (isFirstMode_of_mode hm).mem
    refine ⟨⟨fun ⟨s'', hfailed⟩ => ?_, fun hfew => absurd hfew hmany⟩, fun _ => ?_⟩
    · cases hinfer.symm.trans hfailed
    · exact ⟨stride, s', hinfer, rfl, pos_of_mem_gaps (pairwise_occurrences _ _) hmem,
        exists_follows hmem, gap_le hmem⟩

/-- Two distances occur twice each, and the longer one occurs first. -/
theorem inferStride_exact_tie :
    let data : List UInt8 := [1, 0, 0, 1, 0, 1, 0, 1, 0, 0, 1]
    (Source.hesitant data).Serves data 0
      ∧ gaps (occurrences [1] data) = [3, 2, 2, 3]
      ∧ ∃ s', inferStride [1] (Source.hesitant data) = .ok 3 s' := by
  intro data
  have hs : (Source.hesitant data).Serves data 0 := Source.serves_hesitant data
  have hoffsets : occurrences [1] data = [0, 3, 5, 7, 10] := by decide +kernel
  obtain ⟨-, -, -, hinfer⟩ := inferStride_exact hs [1]
  rw [hoffsets] at hinfer ⊢
  obtain ⟨stride, s', hstride, hmode, -⟩ := hinfer (by decide)
  obtain rfl : 3 = stride := Option.some.inj ((by decide : mode (gaps _) = some 3).symm.trans hmode)
  exact ⟨hs, rfl, s', hstride⟩

end Stride

end Carving
