import Carving.Bytes.Occurrence
import Carving.Proofs.Serving

/-!
# Searching in blocks finds every occurrence

Looking for a pattern again from one byte behind each occurrence misses none (`resumedFrom_eq`). A
search of a source does so in a window over the blocks that it reads, and keeps of each the last
bytes, too few for an occurrence. An occurrence therefore begins in what is dropped or in what is
kept (`occurrences_append`), and on a source that serves its data the search lists exactly the
occurrences in the data (`Serves.findAll`).
-/

namespace Carving

section Split

variable {pattern : List UInt8}

theorem occurrences_eq (hp : pattern ≠ []) (bytes : List UInt8) : occurrences pattern bytes
    = (List.range bytes.length).filter fun i => pattern.isPrefixOf (bytes.drop i) := by
  have he : pattern.isEmpty = false := by simpa using hp
  simp [occurrences, he]

theorem length_occurrences_le (pattern bytes : List UInt8) :
    (occurrences pattern bytes).length ≤ bytes.length := by
  by_cases hp : pattern = []
  · rw [hp]
    exact Nat.zero_le _
  · rw [occurrences_eq hp]
    exact Nat.le_trans (List.length_filter_le _ _) (Nat.le_of_eq List.length_range)

theorem occursAt_iff {bytes : List UInt8} {i : Nat} : OccursAt pattern bytes i
    ↔ pattern ≠ [] ∧ (bytes.drop i).take pattern.length = pattern := by
  rw [OccursAt, List.prefix_iff_eq_take, eq_comm (a := pattern) (b := List.take _ _)]

theorem isPrefixOf_append {xs ys : List UInt8} (h : pattern.length ≤ xs.length) :
    pattern.isPrefixOf (xs ++ ys) = pattern.isPrefixOf xs := by
  rw [Bool.eq_iff_iff, List.isPrefixOf_iff_prefix, List.isPrefixOf_iff_prefix]
  exact ⟨fun hpre => List.prefix_of_prefix_length_le hpre (List.prefix_append _ _) h,
    fun hpre => hpre.trans (List.prefix_append _ _)⟩

theorem isPrefixOf_of_lt {xs : List UInt8} (h : xs.length < pattern.length) :
    pattern.isPrefixOf xs = false := by
  rw [Bool.eq_false_iff, Ne, List.isPrefixOf_iff_prefix]
  intro hpre
  have := hpre.length_le
  omega

theorem occurrences_of_lt {bytes : List UInt8} (h : bytes.length < pattern.length) :
    occurrences pattern bytes = [] := by
  have hp : pattern ≠ [] := by
    rintro rfl
    cases h
  rw [occurrences_eq hp, List.filter_eq_nil_iff]
  intro i _
  rw [isPrefixOf_of_lt (by rw [List.length_drop]; omega)]
  exact Bool.false_ne_true

/-- The occurrences that begin among the first `k` bytes, and those in the bytes behind them. -/
theorem occurrences_split (hp : pattern ≠ []) {bytes : List UInt8} {k : Nat}
    (hk : k ≤ bytes.length) : occurrences pattern bytes
      = ((List.range k).filter fun i => pattern.isPrefixOf (bytes.drop i))
        ++ (occurrences pattern (bytes.drop k)).map (k + ·) := by
  rw [occurrences_eq hp, occurrences_eq hp, List.length_drop,
    show bytes.length = k + (bytes.length - k) by omega, List.range_add, List.filter_append,
    List.filter_map, Nat.add_sub_cancel_left]
  simp only [Function.comp_def, List.drop_drop]

/-- An occurrence lies within the first bytes, or begins among the last of them and what follows. -/
theorem occurrences_append (hp : pattern ≠ []) (xs ys : List UInt8) {k : Nat}
    (hk : k = xs.length - min (pattern.length - 1) xs.length) :
    occurrences pattern (xs ++ ys) = occurrences pattern xs
      ++ (occurrences pattern ((xs ++ ys).drop k)).map (k + ·) := by
  have hlen := List.length_pos_iff.2 hp
  have hle : k ≤ (xs ++ ys).length := by
    rw [List.length_append]
    omega
  rw [occurrences_split hp hle, occurrences_split hp (show k ≤ xs.length by omega),
    occurrences_of_lt (show (xs.drop k).length < pattern.length by rw [List.length_drop]; omega),
    List.map_nil, List.append_nil]
  congr 1
  refine List.filter_congr fun i hi => ?_
  have hi := List.mem_range.1 hi
  rw [List.drop_append_of_le_length (by omega)]
  exact isPrefixOf_append (by rw [List.length_drop]; omega)

/-- Where nothing occurs from an offset among the bytes in front, the occurrences are those in the
bytes behind. -/
theorem occurrences_behind (hp : pattern ≠ []) {front bytes : List UInt8}
    (h : ∀ i < front.length, ¬OccursAt pattern (front ++ bytes) i) :
    occurrences pattern (front ++ bytes) = (occurrences pattern bytes).map (front.length + ·) := by
  have hle : front.length ≤ (front ++ bytes).length := by
    rw [List.length_append]
    omega
  have hnone : ((List.range front.length).filter fun i =>
      pattern.isPrefixOf ((front ++ bytes).drop i)) = [] := by
    refine List.filter_eq_nil_iff.2 fun i hi hpre => h i (List.mem_range.1 hi) ⟨hp, ?_⟩
    exact List.isPrefixOf_iff_prefix.1 hpre
  rw [occurrences_split hp hle, hnone, List.nil_append, List.drop_left]

end Split

section Resumption

variable {pattern bytes : List UInt8}

theorem occurrences_of_firstOccurrence?_none (h : firstOccurrence? pattern bytes = none) :
    occurrences pattern bytes = [] := by
  by_cases hp : pattern = []
  · rw [hp]
    rfl
  · rw [firstOccurrence?_eq hp] at h
    rw [occurrences_eq hp, List.filter_eq_nil_iff]
    exact List.find?_eq_none.1 h

/-- Nothing begins before the first occurrence, and the others begin behind its first byte. -/
theorem occurrences_of_firstOccurrence?_some {i : Nat}
    (h : firstOccurrence? pattern bytes = some i) : occurrences pattern bytes
      = i :: (occurrences pattern (bytes.drop (i + 1))).map (i + 1 + ·) := by
  have hlt := lt_of_firstOccurrence? h
  have hp : pattern ≠ [] := by
    rintro rfl
    cases h
  rw [firstOccurrence?_eq hp] at h
  obtain ⟨hfound, -, hbefore⟩ := List.find?_range_eq_some.1 h
  have hnone : (List.range i).filter (fun j => pattern.isPrefixOf (bytes.drop j)) = [] :=
    List.filter_eq_nil_iff.2 fun j hj hpre => by
      have hne := hbefore j (List.mem_range.1 hj)
      rw [hpre] at hne
      cases hne
  rw [occurrences_split hp (show i + 1 ≤ bytes.length from hlt), List.range_succ,
    List.filter_append, hnone]
  simp [hfound]

theorem toList_pushResumed (pattern bytes : List UInt8) (offset : Nat) (found : Array Nat) :
    (pushResumed pattern bytes offset found).toList
      = found.toList ++ (occurrences pattern bytes).map (offset + ·) := by
  fun_induction pushResumed pattern bytes offset found with
  | case1 bytes offset found h =>
    rw [occurrences_of_firstOccurrence?_none h, List.map_nil, List.append_nil]
  | case2 bytes offset found i h ih =>
    rw [ih, occurrences_of_firstOccurrence?_some h, List.map_cons, List.map_map,
      Array.toList_push, List.append_assoc, List.singleton_append]
    simp only [Function.comp_def, Nat.add_assoc]

/-- Looking again from one byte behind every occurrence misses none. -/
theorem resumedFrom_eq (pattern bytes : List UInt8) (offset : Nat) :
    resumedFrom pattern bytes offset = (occurrences pattern bytes).map (offset + ·) :=
  toList_pushResumed pattern bytes offset #[]

theorem resumedFrom_zero (pattern bytes : List UInt8) :
    resumedFrom pattern bytes 0 = occurrences pattern bytes := by
  simp [resumedFrom_eq]

end Resumption

section Window

variable {data pattern window bytes : List UInt8} {offset position dropped count : Nat}

/-- A window over the data that takes up the next block covers them, before and after its first
bytes are dropped. -/
theorem window_step (hp : pattern ≠ []) (hd : data.drop offset = window ++ data.drop position)
    (hb : (data.drop position).take count = bytes)
    (hk : dropped = (window ++ bytes).length
      - min (pattern.length - 1) (window ++ bytes).length) :
    data.drop (offset + dropped)
        = (window ++ bytes).drop dropped ++ data.drop (position + bytes.length)
      ∧ ((window ++ bytes).drop dropped).length < pattern.length
      ∧ (occurrences pattern (data.drop offset)).map (offset + ·)
        = (occurrences pattern (window ++ bytes)).map (offset + ·)
          ++ (occurrences pattern (data.drop (offset + dropped))).map (offset + dropped + ·) := by
  have hall : data.drop offset = window ++ bytes ++ data.drop (position + bytes.length) := by
    rw [hd, drop_of_take hb, List.append_assoc]
  have hlen := List.length_pos_iff.2 hp
  refine ⟨?_, ?_, ?_⟩
  · rw [← List.drop_drop, hall, List.drop_append_of_le_length (by omega)]
  · rw [List.length_drop]
    omega
  · rw [← List.drop_drop, hall, occurrences_append hp _ _ hk, List.map_append, List.map_map]
    simp only [Function.comp_def, Nat.add_assoc]

end Window

namespace Source

variable {s : Source} {data pattern : List UInt8} {position : Nat}

theorem advanceWindow_eq (pattern window : List UInt8) (offset dropped : Nat) :
    advanceWindow pattern window offset dropped
      = .ok ((occurrences pattern window).map (offset + ·), offset + dropped) := by
  have hsums : (occurrences pattern window).mapM (Arithmetic.add offset)
      = .ok ((occurrences pattern window).map (offset + ·)) := List.mapM_pure
  rw [advanceWindow, resumedFrom_zero, hsums]
  rfl

theorem Serves.findFrom (hs : s.Serves data position) (hp : pattern ≠ []) {window : List UInt8}
    {offset : Nat} (hd : data.drop offset = window ++ data.drop position)
    (hw : window.length < pattern.length) :
    ∃ s' p, findFrom pattern window offset s
        = .ok ((occurrences pattern (data.drop offset)).map (offset + ·)) s'
      ∧ s'.Serves data p := by
  obtain ⟨s2, h1, h2⟩ := hs.fill blockSize
  fun_induction Source.findFrom pattern window offset s generalizing position s2 with
  | case1 window offset s e s1 hr =>
    rw [hr] at h1
    cases h1
  | case2 window offset s s1 hr =>
    rw [hr] at h1
    obtain ⟨h3, rfl⟩ := EStateM.Result.ok.inj h1
    rw [drop_of_take_nil h3.symm (by decide), List.append_nil] at hd
    rw [hd, occurrences_of_lt hw]
    exact ⟨s1, _, rfl, h2⟩
  | case3 window offset s b bytes s1 hr _ window' dropped e =>
    rename_i hstep
    rw [advanceWindow_eq] at hstep
    cases hstep
  | case4 window offset s b bytes s1 hr _ window' dropped found next hstep e s3 hf =>
    rename_i ih
    rw [advanceWindow_eq] at hstep
    cases hstep
    rw [hr] at h1
    obtain ⟨h3, rfl⟩ := EStateM.Result.ok.inj h1
    rw [← h3] at h2
    obtain ⟨h4, h5, -⟩ := window_step hp hd h3.symm rfl
    obtain ⟨s4, h6, h7⟩ := h2.fill blockSize
    obtain ⟨s', p, h8, -⟩ := ih h2 h4 h5 s4 h6 h7
    cases hf.symm.trans h8
  | case5 window offset s b bytes s1 hr _ window' dropped found next hstep more s3 hf =>
    rename_i ih
    rw [advanceWindow_eq] at hstep
    cases hstep
    rw [hr] at h1
    obtain ⟨h3, rfl⟩ := EStateM.Result.ok.inj h1
    rw [← h3] at h2
    obtain ⟨h4, h5, h9⟩ := window_step hp hd h3.symm rfl
    obtain ⟨s4, h6, h7⟩ := h2.fill blockSize
    obtain ⟨s', p, h8, hs'⟩ := ih h2 h4 h5 s4 h6 h7
    cases hf.symm.trans h8
    exact ⟨_, p, by rw [h9], hs'⟩

/-- The search lists every occurrence in the data, whatever the position. -/
theorem Serves.findAll (hs : s.Serves data position) (pattern : List UInt8) :
    ∃ s' p, findAll pattern s = .ok (occurrences pattern data) s' ∧ s'.Serves data p := by
  unfold Source.findAll
  by_cases hp : pattern = []
  · subst hp
    exact ⟨s, position, rfl, hs⟩
  have he : ¬pattern.isEmpty = true := by simpa using hp
  have hd : data.drop 0 = [] ++ data.drop 0 := rfl
  obtain ⟨s', p, h1, h2⟩ := (hs.seek 0).findFrom hp hd (List.length_pos_iff.2 hp)
  refine ⟨s', p, ?_, h2⟩
  rw [if_neg he]
  refine (bind_of_ok (show Source.seek 0 s = .ok () _ from rfl)).trans (h1.trans ?_)
  simp

/-- On a source that serves its data, however few bytes a read delivers, the search finds from any
position the offsets at which the pattern stands in the data: all of them, each once, and in
ascending order. The empty pattern is found nowhere. -/
theorem findAll_exact (hs : s.Serves data position) (pattern : List UInt8) :
    ∃ offsets s', findAll pattern s = .ok offsets s' ∧ offsets.Pairwise (· < ·)
      ∧ (pattern = [] → offsets = [])
      ∧ (pattern ≠ [] → ∀ i, i ∈ offsets ↔ (data.drop i).take pattern.length = pattern) := by
  obtain ⟨s', _, hfound, -⟩ := hs.findAll pattern
  refine ⟨_, s', hfound, pairwise_occurrences _ _, ?_, fun hp i => ?_⟩
  · rintro rfl
    rfl
  · rw [mem_occurrences, occursAt_iff, and_iff_right hp]

/-- Two bytes of which the first is the last one of a block. -/
theorem findAll_exact_straddling :
    let data : List UInt8 := List.replicate (blockSize - 1) 0 ++ [1, 1]
    (hesitant data).Serves data 0
      ∧ ∃ s', findAll [1, 1] (hesitant data) = .ok [blockSize - 1] s' := by
  intro data
  have hs : (hesitant data).Serves data 0 := serves_hesitant data
  obtain ⟨offsets, s', hfound, hascend, -, hmem⟩ := findAll_exact hs [1, 1]
  have hstands : ∀ n i,
      ((List.replicate n (0 : UInt8) ++ [1, 1]).drop i).take 2 = [1, 1] ↔ i = n := by
    intro n
    induction n with
    | zero =>
      intro i
      rcases i with _ | _ | i <;> simp
    | succ n ih =>
      intro i
      rcases i with _ | i
      · simp [List.replicate_succ]
      · simpa [List.replicate_succ] using ih i
  have hone : ∀ i, i ∈ offsets ↔ i = blockSize - 1 := fun i =>
    (hmem (by decide) i).trans (hstands _ i)
  refine ⟨hs, s', ?_⟩
  rw [hfound]
  rcases offsets with _ | ⟨first, rest⟩
  · exact absurd ((hone _).2 rfl) List.not_mem_nil
  · obtain ⟨hless, -⟩ := List.pairwise_cons.1 hascend
    have hfirst := (hone first).1 List.mem_cons_self
    have hrest : rest = [] := List.eq_nil_iff_forall_not_mem.2 fun other hother =>
      Nat.lt_irrefl _ (hfirst ▸ (hone other).1 (List.mem_cons_of_mem _ hother) ▸ hless other hother)
    rw [hrest, hfirst]

end Source

end Carving
