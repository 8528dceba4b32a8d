/-!
# Occurrences of a pattern in bytes

`occurrences` are the offsets at which a pattern starts, in ascending order and with overlaps. The
empty pattern marks no place and occurs nowhere. A search comes to them one by one: it looks for
the first occurrence, and for the next from one byte behind each (`resumedFrom`).
-/

namespace Carving

/-- The pattern starts at the given offset of the bytes. -/
def OccursAt (pattern bytes : List UInt8) (offset : Nat) : Prop :=
  pattern ≠ [] ∧ pattern <+: bytes.drop offset

theorem OccursAt.lt_length {pattern bytes : List UInt8} {offset : Nat}
    (h : OccursAt pattern bytes offset) : offset < bytes.length := by
  have hl := h.2.length_le
  have := List.length_pos_iff.2 h.1
  rw [List.length_drop] at hl
  omega

/-- Every offset at which the pattern starts, in ascending order. -/
def occurrences (pattern bytes : List UInt8) : List Nat :=
  if pattern.isEmpty then []
  else (List.range bytes.length).filter fun i => pattern.isPrefixOf (bytes.drop i)

theorem mem_occurrences {pattern bytes : List UInt8} {i : Nat} :
    i ∈ occurrences pattern bytes ↔ OccursAt pattern bytes i := by
  unfold occurrences OccursAt
  by_cases hp : pattern = []
  · simp [hp]
  have hp' : pattern.isEmpty = false := by simpa using hp
  simp only [hp', Bool.false_eq_true, ↓reduceIte, List.mem_filter, List.mem_range,
    List.isPrefixOf_iff_prefix]
  exact ⟨fun h => ⟨hp, h.2⟩, fun h => ⟨OccursAt.lt_length h, h.2⟩⟩

theorem pairwise_occurrences (pattern bytes : List UInt8) :
    (occurrences pattern bytes).Pairwise (· < ·) := by
  unfold occurrences
  split
  · exact .nil
  · exact List.pairwise_lt_range.filter _

/-- The first offset at which the pattern starts, counted from `offset` on. -/
def firstFrom? (pattern : List UInt8) : List UInt8 → Nat → Option Nat
  | [], _ => none
  | b :: bytes, offset =>
    if pattern.isPrefixOf (b :: bytes) then some offset else firstFrom? pattern bytes (offset + 1)

/-- The offset of the first occurrence of a pattern, if it occurs. -/
def firstOccurrence? (pattern bytes : List UInt8) : Option Nat :=
  if pattern.isEmpty then none else firstFrom? pattern bytes 0

theorem firstFrom?_eq (pattern bytes : List UInt8) (offset : Nat) : firstFrom? pattern bytes offset
    = ((List.range bytes.length).find? fun i => pattern.isPrefixOf (bytes.drop i)).map
      (offset + ·) := by
  induction bytes generalizing offset with
  | nil => rfl
  | cons b bytes ih =>
    rw [firstFrom?, ih, List.length_cons, List.range_succ_eq_map, List.find?_cons, List.find?_map,
      List.drop_zero]
    have hshift : ((fun i => pattern.isPrefixOf ((b :: bytes).drop i)) ∘ Nat.succ)
        = fun i => pattern.isPrefixOf (bytes.drop i) := rfl
    have hadd : (fun i => offset + 1 + i) = (offset + ·) ∘ Nat.succ := by
      funext i
      simp only [Function.comp_apply]
      omega
    rw [hshift, hadd, ← Option.map_map]
    split <;> rename_i h
    · rw [h]
      rfl
    · rw [Bool.not_eq_true] at h
      rw [h]

/-- An occurrence is first if there is none at a smaller offset. -/
theorem firstOccurrence?_eq {pattern : List UInt8} (hp : pattern ≠ []) (bytes : List UInt8) :
    firstOccurrence? pattern bytes
      = (List.range bytes.length).find? fun i => pattern.isPrefixOf (bytes.drop i) := by
  have he : pattern.isEmpty = false := by simpa using hp
  simp [firstOccurrence?, he, firstFrom?_eq]

theorem lt_of_firstOccurrence? {pattern bytes : List UInt8} {i : Nat}
    (h : firstOccurrence? pattern bytes = some i) : i < bytes.length := by
  by_cases hp : pattern = []
  · rw [hp] at h
    cases h
  · rw [firstOccurrence?_eq hp] at h
    exact List.mem_range.1 (List.mem_of_find?_eq_some h)

/-- Adds to `found` the occurrences in the bytes, counted from `offset` on. Each is looked for from
one byte behind the one before it. -/
def pushResumed (pattern bytes : List UInt8) (offset : Nat) (found : Array Nat) : Array Nat :=
  match _h : firstOccurrence? pattern bytes with
  | none => found
  | some i => pushResumed pattern (bytes.drop (i + 1)) (offset + (i + 1)) (found.push (offset + i))
termination_by bytes.length
decreasing_by
  have := lt_of_firstOccurrence? _h
  rw [List.length_drop]
  omega

/-- The offsets, counted from `offset` on, that a search for a pattern comes to. -/
def resumedFrom (pattern bytes : List UInt8) (offset : Nat) : List Nat :=
  (pushResumed pattern bytes offset #[]).toList

end Carving
