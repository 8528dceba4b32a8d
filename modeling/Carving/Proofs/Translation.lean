import Carving.Proofs.FirstMode
import Carving.Proofs.ImageEnd
import Carving.Proofs.MemberBoundary

/-!
# Bytes in front of an object move its chunk

A calculation looks at an object from its first byte on. With further bytes in front of the data it
finds the same object, which begins and ends as many bytes later, or refuses it for a reason of the
same variant (`answer_translated`). The distance between markers comes from all markers in the
data, so for that format there may be none in front.
-/

namespace Carving

/-- What the calculation answers with `distance` further bytes in front of the data. -/
inductive Moved (distance : Nat) : Except Error (Option Chunk) → Except Error (Option Chunk) → Prop
  | none : Moved distance (.ok none) (.ok none)
  | some {c c' : Chunk} (start_eq : c'.start = distance + c.start)
    (stop_eq : c'.stop = distance + c.stop) : Moved distance (.ok (some c)) (.ok (some c'))
  /-- The error is of the same variant. -/
  | error {e e' : Error} (ctorIdx_eq : e'.ctorIdx = e.ctorIdx) :
    Moved distance (.error e) (.error e')

/-- The bounds enclose a chunk in both places or in none. -/
theorem moved_within {distance start stop stop' length length' : Nat}
    (hiff : start < stop ∧ stop ≤ length ↔ distance + start < stop' ∧ stop' ≤ length')
    (hstop : stop ≤ length → stop' = distance + stop) :
    Moved distance ((Chunk.within start stop length).map some)
      ((Chunk.within (distance + start) stop' length').map some) := by
  by_cases h : start < stop ∧ stop ≤ length
  · rw [Chunk.within_of_le h.1 h.2, Chunk.within_of_le (hiff.1 h).1 (hiff.1 h).2]
    exact .some rfl (hstop h.2)
  · rw [Chunk.within, Chunk.within, dif_neg h, dif_neg fun h' => h (hiff.2 h')]
    exact .error rfl

section Front

variable {front data : List UInt8} {start : Nat}

theorem Lzh.outcome_translated : Moved front.length (outcome data start)
    (outcome (front ++ data) (front.length + start)) := by
  unfold outcome
  rw [List.drop_length_add_append, List.length_append, Nat.add_sub_add_left]
  dsimp only
  generalize (data.drop start).take header.size = fixed
  by_cases hshort : data.length - start < header.size
  · rw [if_pos hshort, if_pos hshort]
    exact .error rfl
  rw [if_neg hshort, if_neg hshort]
  by_cases hlevel : 2 < level fixed
  · rw [if_pos hlevel, if_pos hlevel]
    exact .error rfl
  rw [if_neg hlevel, if_neg hlevel]
  by_cases hlast : data.length = start + declaredSize fixed + 1
  · rw [if_pos hlast, if_pos (by omega)]
    exact moved_within (by omega) (by omega)
  · rw [if_neg hlast, if_neg (by omega)]
    exact moved_within (by omega) (by omega)

theorem Ubifs.outcome_translated : Moved front.length (outcome data start)
    (outcome (front ++ data) (front.length + start)) := by
  unfold outcome
  rw [List.drop_length_add_append, List.length_append, Nat.add_sub_add_left]
  by_cases hfour : data.length - start < 4
  · rw [if_pos hfour, if_pos hfour]
    exact .none
  rw [if_neg hfour, if_neg hfour]
  rcases detectEndian ((data.drop start).take 4) with _ | order
  · exact .none
  dsimp only
  generalize (data.drop start).take superblock.size = fixed
  by_cases hshort : data.length - start < superblock.size
  · rw [if_pos hshort, if_pos hshort]
    exact .error rfl
  rw [if_neg hshort, if_neg hshort]
  by_cases hempty : imageSize order fixed = 0
  · rw [if_pos hempty, if_pos hempty]
    exact .none
  rw [if_neg hempty, if_neg hempty]
  exact moved_within (by omega) (by omega)

/-- The end that the boot sector declares, without a bound. -/
def Ntfs.declaredEnd (data : List UInt8) (start : Nat) : Nat :=
  start + bootSector.size + volumeSize ((data.drop start).take bootSector.size)

/-- Nothing stays at the greatest number, or whatever stays there lies behind all data. -/
theorem Ntfs.outcome_translated (h : front.length + declaredEnd data start < capacity 8
    ∨ front.length + data.length < greatest) :
    Moved front.length (outcome data start)
      (outcome (front ++ data) (front.length + start)) := by
  unfold declaredEnd at h
  unfold outcome
  rw [List.drop_length_add_append, List.length_append, Nat.add_sub_add_left]
  dsimp only
  generalize (data.drop start).take bootSector.size = fixed at h ⊢
  by_cases hshort : data.length - start < bootSector.size
  · rw [if_pos hshort, if_pos hshort]
    exact .error rfl
  rw [if_neg hshort, if_neg hshort]
  by_cases hempty : volumeSize fixed = 0
  · rw [if_pos hempty, if_pos hempty]
    exact .none
  rw [if_neg hempty, if_neg hempty]
  have hgreatest : greatest + 1 = capacity 8 := rfl
  simp only [saturatingAdd]
  -- With sums that saturate on one side only, the end lies behind all data on both.
  generalize greatest = most at h hgreatest ⊢
  generalize capacity 8 = bound at h hgreatest
  exact moved_within (by omega) (by omega)

theorem Ubi.walkIn_translated (stride offset : Nat) :
    walkIn (front ++ data) stride (front.length + offset)
      = front.length + walkIn data stride offset := by
  fun_induction walkIn data stride offset with
  | case1 offset h ih =>
    rw [walkIn, List.drop_length_add_append, if_pos h, Nat.add_assoc, ih]
  | case2 offset h =>
    rw [walkIn, List.drop_length_add_append, if_neg h]

theorem Ubi.outcome_translated (h : ∀ i < front.length, ¬OccursAt marker (front ++ data) i) :
    Moved front.length (outcome data start)
      (outcome (front ++ data) (front.length + start)) := by
  unfold outcome
  rw [occurrences_behind (by decide) h, gaps_map_add]
  rcases mode (gaps (occurrences marker data)) with _ | blockSize
  · exact .none
  dsimp only
  rw [walkIn_translated, List.length_append, Nat.add_min_add_left]
  by_cases hempty : min (walkIn data blockSize start) data.length ≤ start
  · rw [if_pos hempty, if_pos (by omega)]
    exact .none
  rw [if_neg hempty, if_neg (by omega)]
  exact moved_within (by omega) (by omega)

/-- Data begin with one member at most, wherever they stand. -/
theorem Gzip.boundary_translated {session session' : Session} {position position' : Nat}
    (hs : session.source.Serves data position)
    (hs' : session'.source.Serves (front ++ data) position') :
    Moved front.length ((boundary start).answer session)
      ((boundary (front.length + start)).answer session') := by
  have hcases' := boundary_cases hs' (front.length + start)
  rw [List.drop_length_add_append] at hcases'
  unfold Probe.answer
  rcases boundary_cases hs start with
    ⟨s, h1, hm⟩ | ⟨c, s, bytes, rest, h1, hb, hd, hstart, hstop⟩ | ⟨d, s, h1, hm, hno⟩ <;>
  rcases hcases' with
    ⟨s', h2, hm'⟩ | ⟨c', s', bytes', rest', h2, hb', hd', hstart', hstop'⟩
      | ⟨d', s', h2, hm', hno'⟩ <;> rw [h1, h2]
  · exact .none
  · rw [hd'] at hm
    exact absurd hb'.take_two hm
  · exact absurd hm' hm
  · rw [hd] at hm'
    exact absurd hb.take_two hm'
  · obtain ⟨rfl, rfl⟩ := member_unique hb hb' (hd.symm.trans hd')
    exact .some (by omega) (by omega)
  · exact absurd hd (hno' bytes rest hb)
  · exact absurd hm hm'
  · exact absurd hd' (hno bytes' rest' hb')
  · exact .error rfl

end Front

/-- With further bytes in front of the data the chunk of an object moves by as many bytes. Where
there is no object there is none, and an error stays one of its variant. The end of a volume may not
reach the greatest number on the way, or no data may reach so far; and for an image of blocks no
marker may begin in front. -/
theorem answer_translated {format : Format} {session session' : Session} {front data : List UInt8}
    {position position' start : Nat} (h : session.source.Serves data position)
    (h' : session'.source.Serves (front ++ data) position')
    (hvolume : format = .ntfs → front.length + Ntfs.declaredEnd data start < capacity 8
      ∨ front.length + data.length < Ntfs.greatest)
    (hmarker : format = .ubi → ∀ i < front.length, ¬OccursAt Ubi.marker (front ++ data) i) :
    Moved front.length ((format.boundary start).answer session)
      ((format.boundary (front.length + start)).answer session') := by
  cases format with
  | gzip => exact Gzip.boundary_translated h h'
  | lzh =>
    change Moved _ ((Lzh.boundary start).answer _) ((Lzh.boundary _).answer _)
    rw [Lzh.answer_boundary h, Lzh.answer_boundary h']
    exact Lzh.outcome_translated
  | ntfs =>
    change Moved _ ((Ntfs.boundary start).answer _) ((Ntfs.boundary _).answer _)
    rw [Ntfs.answer_boundary h, Ntfs.answer_boundary h']
    exact Ntfs.outcome_translated (hvolume rfl)
  | ubifs =>
    change Moved _ ((Ubifs.boundary start).answer _) ((Ubifs.boundary _).answer _)
    rw [Ubifs.answer_boundary h, Ubifs.answer_boundary h']
    exact Ubifs.outcome_translated
  | ubi =>
    change Moved _ ((Ubi.boundary start).answer _) ((Ubi.boundary _).answer _)
    rw [Ubi.answer_boundary h, Ubi.answer_boundary h']
    exact Ubi.outcome_translated (hmarker rfl)

/-- An image of two blocks, behind two bytes of which the second could begin a marker. -/
theorem answer_translated_image :
    let data : List UInt8 := Ubi.marker ++ 1 :: Ubi.marker ++ [1]
    (Session.ofSource (.hesitant data)).source.Serves data 0
      ∧ (Session.ofSource (.hesitant ([0x77, 0x55] ++ data))).source.Serves ([0x77, 0x55] ++ data) 0
      ∧ (∀ i < 2, ¬OccursAt Ubi.marker ([0x77, 0x55] ++ data) i)
      ∧ (Format.ubi.boundary 0).answer (.ofSource (.hesitant data))
        = .ok (some ⟨0, 10, by decide⟩)
      ∧ ∃ c, (Format.ubi.boundary 2).answer (.ofSource (.hesitant ([0x77, 0x55] ++ data)))
          = .ok (some c) ∧ c.start = 2 ∧ c.stop = 12 := by
  intro data
  have hs : (Session.ofSource (.hesitant data)).source.Serves data 0 := Source.serves_hesitant data
  have hs' : (Session.ofSource (.hesitant ([0x77, 0x55] ++ data))).source.Serves
    ([0x77, 0x55] ++ data) 0 := Source.serves_hesitant _
  have hnone : ∀ i < 2, ¬OccursAt Ubi.marker ([0x77, 0x55] ++ data) i := by
    simp only [Ubi.occursAt_marker_iff]
    decide
  have hmode : mode (gaps (occurrences Ubi.marker data)) = some 5 := by decide +kernel
  have hwalk : Ubi.walkIn data 5 0 = 10 := by
    rw [Ubi.walkIn, if_pos (by decide), Ubi.walkIn, if_pos (by decide), Ubi.walkIn,
      if_neg (by decide)]
  have hanswer : (Format.ubi.boundary 0).answer (.ofSource (.hesitant data))
      = .ok (some ⟨0, 10, by decide⟩) := by
    refine (Ubi.answer_boundary hs 0).trans ?_
    simp only [Ubi.outcome, hmode, hwalk]
    rfl
  have hmoved : Moved 2 ((Format.ubi.boundary 0).answer (.ofSource (.hesitant data)))
      ((Format.ubi.boundary 2).answer (.ofSource (.hesitant ([0x77, 0x55] ++ data)))) :=
    answer_translated hs hs' (fun h => absurd h (by decide)) fun _ => hnone
  rw [hanswer] at hmoved ⊢
  generalize (Format.ubi.boundary 2).answer _ = answer at hmoved ⊢
  rcases hmoved with _ | ⟨hstart, hstop⟩
  exact ⟨hs, hs', hnone, rfl, _, rfl, hstart, hstop⟩

end Carving
