import Carving.Proofs.MemberBoundary
import Carving.Proofs.Outcome

/-!
# Calculations on data in memory

On data in memory every calculation comes to an answer. A chunk begins where the candidate does and
ends within the data (`Format.bounds_of_boundaryIn`), and an error speaks against the candidate
(`Format.rejects_of_boundaryIn`).
-/

namespace Carving

theorem Gzip.boundaryIn_cases (content : Array UInt8) (start : Nat) :
    Format.gzip.boundaryIn content start = .ok none
      ∨ (∃ c bytes rest, Format.gzip.boundaryIn content start = .ok (some c) ∧ IsMember bytes
        ∧ content.toList.drop start = bytes ++ rest ∧ c.start = start
        ∧ c.stop = start + bytes.length + (rest.takeWhile (· == 0)).length)
      ∨ ∃ d : Defect, Format.gzip.boundaryIn content start = .error d.error := by
  have hs : (Session.ofSource (.ofContent content)).source.Serves content.toList 0 :=
    Source.serves_ofContent content
  rw [Format.boundaryIn_eq]
  change (boundary start).answer _ = _ ∨ (∃ c _ _, (boundary start).answer _ = _ ∧ _)
    ∨ ∃ d : Defect, (boundary start).answer _ = _
  unfold Probe.answer
  rcases boundary_cases hs start with
    ⟨s, h, -⟩ | ⟨c, s, bytes, rest, h, hb⟩ | ⟨d, s, h, -⟩ <;> rw [h]
  · exact .inl rfl
  · exact .inr (.inl ⟨c, bytes, rest, rfl, hb⟩)
  · exact .inr (.inr ⟨d, rfl⟩)

namespace Format

variable {format : Format} {content : Array UInt8} {start : Nat}

theorem bounds_of_boundaryIn {c : Chunk} (h : format.boundaryIn content start = .ok (some c)) :
    c.start = start ∧ c.stop ≤ content.size := by
  cases format with
  | gzip =>
    rcases Gzip.boundaryIn_cases content start with
      h1 | ⟨c', bytes, rest, h1, -, hd, hstart, hstop⟩ | ⟨d, h1⟩ <;> cases h.symm.trans h1
    have hl := congrArg List.length hd
    have hpos := c.start_lt_stop
    have hrun : (rest.takeWhile (· == 0)).length ≤ rest.length :=
      (List.takeWhile_sublist _).length_le
    rw [List.length_drop, List.length_append, Array.length_toList] at hl
    exact ⟨hstart, by omega⟩
  | lzh =>
    rw [Lzh.boundaryIn_eq] at h
    obtain ⟨-, -, hstart, -, hle⟩ := Lzh.outcome_eq_some.1 h
    exact ⟨hstart, hle⟩
  | ntfs =>
    rw [Ntfs.boundaryIn_eq] at h
    obtain ⟨-, -, hstart, -, hle⟩ := Ntfs.outcome_eq_some.1 h
    exact ⟨hstart, hle⟩
  | ubifs =>
    rw [Ubifs.boundaryIn_eq] at h
    obtain ⟨-, -, -, -, hstart, -, hle⟩ := Ubifs.outcome_eq_some.1 h
    exact ⟨hstart, hle⟩
  | ubi =>
    rw [Ubi.boundaryIn_eq] at h
    unfold Ubi.outcome at h
    split at h
    · cases h
    split at h
    · cases h
    rw [map_within_eq_some] at h
    exact ⟨h.1, h.2.1 ▸ h.2.2⟩

theorem rejects_of_within {start stop length : Nat} {e : Error}
    (h : (Chunk.within start stop length).map some = .error e) : e.rejectsCandidate = true := by
  unfold Chunk.within at h
  split at h
  · cases h
  · cases h
    rfl

theorem rejects_of_boundaryIn {e : Error} (h : format.boundaryIn content start = .error e) :
    e.rejectsCandidate = true := by
  cases format with
  | gzip =>
    rcases Gzip.boundaryIn_cases content start with h1 | ⟨c, bytes, rest, h1, -⟩ | ⟨d, h1⟩ <;>
      cases h.symm.trans h1
    rfl
  | lzh =>
    rw [Lzh.boundaryIn_eq] at h
    unfold Lzh.outcome at h
    dsimp only at h
    split at h
    · cases h
      rfl
    split at h
    · cases h
      rfl
    exact rejects_of_within h
  | ntfs =>
    rw [Ntfs.boundaryIn_eq] at h
    unfold Ntfs.outcome at h
    dsimp only at h
    split at h
    · cases h
      rfl
    split at h
    · cases h
    exact rejects_of_within h
  | ubifs =>
    rw [Ubifs.boundaryIn_eq] at h
    unfold Ubifs.outcome at h
    split at h
    · cases h
    split at h
    · cases h
    dsimp only at h
    split at h
    · cases h
      rfl
    split at h
    · cases h
    exact rejects_of_within h
  | ubi =>
    rw [Ubi.boundaryIn_eq] at h
    unfold Ubi.outcome at h
    split at h
    · cases h
    split at h
    · cases h
    exact rejects_of_within h

end Format

end Carving
