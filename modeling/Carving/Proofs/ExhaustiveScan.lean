import Carving.Proofs.ScanList

/-!
# Scans that try every offset

A gzip member begins with the bytes that its signature looks for, and a superblock with those of one
of the two byte orders. So these calculations accept nothing but candidates, and a scan for one of
the two formats finds what the calculation finds at all offsets of the data (`scan_exhaustive`).
-/

namespace Carving

/-- The chunk that the calculation finds at an offset of data in memory, if it finds one. -/
def Format.chunkAt? (format : Format) (content : Array UInt8) (start : Nat) : Option Chunk :=
  match format.boundaryIn content start with
  | .ok chunk => chunk
  | .error _ => none

theorem Format.chunkAt?_eq_some {format : Format} {content : Array UInt8} {start : Nat}
    {c : Chunk} : format.chunkAt? content start = some c
      ↔ format.boundaryIn content start = .ok (some c) := by
  unfold chunkAt?
  rcases format.boundaryIn content start with e | chunk <;> simp

section Candidates

variable {content : Array UInt8} {start : Nat} {c : Chunk}

/-- A pattern of the signature that stands at an offset makes it a candidate, if the signature looks
for patterns at the beginning. -/
theorem mem_candidates_of_prefix {s : Signature} {data pattern : List UInt8}
    (hs : s.matchOffset = 0) (hm : pattern ∈ s.patterns) (hne : pattern ≠ [])
    (hp : pattern <+: data.drop start) : start ∈ s.candidates data := by
  refine mem_candidates.2 ⟨pattern, hm, start, ⟨hne, hp⟩, ?_⟩
  rw [hs]
  simp [Signature.startOf]

theorem Gzip.mem_candidates_of_boundaryIn
    (h : Format.gzip.boundaryIn content start = .ok (some c)) :
    start ∈ Format.gzip.signature.candidates content.toList := by
  rcases boundaryIn_cases content start with
    h1 | ⟨_, bytes, rest, -, hb, hd, -⟩ | ⟨_, h1⟩
  · cases h.symm.trans h1
  · obtain ⟨header, stream, out, -, -, rfl⟩ := hb
    have hmagic : [0x1F, 0x8B, 0x08] <+: content.toList.drop start := by
      rw [hd, header.encode_eq]
      exact ⟨_, rfl⟩
    exact mem_candidates_of_prefix rfl (by decide) (by decide) hmagic
  · cases h.symm.trans h1

/-- The magic number stands in one of two orders. -/
theorem Ubifs.mem_patterns_of_detectEndian {magic : List UInt8} {order : Endian}
    (hl : magic.length ≤ 4) (h : detectEndian magic = some order) :
    magic ∈ Ubifs.signature.patterns := by
  rw [(detectEndian_eq_some_iff hl).1 h]
  cases order <;> decide

theorem Ubifs.mem_candidates_of_boundaryIn
    (h : Format.ubifs.boundaryIn content start = .ok (some c)) :
    start ∈ Format.ubifs.signature.candidates content.toList := by
  rw [Ubifs.boundaryIn_eq] at h
  obtain ⟨-, order, ho, -⟩ := Ubifs.outcome_eq_some.1 h
  have hpattern := mem_patterns_of_detectEndian (List.length_take_le _ _) ho
  refine mem_candidates_of_prefix rfl hpattern ?_ (List.take_prefix _ _)
  intro hnil
  rw [hnil] at hpattern
  exact absurd hpattern (by decide)

end Candidates

section Scan

variable {format : Format} {content : Array UInt8}

theorem eq_of_ascending {found found' : List Finding}
    (h : found.Pairwise fun a b => a.chunk.start < b.chunk.start)
    (h' : found'.Pairwise fun a b => a.chunk.start < b.chunk.start)
    (hm : ∀ r, r ∈ found ↔ r ∈ found') : found = found' :=
  eq_of_pairwise_lt (·.chunk.start) h h' hm

theorem pairwise_chunksAt : (((List.range content.size).filterMap
    (format.chunkAt? content)).map (Finding.mk format)).Pairwise
      fun a b => a.chunk.start < b.chunk.start := by
  refine List.pairwise_map.2 (List.Pairwise.filterMap _ (fun a b hab c hc c' hc' => ?_)
    List.pairwise_lt_range)
  rw [(Format.bounds_of_boundaryIn (Format.chunkAt?_eq_some.1 hc)).1,
    (Format.bounds_of_boundaryIn (Format.chunkAt?_eq_some.1 hc')).1]
  exact hab

theorem mem_chunksAt {r : Finding} : r ∈ ((List.range content.size).filterMap
    (format.chunkAt? content)).map (Finding.mk format)
      ↔ r.format = format ∧ format.boundaryIn content r.chunk.start = .ok (some r.chunk) := by
  rw [List.mem_map]
  constructor
  · rintro ⟨c, hc, rfl⟩
    obtain ⟨start, -, hs⟩ := List.mem_filterMap.1 hc
    have hb := Format.chunkAt?_eq_some.1 hs
    obtain ⟨rfl, -⟩ := Format.bounds_of_boundaryIn hb
    exact ⟨rfl, hb⟩
  · rintro ⟨rfl, hb⟩
    have hlt := r.chunk.start_lt_stop
    have hle := (Format.bounds_of_boundaryIn hb).2
    exact ⟨r.chunk, List.mem_filterMap.2 ⟨r.chunk.start, List.mem_range.2 (by omega),
      Format.chunkAt?_eq_some.2 hb⟩, rfl⟩

/-- If the calculation accepts only candidates, trying those is trying every offset. -/
theorem scan_eq_chunksAt (h : ∀ start c, format.boundaryIn content start = .ok (some c) →
      start ∈ format.signature.candidates content.toList) :
    scan { formats := [format] } content
      = .ok (((List.range content.size).filterMap
        (format.chunkAt? content)).map (Finding.mk format)) := by
  have hfound : findingsOf 1 content format = ((List.range content.size).filterMap
      (format.chunkAt? content)).map (Finding.mk format) := by
    refine eq_of_ascending (pairwise_findingsOf format) pairwise_chunksAt fun r => ?_
    rw [mem_findingsOf, mem_chunksAt]
    exact ⟨fun ⟨hf, _, hb, _⟩ => ⟨hf, hb⟩, fun ⟨hf, hb⟩ => ⟨hf, h _ _ hb, hb, r.chunk.size_pos⟩⟩
  have hsorted : (findingsOf 1 content format).mergeSort Finding.le
      = findingsOf 1 content format :=
    List.mergeSort_of_pairwise
      ((pairwise_findingsOf format).imp fun hlt => Finding.le_iff.2 (.inl hlt))
  rw [scan_eq, scanned, findings, List.flatMap_singleton, hsorted, hfound]
  rfl

/-- A scan for gzip members, and one for UBIFS images, finds the chunks that the calculation finds
when it tries every offset of the data, in ascending order: whatever the calculation accepts is a
candidate. -/
theorem scan_exhaustive (hf : format = .gzip ∨ format = .ubifs) (content : Array UInt8) :
    scan { formats := [format] } content
      = .ok (((List.range content.size).filterMap
        (format.chunkAt? content)).map (Finding.mk format))
    ∧ ∀ start c, format.boundaryIn content start = .ok (some c) →
      c.start = start ∧ start < content.size
        ∧ start ∈ format.signature.candidates content.toList := by
  have hmem : ∀ start c, format.boundaryIn content start = .ok (some c) →
      start ∈ format.signature.candidates content.toList := by
    rcases hf with rfl | rfl
    · exact fun _ _ => Gzip.mem_candidates_of_boundaryIn
    · exact fun _ _ => Ubifs.mem_candidates_of_boundaryIn
  refine ⟨scan_eq_chunksAt hmem, fun start c hb => ?_⟩
  obtain ⟨hstart, hstop⟩ := Format.bounds_of_boundaryIn hb
  have hlt := c.start_lt_stop
  exact ⟨hstart, by omega, hmem start c hb⟩

/-- A member behind one byte of other data. -/
theorem scan_exhaustive_member :
    let content : Array UInt8 := #[0x77, 0x1F, 0x8B, 8, 0, 0, 0, 0, 0, 0, 3, 1, 2, 0, 0xFD, 0xFF,
      0x68, 0x69, 0xAC, 0x2A, 0x93, 0xD8, 2, 0, 0, 0]
    scan { formats := [.gzip] } content = .ok [⟨.gzip, ⟨1, 26, by decide⟩⟩]
      ∧ Format.gzip.signature.candidates content.toList = [1] := by
  intro content
  have hv : Gzip.Header.Valid ⟨false, [0, 0, 0, 0, 0, 3], none, none, none, none⟩ :=
    ⟨rfl, nofun, nofun, nofun, nofun⟩
  have hi : Deflate.inflate [1, 2, 0, 0xFD, 0xFF, 0x68, 0x69] = .complete [0x68, 0x69] [] := by cbv
  have hb : Format.gzip.boundaryIn content 1 = .ok (some ⟨1, 26, by decide⟩) := by
    have hs : (Session.ofSource (.ofContent content)).source.Serves content.toList 0 :=
      Source.serves_ofContent content
    obtain ⟨⟨_, _, _⟩, s, h1, rfl, rfl⟩ := Gzip.boundary_of_isMember hs ⟨_, _, _, hv, hi, rfl⟩
      (by decide +kernel : content.toList.drop 1 = _ ++ [])
    exact (Format.boundaryIn_eq ..).trans (Probe.answer_eq_ok.2 ⟨s, h1⟩)
  have hcandidates : Format.gzip.signature.candidates content.toList = [1] := by decide +kernel
  obtain ⟨hscan, hmem⟩ := scan_exhaustive (.inl rfl) content
  refine ⟨hscan.trans (congrArg _ (eq_of_ascending pairwise_chunksAt
    (List.pairwise_singleton _ _) fun r => ?_)), hcandidates⟩
  rw [mem_chunksAt, List.mem_singleton]
  constructor
  · rintro ⟨hf, hr⟩
    have hstart := (hmem _ _ hr).2.2
    rw [hcandidates, List.mem_singleton] at hstart
    rw [hstart, hb] at hr
    obtain ⟨format, chunk⟩ := r
    cases hf
    cases hr
    rfl
  · rintro rfl
    exact ⟨rfl, hb⟩

end Scan

end Carving
