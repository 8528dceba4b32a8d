import Carving.Proofs.CandidateSet
import Carving.Proofs.InMemory
import Carving.Scan

/-!
# A scan lists what the calculations answer

No calculation on data in memory fails in a way that ends a scan. So a scan tries every candidate of
every format in their order, keeps the chunks that are large enough, sorts them stably by their
bounds and cuts the list off (`scan_spec`). No two formats have a candidate at one offset, so that
findings with equal bounds are equal and the order of the formats does not matter.
-/

namespace Carving

/-- The finding at a candidate, if there is a chunk and it is large enough. -/
def accept (minChunkSize : Nat) (content : Array UInt8) (format : Format) (start : Nat) :
    Option Finding :=
  match format.boundaryIn content start with
  | .ok (some chunk) => if minChunkSize ≤ chunk.size then some ⟨format, chunk⟩ else none
  | _ => none

/-- The findings of one format, in the order of its candidates. -/
def findingsOf (minChunkSize : Nat) (content : Array UInt8) (format : Format) : List Finding :=
  (format.signature.candidates content.toList).filterMap (accept minChunkSize content format)

/-- The findings of all formats, in the order of the formats. -/
def findings (config : ScanConfig) (content : Array UInt8) : List Finding :=
  config.formats.flatMap (findingsOf config.minChunkSize content)

/-- The findings that a scan returns. -/
def scanned (config : ScanConfig) (content : Array UInt8) : List Finding :=
  limit config.maxChunks ((findings config content).mergeSort Finding.le)

section Probe

variable {minChunkSize : Nat} {content : Array UInt8}

theorem probe_eq (format : Format) (start : Nat) :
    probe minChunkSize content format start = .ok (accept minChunkSize content format start) := by
  unfold probe accept
  rcases h : format.boundaryIn content start with e | _ | c
  · simp [Format.rejects_of_boundaryIn h]
  · rfl
  · by_cases hc : minChunkSize ≤ c.size
    · simp [hc, Nat.not_lt.2 hc]
    · simp [hc, Nat.lt_of_not_le hc]

theorem probeAll_eq (tried : List (Format × Nat)) : probeAll minChunkSize content tried
    = .ok (tried.filterMap fun p => accept minChunkSize content p.1 p.2) := by
  induction tried with
  | nil => rfl
  | cons p tried ih =>
    obtain ⟨format, start⟩ := p
    rw [probeAll, probe_eq, ih, List.filterMap_cons]
    rcases accept minChunkSize content format start with _ | r <;> rfl

theorem scan_eq (config : ScanConfig) (content : Array UInt8) :
    scan config content = .ok (scanned config content) := by
  have hf : (candidates config.formats content.toList).filterMap
      (fun p => accept config.minChunkSize content p.1 p.2) = findings config content := by
    simp only [candidates, findings, List.filterMap_flatMap, List.filterMap_map,
      Function.comp_def]
    rfl
  rw [scan, probeAll_eq, hf]
  rfl

theorem accept_eq_some {format : Format} {start : Nat} {r : Finding} :
    accept minChunkSize content format start = some r ↔ r.format = format
      ∧ format.boundaryIn content start = .ok (some r.chunk) ∧ minChunkSize ≤ r.chunk.size := by
  obtain ⟨g, chunk⟩ := r
  unfold accept
  rcases format.boundaryIn content start with e | _ | c
  · simp
  · simp
  · by_cases hc : minChunkSize ≤ c.size
    · simp only [hc, if_true, Option.some.injEq, Finding.mk.injEq, Except.ok.injEq]
      constructor
      · rintro ⟨rfl, rfl⟩
        exact ⟨rfl, rfl, hc⟩
      · rintro ⟨rfl, rfl, -⟩
        exact ⟨rfl, rfl⟩
    · simp only [hc, if_false, Except.ok.injEq, Option.some.injEq]
      constructor
      · intro h
        cases h
      · rintro ⟨-, rfl, h⟩
        exact absurd h hc

theorem mem_findingsOf {format : Format} {r : Finding} :
    r ∈ findingsOf minChunkSize content format ↔ r.format = format
      ∧ r.chunk.start ∈ format.signature.candidates content.toList
      ∧ format.boundaryIn content r.chunk.start = .ok (some r.chunk)
      ∧ minChunkSize ≤ r.chunk.size := by
  rw [findingsOf, List.mem_filterMap]
  constructor
  · rintro ⟨start, hm, ha⟩
    obtain ⟨hformat, hb, hsize⟩ := accept_eq_some.1 ha
    obtain ⟨rfl, -⟩ := Format.bounds_of_boundaryIn hb
    exact ⟨hformat, hm, hb, hsize⟩
  · rintro ⟨hformat, hm, hb, hsize⟩
    exact ⟨_, hm, accept_eq_some.2 ⟨hformat, hb, hsize⟩⟩

theorem mem_findings {config : ScanConfig} {r : Finding} :
    r ∈ findings config content ↔ r.format ∈ config.formats
      ∧ r.chunk.start ∈ r.format.signature.candidates content.toList
      ∧ r.format.boundaryIn content r.chunk.start = .ok (some r.chunk)
      ∧ config.minChunkSize ≤ r.chunk.size := by
  rw [findings, List.mem_flatMap]
  constructor
  · rintro ⟨format, hf, hr⟩
    obtain ⟨rfl, h⟩ := mem_findingsOf.1 hr
    exact ⟨hf, h⟩
  · rintro ⟨hf, h⟩
    exact ⟨_, hf, mem_findingsOf.2 ⟨rfl, h⟩⟩

end Probe

section Count

variable {minChunkSize start : Nat} {content : Array UInt8} {format : Format} {c : Chunk}

theorem pairwise_findingsOf (format : Format) : (findingsOf minChunkSize content format).Pairwise
    fun r r' => r.chunk.start < r'.chunk.start := by
  refine List.Pairwise.filterMap _ (fun a b hab r hr r' hr' => ?_) pairwise_candidates
  obtain ⟨-, h1, -⟩ := accept_eq_some.1 hr
  obtain ⟨-, h2, -⟩ := accept_eq_some.1 hr'
  rw [(Format.bounds_of_boundaryIn h1).1, (Format.bounds_of_boundaryIn h2).1]
  exact hab

/-- An accepted candidate is listed once under its format and under no other format. -/
theorem countP_findingsOf (hm : start ∈ format.signature.candidates content.toList)
    (hb : format.boundaryIn content start = .ok (some c)) (hc : minChunkSize ≤ c.size)
    (g : Format) : (findingsOf minChunkSize content g).countP
      (fun r => r.format = format ∧ r.chunk.start = start) = if g = format then 1 else 0 := by
  by_cases hg : g = format
  · subst hg
    have hstart := (Format.bounds_of_boundaryIn hb).1
    have hr : ⟨g, c⟩ ∈ findingsOf minChunkSize content g :=
      mem_findingsOf.2 ⟨rfl, hstart.symm ▸ hm, hstart.symm ▸ hb, hc⟩
    have hsorted : (findingsOf minChunkSize content g).Pairwise _ := pairwise_findingsOf g
    -- The findings before it begin at lower offsets and those behind it at higher ones.
    obtain ⟨before, behind, hl⟩ := List.append_of_mem hr
    rw [hl] at hsorted ⊢
    obtain ⟨-, hcons, hbefore⟩ := List.pairwise_append.1 hsorted
    have h1 : before.countP (fun r => r.format = g ∧ r.chunk.start = start) = 0 := by
      refine List.countP_eq_zero.2 fun r hr => ?_
      have hlt : r.chunk.start < c.start := hbefore r hr _ List.mem_cons_self
      rw [decide_eq_true_eq]
      omega
    have h2 : behind.countP (fun r => r.format = g ∧ r.chunk.start = start) = 0 := by
      refine List.countP_eq_zero.2 fun r hr => ?_
      have hlt : c.start < r.chunk.start := (List.pairwise_cons.1 hcons).1 r hr
      rw [decide_eq_true_eq]
      omega
    rw [List.countP_append, List.countP_cons, h1, h2]
    simp [hstart]
  · rw [if_neg hg, List.countP_eq_zero]
    intro r hr
    obtain ⟨rfl, -⟩ := mem_findingsOf.1 hr
    simp [hg]

/-- An accepted candidate is listed as often as its format. -/
theorem countP_findings {config : ScanConfig}
    (hm : start ∈ format.signature.candidates content.toList)
    (hb : format.boundaryIn content start = .ok (some c)) (hc : config.minChunkSize ≤ c.size) :
    (findings config content).countP (fun r => r.format = format ∧ r.chunk.start = start)
      = config.formats.count format := by
  unfold findings
  induction config.formats with
  | nil => rfl
  | cons g formats ih =>
    rw [List.flatMap_cons, List.countP_append, ih, countP_findingsOf hm hb hc, List.count_cons,
      Nat.add_comm]
    simp

end Count

section Order

theorem Finding.le_iff {a b : Finding} : a.le b ↔ a.chunk.start < b.chunk.start
    ∨ a.chunk.start = b.chunk.start ∧ a.chunk.stop ≤ b.chunk.stop := by
  simp [Finding.le]

theorem Finding.le_trans (a b c : Finding) (h : a.le b) (h' : b.le c) : a.le c := by
  rw [Finding.le_iff] at *
  omega

theorem Finding.le_total (a b : Finding) : (a.le b || b.le a) = true := by
  rw [Bool.or_eq_true, Finding.le_iff, Finding.le_iff]
  omega

theorem Finding.chunk_eq_of_le {a b : Finding} (h : a.le b) (h' : b.le a) : a.chunk = b.chunk := by
  obtain ⟨_, _, _, _⟩ := a
  obtain ⟨_, _, _, _⟩ := b
  rw [Finding.le_iff] at h h'
  simp only [Chunk.mk.injEq] at h h' ⊢
  omega

/-- The findings of another list, sorted by where their chunks start and then by where they stop,
and those of one chunk in the order that they have there. -/
structure IsStableSort (found sorted : List Finding) : Prop where
  perm : sorted.Perm found
  ordered : sorted.Pairwise fun a b => a.chunk.start < b.chunk.start
    ∨ a.chunk.start = b.chunk.start ∧ a.chunk.stop ≤ b.chunk.stop
  stable : ∀ c : Chunk, sorted.filter (·.chunk = c) = found.filter (·.chunk = c)

theorem isStableSort_mergeSort (found : List Finding) :
    IsStableSort found (found.mergeSort Finding.le) where
  perm := List.mergeSort_perm _ _
  ordered := (List.pairwise_mergeSort Finding.le_trans Finding.le_total found).imp Finding.le_iff.1
  stable c := by
    have hsorted : (found.filter (·.chunk = c)).Pairwise (Finding.le · ·) := by
      refine List.pairwise_of_forall_mem_list fun a ha b hb => ?_
      have h1 : a.chunk = c := by simpa using (List.mem_filter.1 ha).2
      have h2 : b.chunk = c := by simpa using (List.mem_filter.1 hb).2
      rw [Finding.le_iff, h1, h2]
      omega
    -- They are a sorted part of the list, and sorting keeps such a part in its order.
    have hsub := (List.sublist_mergeSort Finding.le_trans Finding.le_total hsorted
      List.filter_sublist).filter (·.chunk = c)
    simp only [List.filter_filter, Bool.and_self] at hsub
    refine (hsub.eq_of_length ?_).symm
    exact ((List.mergeSort_perm found Finding.le).filter _).length_eq.symm

end Order

section Scan

/-- The bounds of two findings are equal only if the findings are. -/
theorem findings_antisymm {config : ScanConfig} {content : Array UInt8} {a b : Finding}
    (ha : a ∈ findings config content) (hb : b ∈ findings config content) (h : a.le b)
    (h' : b.le a) : a = b := by
  have hc := Finding.chunk_eq_of_le h h'
  obtain ⟨-, ha, -⟩ := mem_findings.1 ha
  obtain ⟨-, hb, -⟩ := mem_findings.1 hb
  rw [hc] at ha
  have hf := Format.eq_of_mem_candidates ha hb
  obtain ⟨_, _⟩ := a
  obtain ⟨_, _⟩ := b
  cases hc
  cases hf
  rfl

theorem mergeSort_findings_of_perm {config : ScanConfig} {content : Array UInt8}
    {formats : List Format} (h : formats.Perm config.formats) :
    (findings { config with formats := formats } content).mergeSort Finding.le
      = (findings config content).mergeSort Finding.le := by
  have hperm : (findings { config with formats := formats } content).Perm
    (findings config content) := h.flatMap_right _
  have h1 := isStableSort_mergeSort (findings { config with formats := formats } content)
  have h2 := isStableSort_mergeSort (findings config content)
  refine List.Perm.eq_of_pairwise (fun a b ha hb hab hba => ?_) h1.ordered h2.ordered
    (h1.perm.trans (hperm.trans h2.perm.symm))
  exact findings_antisymm (hperm.subset (h1.perm.subset ha)) (h2.perm.subset hb)
    (Finding.le_iff.2 hab) (Finding.le_iff.2 hba)

/-- A scan succeeds with the findings of all formats at all their candidates, the candidates of a
format in ascending order, sorted stably by their bounds. If there is a greatest number of chunks,
it returns that many of them from the front. Every finding is what its calculation answers at a
candidate, and lies within the data. Every candidate with a chunk that is large enough is listed
once for each time that its format is asked for, a scan without a limit returns the whole list, and
the order of the formats does not matter. -/
theorem scan_spec (config : ScanConfig) (content : Array UInt8) : ∃ all : List Finding,
    scan config content
      = .ok (if config.maxChunks = 0 then all else all.take config.maxChunks)
    ∧ IsStableSort (findings config content) all
    ∧ (∀ format : Format, (format.signature.candidates content.toList).Pairwise (· < ·))
    ∧ (∀ r ∈ all, r.format ∈ config.formats
        ∧ r.chunk.start ∈ r.format.signature.candidates content.toList
        ∧ r.format.boundaryIn content r.chunk.start = .ok (some r.chunk)
        ∧ config.minChunkSize ≤ r.chunk.size
        ∧ r.chunk.start < r.chunk.stop ∧ r.chunk.stop ≤ content.size)
    ∧ (∀ format start c, start ∈ format.signature.candidates content.toList →
        format.boundaryIn content start = .ok (some c) → config.minChunkSize ≤ c.size →
        all.countP (fun r => r.format = format ∧ r.chunk.start = start)
          = config.formats.count format)
    ∧ scan { config with maxChunks := 0 } content = .ok all
    ∧ ∀ formats, formats.Perm config.formats →
        scan { config with formats := formats } content = scan config content := by
  have hsort := isStableSort_mergeSort (findings config content)
  refine ⟨_, scan_eq config content, hsort, fun format => pairwise_candidates, fun r hr => ?_,
    fun format start c hm hb hc => ?_, scan_eq _ content, fun formats hperm => ?_⟩
  · obtain ⟨hf, hm, hb, hsize⟩ := mem_findings.1 (hsort.perm.subset hr)
    exact ⟨hf, hm, hb, hsize, r.chunk.start_lt_stop, (Format.bounds_of_boundaryIn hb).2⟩
  · rw [hsort.perm.countP_eq, countP_findings hm hb hc]
  · rw [scan_eq, scan_eq, scanned, scanned, mergeSort_findings_of_perm hperm]

/-- An archive that is asked for twice is listed twice. -/
theorem scan_spec_repeated :
    let archive : Array UInt8 := #[19, 0, 0x2D, 0x6C, 0x68, 0x30, 0x2D, 2, 0, 0, 0, 2, 0, 0, 0,
      0, 0, 0, 0, 0x20, 0, 0x68, 0x69, 0]
    Format.lzh.boundaryIn archive 0 = .ok (some ⟨0, 24, by decide⟩)
      ∧ 0 ∈ Format.lzh.signature.candidates archive.toList
      ∧ ∃ all, scan ⟨[.lzh, .gzip, .lzh], 0, 24⟩ archive = .ok all
        ∧ all.countP (fun r => r.format = .lzh ∧ r.chunk.start = 0) = 2
        ∧ scan ⟨[.gzip, .lzh, .lzh], 0, 24⟩ archive = .ok all := by
  intro archive
  have hb : Format.lzh.boundaryIn archive 0 = .ok (some ⟨0, 24, by decide⟩) := by
    rw [Lzh.boundaryIn_eq]
    exact Lzh.outcome_eq_some.2 ⟨by decide, by decide, rfl, by decide, by decide⟩
  have hm : 0 ∈ Format.lzh.signature.candidates archive.toList :=
    mem_candidates.2 ⟨[0x2D, 0x6C, 0x68, 0x30, 0x2D], by decide +kernel, 2,
      ⟨by decide, ⟨_, rfl⟩⟩, by decide⟩
  obtain ⟨all, hscan, -, -, -, hcount, -, hperm⟩ := scan_spec ⟨[.lzh, .gzip, .lzh], 0, 24⟩ archive
  exact ⟨hb, hm, all, hscan, hcount _ _ _ hm hb (by decide),
    (hperm _ (List.Perm.swap _ _ _)).trans hscan⟩

end Scan

end Carving
