import Carving.Proofs.Disturbance

/-!
# One source for many calculations

A calculation puts its source to an offset of its own before it reads, and leaves the source on the
same data, at whatever position it has come to when it ends or gives up (`Format.serves_after`). So
calculations that share a source, one after another, answer what each of them answers on the data in
memory, whatever was asked for before and however that ended (`answerAll_eq_map`).
-/

namespace Carving

/-- A format, and an offset at which an object of it may begin. -/
structure Request where
  format : Format
  start : Nat
  deriving DecidableEq, Repr

/-- The session as a step leaves it, whether the step succeeds or fails. -/
def Probe.after {α : Type} (act : Probe α) (session : Session) : Session :=
  match act session with
  | .ok _ session | .error _ session => session

/-- The answers to requests on one source, each calculated where the one before has left it. -/
def answerAll : List Request → Source → List (Except Error (Option Chunk))
  | [], _ => []
  | r :: rest, s =>
    let act := r.format.boundary r.start
    act.answer (.ofSource s) :: answerAll rest (act.after (.ofSource s)).source

section Shared

variable {s : Source} {data : List UInt8} {position : Nat}

theorem Format.answer_eq_boundaryIn (format : Format) (start : Nat) (h : s.Serves data position) :
    (format.boundary start).answer (.ofSource s) = format.boundaryIn data.toArray start := by
  have hmemory : (Source.ofBytes data).Serves data 0 := Source.serves_ofContent data.toArray
  rw [Format.boundaryIn_eq]
  rcases (format.sameEnd_boundary start (Source.offers_none_iff.2 h) hmemory).answer with
    ⟨f, hf, -⟩ | ⟨hend, -⟩
  · cases hf
  · exact hend

/-- The source beside itself: it serves its data to the end of the calculation. -/
theorem Format.serves_after (format : Format) (start : Nat) (h : s.Serves data position) :
    ∃ p, ((format.boundary start).after (.ofSource s)).source.Serves data p := by
  have hend := format.sameEnd_boundary start (Source.offers_none_iff.2 h) h
  unfold Probe.after
  generalize format.boundary start (.ofSource s) = r at hend
  cases hend with
  | failed hf => cases hf
  | ok _ h' | error _ h' =>
    obtain ⟨p, -, hs⟩ := h'.source
    exact ⟨p, hs⟩

/-- Requests on one source that serves its data, from any position on, are answered as each is on
the data in memory: no answer depends on the requests before it, on how they ended or on where they
left the source. -/
theorem answerAll_eq_map (h : s.Serves data position) (requests : List Request) :
    answerAll requests s = requests.map fun r => r.format.boundaryIn data.toArray r.start := by
  induction requests generalizing s position with
  | nil => rfl
  | cons r rest ih =>
    obtain ⟨p, hs⟩ := r.format.serves_after r.start h
    rw [answerAll, List.map_cons, r.format.answer_eq_boundaryIn r.start h, ih hs]

/-- An archive with a superblock's mark behind it, on a source that stands far behind its end: the
archive is found after a calculation that gives up midway, and once more at the end. -/
theorem answerAll_eq_map_archive :
    let data : List UInt8 := [19, 0, 0x2D, 0x6C, 0x68, 0x30, 0x2D, 2, 0, 0, 0, 2, 0, 0, 0, 0, 0, 0,
      0, 0x20, 0, 0x68, 0x69, 0x31, 0x18, 0x10, 0x06]
    let source : Source := { Source.hesitant data with position := 1000 }
    source.Serves data 1000
      ∧ answerAll [⟨.ubifs, 23⟩, ⟨.lzh, 0⟩, ⟨.gzip, 23⟩, ⟨.lzh, 0⟩] source
        = [.error (.truncated Ubifs.superblock.name 23 4096 4), .ok (some ⟨0, 23, by decide⟩),
          .ok none, .ok (some ⟨0, 23, by decide⟩)] := by
  intro data source
  have hs : source.Serves data 1000 := (Source.serves_hesitant data).seek 1000
  have hshort : Format.ubifs.boundaryIn data.toArray 23
      = .error (.truncated Ubifs.superblock.name 23 4096 4) := by
    rw [Ubifs.boundaryIn_eq]
    rfl
  have harchive : Format.lzh.boundaryIn data.toArray 0 = .ok (some ⟨0, 23, by decide⟩) := by
    rw [Lzh.boundaryIn_eq]
    exact Lzh.outcome_eq_some.2 ⟨by decide, by decide, rfl, by decide, by decide⟩
  have hnone : Format.gzip.boundaryIn data.toArray 23 = .ok none := by cbv
  refine ⟨hs, ?_⟩
  rw [answerAll_eq_map hs, List.map_cons, List.map_cons, List.map_cons, List.map_cons, List.map_nil,
    hshort, harchive, hnone]

end Shared

end Carving
