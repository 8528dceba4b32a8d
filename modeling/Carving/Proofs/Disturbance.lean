import Carving.Proofs.Outcome
import Carving.Proofs.SteadyCalculation

/-!
# Calculations on disturbed sources

A device may deliver few bytes at a time, interrupt reads, and fail from some position on. How it
delivers and interrupts is never seen (`settles_as_in_memory`), and a fault either ends a
calculation with its own text or leaves the answer as it is on a source without one
(`answer_of_fault`).
-/

namespace Carving

/-- What a step returns, and where it leaves its source when it succeeds. -/
def Reading.settles {α : Type} (act : Reading α) (s : Source) : Except Error (α × Nat) :=
  match act s with
  | .ok a s => .ok (a, s.position)
  | .error e _ => .error e

/-- What a calculation has reported when it ends. -/
def Probe.reports {α : Type} (act : Probe α) (session : Session) : List Event :=
  match act session with
  | .ok _ session | .error _ session => session.log

/-- Bytes in memory, from a position on. -/
def Source.inMemory (data : List UInt8) (position : Nat) : Source :=
  { ofBytes data with position := position }

theorem Source.serves_inMemory (data : List UInt8) (position : Nat) :
    (inMemory data position).Serves data position :=
  (serves_ofContent data.toArray).seek position

section Ends

variable {α : Type} {data : List UInt8} {fault : Option Fault}

theorem SameEnd.answer {act : Probe α} {s t : Session}
    (h : SameEnd fault (Session.Beside data fault) (act s) (act t)) :
    (∃ f, fault = some f ∧ act.answer s = .error (.io f.text))
      ∨ act.answer s = act.answer t ∧ act.reports s = act.reports t := by
  unfold Probe.answer Probe.reports
  generalize act s = r at h
  generalize act t = r' at h
  cases h with
  | failed hf => exact .inl ⟨_, hf, rfl⟩
  | ok _ h' => exact .inr ⟨rfl, h'.log_eq⟩
  | error _ h' => exact .inr ⟨rfl, h'.log_eq⟩

/-- From a source that serves its data, a steady step settles as it does from memory. -/
theorem Steady.settles {act : Reading α} (h : Steady none (Source.Beside data none) act)
    {s : Source} {position : Nat} (hs : s.Serves data position) :
    act.settles s = act.settles (.inMemory data position) := by
  have hend := h s (.inMemory data position)
    ⟨position, Source.offers_none_iff.2 hs, Source.serves_inMemory data position⟩
  unfold Reading.settles
  generalize act s = r at hend
  generalize act (.inMemory data position) = r' at hend
  cases hend with
  | failed hf => cases hf
  | ok _ h' =>
    dsimp only
    rw [h'.position_eq]
  | error _ _ => rfl

/-- Wherever the sources stand, a calculation comes to the same answer unless it meets the fault. -/
theorem Format.sameEnd_boundary (format : Format) (start : Nat) {s t : Source}
    {position position' : Nat} (hs : s.Offers data position fault) (ht : t.Serves data position') :
    SameEnd fault (Session.Beside data fault) (format.boundary start (.ofSource s))
      (format.boundary start (.ofSource t)) := by
  rw [← format.boundary_seekTo start 0 (.ofSource s),
    ← format.boundary_seekTo start 0 (.ofSource t)]
  exact format.steady_boundary start _ _ ⟨⟨0, hs.seek 0, ht.seek 0⟩, rfl⟩

end Ends

section Disturbance

variable {s t : Source} {data : List UInt8} {position position' : Nat}

/-- From any source that serves its data, however few bytes it delivers at a time and however often
it is interrupted, every calculation answers and reports what it does on the data in memory, and
every other step that searches, skips, decodes or walks settles as it does there. A walk without a
stride is left out where it begins at a marker, since it has no end there. -/
theorem settles_as_in_memory (h : s.Serves data position) :
    (∀ (format : Format) start,
      (format.boundary start).answer (.ofSource s) = format.boundaryIn data.toArray start
      ∧ (format.boundary start).reports (.ofSource s)
        = (format.boundary start).reports (.ofSource (.ofBytes data)))
    ∧ (∀ (layout : Layout) e,
      (layout.parse e).settles s = (layout.parse e).settles (.inMemory data position))
    ∧ (∀ pattern, (Source.findAll pattern).settles s
      = (Source.findAll pattern).settles (.inMemory data position))
    ∧ (∀ byte, (Source.skipRun byte).settles s
      = (Source.skipRun byte).settles (.inMemory data position))
    ∧ (∀ marker, (inferStride marker).settles s
      = (inferStride marker).settles (.inMemory data position))
    ∧ ∀ start stride, stride ≠ 0 ∨ ¬OccursAt Ubi.marker data start →
      (Ubi.walkBlocks start stride).settles s
        = (Ubi.walkBlocks start stride).settles (.inMemory data position) := by
  refine ⟨fun format start => ?_, fun layout e => (layout.steady_parse e).settles h,
    fun pattern => (Source.steady_findAll pattern).settles h,
    fun byte => (Source.steady_skipRun byte).settles h,
    fun marker => (steady_inferStride marker).settles h,
    fun start stride _ => (Ubi.steady_walkBlocks start stride).settles h⟩
  have hmemory : (Source.ofBytes data).Serves data 0 := Source.serves_ofContent data.toArray
  rw [Format.boundaryIn_eq]
  rcases (format.sameEnd_boundary start (Source.offers_none_iff.2 h) hmemory).answer with
    ⟨f, hf, -⟩ | hend
  · cases hf
  · exact hend

/-- A device that delivers single bytes between interruptions. -/
theorem settles_as_in_memory_hesitant :
    let archive : List UInt8 := [19, 0, 0x2D, 0x6C, 0x68, 0x30, 0x2D, 2, 0, 0, 0, 2, 0, 0, 0,
      0, 0, 0, 0, 0x20, 0, 0x68, 0x69, 0]
    (Source.hesitant archive).Serves archive 0
      ∧ (Format.lzh.boundary 0).answer (.ofSource (.hesitant archive))
        = .ok (some ⟨0, 24, by decide⟩)
      ∧ (Source.skipRun 19).settles (.hesitant archive)
        = (Source.skipRun 19).settles (.inMemory archive 0)
      ∧ (Ubi.walkBlocks 2 8).settles (.hesitant archive)
        = (Ubi.walkBlocks 2 8).settles (.inMemory archive 0) := by
  intro archive
  have hs : (Source.hesitant archive).Serves archive 0 := Source.serves_hesitant archive
  obtain ⟨hformats, -, -, hskip, -, hwalk⟩ := settles_as_in_memory hs
  refine ⟨hs, ?_, hskip 19, hwalk 2 8 (.inl (by decide))⟩
  rw [(hformats .lzh 0).1, Lzh.boundaryIn_eq]
  exact Lzh.outcome_eq_some.2 ⟨by decide, by decide, rfl, by decide, by decide⟩

/-- On a source that fails from a position on, a calculation either fails with the text of the
fault, or answers what it answers on a source that serves the same data. -/
theorem answer_of_fault {fault : Fault} (hs : s.Offers data position (some fault))
    (ht : t.Serves data position') (format : Format) (start : Nat) :
    (format.boundary start).answer (.ofSource s) = .error (.io fault.text)
      ∨ (format.boundary start).answer (.ofSource s)
        = (format.boundary start).answer (.ofSource t) := by
  rcases (format.sameEnd_boundary start hs ht).answer with ⟨f, hf, h⟩ | ⟨h, -⟩
  · cases hf
    exact .inl h
  · exact .inr h

/-- A device that fails at the last byte of an archive's header: the calculation for archives fails
with it, and the one for members has read all that it needs before. -/
theorem answer_of_fault_at_header :
    let archive : List UInt8 := [19, 0, 0x2D, 0x6C, 0x68, 0x30, 0x2D, 2, 0, 0, 0, 2, 0, 0, 0,
      0, 0, 0, 0, 0x20, 0, 0x68, 0x69, 0]
    let failing : Source := { Source.hesitant archive with fault := some ⟨20, "device gone"⟩ }
    failing.Offers archive 0 (some ⟨20, "device gone"⟩)
      ∧ (Source.ofBytes archive).Serves archive 0
      ∧ (Format.lzh.boundary 0).answer (.ofSource (.ofBytes archive))
        = .ok (some ⟨0, 24, by decide⟩)
      ∧ (Format.lzh.boundary 0).answer (.ofSource failing) = .error (.io "device gone")
      ∧ (Format.gzip.boundary 0).answer (.ofSource (.ofBytes archive)) = .ok none
      ∧ (Format.gzip.boundary 0).answer (.ofSource failing) = .ok none := by
  intro archive failing
  have hs : failing.Offers archive 0 (some ⟨20, "device gone"⟩) :=
    ⟨rfl, rfl, rfl, fun _ _ => Nat.one_pos⟩
  have ht : (Source.ofBytes archive).Serves archive 0 := Source.serves_ofContent archive.toArray
  have harchive : (Format.lzh.boundary 0).answer (.ofSource (.ofBytes archive))
      = .ok (some ⟨0, 24, by decide⟩) := by
    refine (Lzh.answer_boundary ht 0).trans ?_
    exact Lzh.outcome_eq_some.2 ⟨by decide, by decide, rfl, by decide, by decide⟩
  have hno : (Format.gzip.boundary 0).answer (.ofSource failing) = .ok none := by cbv
  refine ⟨hs, ht, harchive, by cbv, ?_, hno⟩
  rcases answer_of_fault hs ht .gzip 0 with h | h <;> rw [hno] at h
  · cases h
  · exact h.symm

end Disturbance

end Carving
