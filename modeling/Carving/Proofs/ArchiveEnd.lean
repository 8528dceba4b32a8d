import Carving.Proofs.CheckedCalculation

/-!
# Where the header of an archive says that it ends

The first two bytes of a header are its size or, below level 2, its size less two and a checksum.
With the size of the data behind it they tell where the archive ends (`archive_exact`). Only a
single byte that is left behind that end is added to the chunk; an end behind the data, or before
more than one byte, stays where it is.
-/

namespace Carving.Lzh

open Layout (numberAt)

/-- One byte is the number that it stands for. -/
theorem numberAt_one (data : List UInt8) (offset : Nat) :
    numberAt .little data offset 1 = (data.getD offset 0).toNat := by
  have hget : (data.drop offset)[0]? = data[offset]? := by simp
  rw [numberAt, List.getD_eq_getElem?_getD, ← hget]
  rcases data.drop offset with _ | ⟨b, bytes⟩
  · rfl
  · simp [Endian.value, Endian.ofLittle]

/-- Where the header at an offset says that the archive ends. -/
def declaredEnd (data : List UInt8) (start : Nat) : Nat :=
  start + (if (data.getD (start + 20) 0).toNat = 2 then
      (data.getD start 0).toNat + 256 * (data.getD (start + 1) 0).toNat
    else (data.getD start 0).toNat + 2) + numberAt .little data (start + 7) 4

section Outcome

variable {data : List UInt8} {start : Nat}

theorem level_take_drop (data : List UInt8) (start : Nat) :
    level ((data.drop start).take header.size) = (data.getD (start + 20) 0).toNat := by
  rw [level, Layout.numberAt_take_drop _ _ _ (by decide), numberAt_one]

theorem declaredSize_take_drop (data : List UInt8) (start : Nat) :
    start + declaredSize ((data.drop start).take header.size) = declaredEnd data start := by
  rw [declaredSize, declaredEnd, level_take_drop, Layout.numberAt_take_drop _ _ _ (by decide),
    Layout.numberAt_take_drop _ _ _ (by decide), Layout.numberAt_take_drop _ _ _ (by decide),
    numberAt_one, numberAt_one, ← Nat.add_assoc]
  rfl

theorem outcome_of_short (h : data.length < start + 21) : outcome data start
    = .error (.truncated "lzh_default_header" start 21 (data.length - start)) := by
  have hsize : header.size = 21 := by decide
  simp only [outcome, hsize]
  rw [if_pos (by omega)]
  rfl

theorem outcome_of_level (h : start + 21 ≤ data.length)
    (hlevel : 2 < (data.getD (start + 20) 0).toNat) : outcome data start
      = .error (.malformed "lzh"
        s!"unsupported header level {(data.getD (start + 20) 0).toNat}") := by
  have hsize : header.size = 21 := by decide
  unfold outcome
  dsimp only
  rw [level_take_drop, hsize, if_neg (by omega), if_pos hlevel]

theorem outcome_of_header (h : start + 21 ≤ data.length)
    (hlevel : (data.getD (start + 20) 0).toNat ≤ 2) : outcome data start
      = (Chunk.within start
        (if data.length = declaredEnd data start + 1 then data.length else declaredEnd data start)
        data.length).map some := by
  have hsize : header.size = 21 := by decide
  unfold outcome
  dsimp only
  rw [level_take_drop, declaredSize_take_drop, hsize, if_neg (by omega), if_neg (by omega)]

/-- Something that looks like an archive is one, or speaks against itself. -/
theorem outcome_ne_none : outcome data start ≠ .ok none := by
  rcases Nat.lt_or_ge data.length (start + 21) with hshort | hlong
  · simp [outcome_of_short hshort]
  rcases Nat.lt_or_ge 2 (data.getD (start + 20) 0).toNat with hlevel | hlevel
  · simp [outcome_of_level hlong hlevel]
  · rw [outcome_of_header hlong hlevel]
    exact map_within_ne_none

end Outcome

/-- On any source that serves its data, the header is truncated if its first 21 bytes do not lie
within the data, and malformed if its level is greater than two. Otherwise its size, in two bytes or
in one, and the size of the data behind it tell where the archive ends, and one byte more belongs to
it if the data end behind that byte. What is found is the chunk up to there, unless it is empty or
reaches behind the data; it is never nothing. An end that the header declares behind the data, or
before more than one byte of them, is where the chunk would end. Nothing needs more than 64 bits on
the way if the data stay so far below the greatest number that one more header fits. -/
theorem archive_exact {session : Session} {data : List UInt8} {position : Nat}
    (h : session.source.Serves data position) (start : Nat) :
    let answer := (boundary start).answer session
    let byte := fun i => (data.getD (start + i) 0).toNat
    let size := if byte 20 = 2 then byte 0 + 256 * byte 1 else byte 0 + 2
    let declared := start + size + numberAt .little data (start + 7) 4
    let stop := if data.length = declared + 1 then declared + 1 else declared
    (data.length < start + 21 →
      answer = .error (.truncated "lzh_default_header" start 21 (data.length - start)))
    ∧ (start + 21 ≤ data.length → 2 < byte 20 →
      answer = .error (.malformed "lzh" s!"unsupported header level {byte 20}"))
    ∧ (start + 21 ≤ data.length → byte 20 ≤ 2 →
      (start < stop → stop ≤ data.length →
        ∃ c, answer = .ok (some c) ∧ c.start = start ∧ c.stop = stop)
      ∧ (stop ≤ start ∨ data.length < stop →
        answer = .error (.invalidChunk start stop data.length))
      ∧ (data.length < declared → answer = .error (.invalidChunk start declared data.length))
      ∧ (start < declared → declared + 1 < data.length →
        ∃ c, answer = .ok (some c) ∧ c.start = start ∧ c.stop = declared))
    ∧ answer ≠ .ok none
    ∧ (data.length + capacity 2 + capacity 4 ≤ capacity 8 →
      Checked.boundary .lzh start session = boundary start session) := by
  intro answer byte size declared stop
  have hanswer : answer = outcome data start := answer_boundary h start
  have hdeclared : declaredEnd data start = declared := rfl
  rw [hanswer]
  refine ⟨outcome_of_short, outcome_of_level, fun hlong hlevel => ?_, outcome_ne_none,
    fun hfit => Checked.lzh_eq_of_le h hfit start⟩
  have hstop : (if data.length = declared + 1 then data.length else declared) = stop := by
    simp only [stop]
    split <;> simp [*]
  have houtcome := outcome_of_header hlong hlevel
  rw [hdeclared, hstop] at houtcome
  have hchunk : start < stop → stop ≤ data.length →
      ∃ c, outcome data start = .ok (some c) ∧ c.start = start ∧ c.stop = stop := by
    intro hlt hle
    rw [houtcome, map_within_of_le hlt hle]
    exact ⟨_, rfl, rfl, rfl⟩
  have hinvalid : stop ≤ start ∨ data.length < stop →
      outcome data start = .error (.invalidChunk start stop data.length) := by
    intro hout
    rw [houtcome, map_within_of_out hout]
  refine ⟨hchunk, hinvalid, fun hbehind => ?_, fun hlt hmore => ?_⟩
  · have hkept : stop = declared := if_neg (by omega)
    rw [hkept] at hinvalid
    exact hinvalid (.inr hbehind)
  · have hkept : stop = declared := if_neg (by omega)
    rw [hkept] at hchunk
    exact hchunk hlt (by omega)

/-- An archive with a header of level 2, two bytes of data, and one byte behind it. -/
theorem archive_exact_terminated :
    let data : List UInt8 := [0x77, 21, 0, 0x2D, 0x6C, 0x68, 0x30, 0x2D, 2, 0, 0, 0, 2, 0, 0, 0,
      0, 0, 0, 0, 0x20, 2, 0x68, 0x69, 0]
    (Session.ofSource (.hesitant data)).source.Serves data 0
      ∧ ∃ c, (boundary 1).answer (.ofSource (.hesitant data)) = .ok (some c)
        ∧ c.start = 1 ∧ c.stop = 25 := by
  intro data
  have hs : (Session.ofSource (.hesitant data)).source.Serves data 0 := Source.serves_hesitant data
  obtain ⟨-, -, hfound, -⟩ := archive_exact hs 1
  obtain ⟨hchunk, -⟩ := hfound (by decide) (by decide)
  exact ⟨hs, hchunk (by decide) (by decide)⟩

end Carving.Lzh
