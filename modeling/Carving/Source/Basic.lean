import Carving.Error

/-!
# Sources

A source is a sequence of bytes with a position in it. Reads go through a device that may deliver
fewer bytes than it is asked for, may report interruptions first, and may fail from some position
on. `fill` reads as many bytes as are asked for, unless the source ends before, and retries what
was interrupted.
-/

namespace Carving

/-- How a device serves one read: how often it is interrupted first, and the most it delivers. -/
structure Turn where
  interruptions : Nat
  most : Nat
  deriving DecidableEq, Repr

/-- A failure that every read meets from a position on, with its text. -/
structure Fault where
  position : Nat
  text : String
  deriving DecidableEq, Repr

/-- Bytes with a position, and the device through which they are read. -/
structure Source where
  content : Array UInt8
  position : Nat
  pace : Nat → Turn
  turn : Nat
  /-- How often the next read has been interrupted already. -/
  interrupted : Nat
  fault : Option Fault

inductive Reply
  | delivered (bytes : Array UInt8)
  | interrupted
  | failed (text : String)

/-- A step that may read from a source, and may fail. -/
abbrev Reading (α : Type) := EStateM Error Source α

namespace Source

/-- Bytes in memory: every read delivers all that it can. -/
def ofContent (content : Array UInt8) : Source :=
  ⟨content, 0, fun _ => ⟨0, content.size⟩, 0, 0, none⟩

def ofBytes (bytes : List UInt8) : Source := ofContent bytes.toArray

def remaining (s : Source) : Nat := s.content.size - s.position

def interruptionsLeft (s : Source) : Nat := (s.pace s.turn).interruptions - s.interrupted

def faultHere (s : Source) : Option String :=
  match s.fault with
  | none => none
  | some fault => if fault.position ≤ s.position then some fault.text else none

/-- How many of `count` bytes the device delivers when it serves the next read. -/
def servable (s : Source) (count : Nat) : Nat :=
  let count := min (min count (s.pace s.turn).most) s.remaining
  match s.fault with
  | none => count
  | some fault => min count (fault.position - s.position)

def read (s : Source) (count : Nat) : Reply × Source :=
  if s.interruptionsLeft ≠ 0 then (.interrupted, { s with interrupted := s.interrupted + 1 })
  else
    match s.faultHere with
    | some text => (.failed text, { s with turn := s.turn + 1, interrupted := 0 })
    | none =>
      let count := s.servable count
      (.delivered (s.content.extract s.position (s.position + count)),
        { s with position := s.position + count, turn := s.turn + 1, interrupted := 0 })

theorem servable_le (s : Source) (count : Nat) :
    s.servable count ≤ count ∧ s.servable count ≤ s.remaining := by
  unfold servable
  split <;> dsimp only <;> omega

theorem read_delivered {s s' : Source} {count : Nat} {bytes : Array UInt8}
    (h : s.read count = (.delivered bytes, s')) :
    bytes.toList = (s.content.toList.drop s.position).take bytes.size ∧ bytes.size ≤ count
      ∧ s'.content = s.content ∧ s'.position = s.position + bytes.size
      ∧ (bytes.size ≠ 0 → s'.position ≤ s.content.size) := by
  obtain ⟨h1, h2⟩ := s.servable_le count
  simp only [remaining] at h2
  unfold read at h
  split at h
  · cases h
  · split at h
    · cases h
    · cases h
      have hs : (s.content.extract s.position (s.position + s.servable count)).size
          = s.servable count := by
        rw [Array.size_extract]
        omega
      refine ⟨?_, by omega, rfl, by simp only [hs], by dsimp only; omega⟩
      rw [hs, Array.toList_extract, List.extract_eq_take_drop]
      congr 1
      omega

theorem read_interrupted {s s' : Source} {count : Nat} (h : s.read count = (.interrupted, s')) :
    s'.interruptionsLeft < s.interruptionsLeft ∧ s'.content = s.content
      ∧ s'.position = s.position := by
  unfold read at h
  split at h
  · cases h
    refine ⟨?_, rfl, rfl⟩
    simp only [interruptionsLeft] at *
    omega
  · split at h <;> cases h

/-- Reads on until `count` more bytes are there, behind those already read. -/
def fillFrom (got : Array UInt8) (count : Nat) (s : Source) :
    EStateM.Result Error Source (Array UInt8) :=
  if count = 0 then .ok got s
  else
    match _h : s.read count with
    | (.interrupted, s') => fillFrom got count s'
    | (.failed text, s') => .error (.io text) s'
    | (.delivered bytes, s') =>
      if bytes.size = 0 then .ok got s' else fillFrom (got ++ bytes) (count - bytes.size) s'
termination_by (count, s.interruptionsLeft)
decreasing_by
  · exact Prod.Lex.right _ (read_interrupted _h).1
  · exact Prod.Lex.left _ _ (by omega)

def fill (count : Nat) : Reading (List UInt8) := fun s =>
  match fillFrom #[] count s with
  | .ok bytes s => .ok bytes.toList s
  | .error e s => .error e s

/-- Moves to a position, which may lie behind the end. -/
def seek (position : Nat) : Reading Unit := fun s => .ok () { s with position := position }

def rewind (count : Nat) : Reading Unit := fun s =>
  if count ≤ s.position then .ok () { s with position := s.position - count }
  else .error (.io "invalid seek to a negative or overflowing position") s

def tell : Reading Nat := fun s => .ok s.position s

def length : Reading Nat := fun s => .ok s.content.size s

theorem fillFrom_ok {got bytes : Array UInt8} {count : Nat} {s s' : Source}
    (h : fillFrom got count s = .ok bytes s') :
    ∃ more : List UInt8, bytes.toList = got.toList ++ more
      ∧ more = (s.content.toList.drop s.position).take more.length ∧ more.length ≤ count
      ∧ s'.content = s.content ∧ s'.position = s.position + more.length
      ∧ (more ≠ [] → s'.position ≤ s.content.size) := by
  fun_induction fillFrom got count s with
  | case1 => cases h; exact ⟨[], by simp⟩
  | case2 got count s hc s1 hr ih =>
    obtain ⟨-, h2, h3⟩ := read_interrupted hr
    obtain ⟨more, h4, h5, h6, h7, h8, h9⟩ := ih h
    rw [h2, h3] at h5
    rw [h2] at h7 h9
    exact ⟨more, h4, h5, h6, h7, by omega, h9⟩
  | case3 => cases h
  | case4 got count s hc bs s1 hr h0 =>
    cases h
    obtain ⟨-, -, h3, h4, -⟩ := read_delivered hr
    exact ⟨[], by simp, by simp, by simp, h3, by simp [h4, h0], by simp⟩
  | case5 got count s hc bs s1 hr h0 ih =>
    obtain ⟨h1, h2, h3, h4, h5⟩ := read_delivered hr
    obtain ⟨more, h6, h7, h8, h9, h10, h11⟩ := ih h
    have hl : bs.toList.length = bs.size := Array.length_toList
    refine ⟨bs.toList ++ more, by simp [h6], ?_, by simp; omega, by rw [h9, h3], by simp; omega, ?_⟩
    · rw [List.length_append, List.take_add, hl, ← h1, List.drop_drop, ← h4, ← h3, ← h7]
    · intro _
      by_cases hm : more = []
      · subst hm
        simp only [List.length_nil, Nat.add_zero] at h10
        rw [h10]
        exact h5 h0
      · rw [← h3]
        exact h11 hm

/-- What `fill` returns stands at the position, which moves over it. -/
theorem fill_ok {count : Nat} {bytes : List UInt8} {s s' : Source}
    (h : fill count s = .ok bytes s') :
    bytes = (s.content.toList.drop s.position).take bytes.length ∧ bytes.length ≤ count
      ∧ s'.content = s.content ∧ s'.position = s.position + bytes.length
      ∧ (bytes ≠ [] → s'.position ≤ s.content.size) := by
  unfold fill at h
  split at h
  · rename_i hf
    cases h
    obtain ⟨more, h1, h2⟩ := fillFrom_ok hf
    simp only [List.nil_append] at h1
    rw [h1]
    exact h2
  · cases h

theorem fill_remaining_lt {count : Nat} {bytes : List UInt8} {s s' : Source}
    (h : fill count s = .ok bytes s') (hb : bytes ≠ []) : s'.remaining < s.remaining := by
  obtain ⟨-, -, h1, h2, h3⟩ := fill_ok h
  have := List.length_pos_iff.2 hb
  have := h3 hb
  simp only [remaining, h1]
  omega

end Source

end Carving
