import Carving.Proofs.Serving
import Carving.Record.Layout

/-!
# Reading one field of a record

A field is looked up by its name in the record that a layout cuts from some bytes. What it holds
depends only on the bytes between two fixed offsets (`number_cut`), and a source that serves its
data gives the record from the bytes at its position (`Serves.parse`). The size of a record is what
its fields take together, as far as 64 bits hold that (`size_of_lt`).
-/

namespace Carving

theorem capacity_le {m n : Nat} (h : m ≤ n) : capacity m ≤ capacity n := by
  induction h with
  | refl => exact Nat.le_refl _
  | step h ih =>
    rw [capacity]
    omega

namespace Layout

theorem size_eq (l : Layout) : l.size = l.total % capacity 8 := by
  have hfold : ∀ (fields : List Field) (sum : Nat), sum < capacity 8 →
      fields.foldl (fun sum field => (sum + field.kind.width) % capacity 8) sum
        = (sum + total ⟨l.name, fields⟩) % capacity 8 := by
    intro fields
    induction fields with
    | nil => exact fun sum hsum => (Nat.mod_eq_of_lt hsum).symm
    | cons field fields ih =>
      intro sum _
      rw [List.foldl_cons, ih _ (Nat.mod_lt _ (by decide)), Nat.mod_add_mod, Nat.add_assoc]
      rfl
  rw [size, hfold l.fields 0 (by decide), Nat.zero_add]

/-- The fields take as many bytes as the size says. -/
theorem size_of_lt {l : Layout} (h : l.total < capacity 8) : l.size = l.total := by
  rw [size_eq, Nat.mod_eq_of_lt h]

/-- Where the first field of that name begins, and what it holds. -/
def place? : List Field → String → Option (Nat × FieldKind)
  | [], _ => none
  | field :: fields, name =>
    if field.name = name then some (0, field.kind)
    else (place? fields name).map fun (offset, kind) => (field.kind.width + offset, kind)

/-- The number in so many bytes from an offset on. -/
def numberAt (e : Endian) (bytes : List UInt8) (offset width : Nat) : Nat :=
  e.value ((bytes.drop offset).take width)

theorem numberAt_lt (e : Endian) (bytes : List UInt8) (offset width : Nat) :
    numberAt e bytes offset width < capacity width :=
  Nat.lt_of_lt_of_le (e.value_lt _) (capacity_le (List.length_take_le _ _))

/-- A number in a record is one in the data from which the record is taken. -/
theorem numberAt_take_drop (e : Endian) (data : List UInt8) (start : Nat)
    {count offset width : Nat} (h : offset + width ≤ count) :
    numberAt e ((data.drop start).take count) offset width
      = numberAt e data (start + offset) width := by
  rw [numberAt, numberAt, List.drop_take, List.take_take, List.drop_drop,
    Nat.min_eq_left (by omega)]

theorem find?_cut (e : Endian) (fields : List Field) (bytes : List UInt8) (name : String) :
    ((cut e fields bytes).find? (·.1 = name)).map (·.2)
      = (place? fields name).map fun p => p.2.read e ((bytes.drop p.1).take p.2.width) := by
  induction fields generalizing bytes with
  | nil => rfl
  | cons field fields ih =>
    rw [cut, place?, List.find?_cons]
    by_cases h : field.name = name
    · simp [h]
    · simp only [h, decide_false, if_false, ih, Option.map_map]
      congr 1
      funext p
      simp

theorem number_cut {e : Endian} {fields : List Field} {name : String} {offset : Nat}
    {kind : FieldKind} (h : place? fields name = some (offset, kind))
    (hk : ∀ bytes, kind.read e bytes = .number (e.value bytes)) (layout : String) (size : Nat)
    (bytes : List UInt8) :
    Record.number ⟨layout, size, cut e fields bytes⟩ name
      = .ok (numberAt e bytes offset kind.width) := by
  have hg : Record.get? ⟨layout, size, cut e fields bytes⟩ name
      = some (.number (numberAt e bytes offset kind.width)) := by
    rw [Record.get?, find?_cut, h, Option.map_some, hk]
    rfl
  rw [Record.number, hg]

end Layout

section Parse

variable {s : Source} {data : List UInt8} {position : Nat}

/-- The record is cut from the bytes at the position, if there are enough of them. -/
theorem Source.Serves.parse (hs : s.Serves data position) (l : Layout) (h : l.total < capacity 8)
    (e : Endian) :
    (l.size ≤ data.length - position ∧ ∃ s', l.parse e s
        = .ok ⟨l.name, l.size, Layout.cut e l.fields ((data.drop position).take l.size)⟩ s'
      ∧ s'.Serves data (position + l.size))
    ∨ (data.length - position < l.size ∧ ∃ s', l.parse e s
        = .error (.truncated l.name position l.size (data.length - position)) s') := by
  obtain ⟨s', h1, h2⟩ := hs.fill l.size
  have htell : Source.tell s = .ok position s := by rw [Source.tell, hs.position_eq]
  have hl : ((data.drop position).take l.size).length = min l.size (data.length - position) := by
    simp
  unfold Layout.parse
  rw [bind_of_ok htell, bind_of_ok h1]
  rcases Nat.lt_or_ge (data.length - position) l.size with hlt | hge
  · refine .inr ⟨hlt, s', ?_⟩
    rw [Nat.min_eq_right (Nat.le_of_lt hlt)] at hl
    rw [hl, if_pos hlt]
    rfl
  · rw [Nat.min_eq_left hge] at hl
    rw [hl] at h2
    refine .inl ⟨hge, s', ?_, h2⟩
    rw [hl, if_neg (Nat.lt_irrefl _), Layout.decode, if_neg (by omega),
      if_neg (by rw [← Layout.size_of_lt h]; omega)]
    rfl

end Parse

end Carving
